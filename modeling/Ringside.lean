import Ringside.Run
import Ringside.Queue
import Ringside.DenseFp8.Apply
import Ringside.DenseFp8.Handoff
import Ringside.DenseFp8.SharedQuant
import Ringside.Dict
import Ringside.FileTree
import Ringside.ImportPlan.Commit
import Ringside.ImportPlan.Rollback
import Ringside.Launch.Compose
import Ringside.Launch.Render
import Ringside.Merge
import Ringside.PrefillRing.Geometry
import Ringside.PrefillRing.Layout
import Ringside.PrefillRing.WorkOrder
import Ringside.PrefillRing.Numbering
import Ringside.PrefillRing.Collective
import Ringside.Segments
import Ringside.PrefillRing.Protocol
import Ringside.PrefillRing.Staging
import Ringside.PrefillRing.Posting
import Ringside.PrefillRing.Safety
import Ringside.PrefillRing.Progress
import Ringside.PrefillRing.Counting
import Ringside.Speedup.Saturation
import Ringside.Speedup.Request
import Ringside.Speedup.Cadence
import Ringside.Speedup.FairPrefill
import Ringside.Speedup.Grants
import Ringside.Checks
import Ringside.Speedup.Geometry
import Ringside.Speedup.Dispatch
import Ringside.Speedup.Policy
import Ringside.Speedup.Select
import Ringside.Speedup.Costs
import Ringside.Speedup.Override
import Ringside.SharedPool
import Ringside.Columns
import Ringside.KvLayout.Grouping
import Ringside.KvLayout.Layout
import Ringside.KvLayout.Placement
import Ringside.KvLayout.Stage
import Ringside.KvLayout.Sound
import Ringside.Checkpoint.Plan
import Ringside.ReplayBoundary.Plan
import Ringside.Checkpoint.Split
import Ringside.Checkpoint.Junction
import Ringside.ReplayBoundary.Registry
import Ringside.ReplayBoundary.Integrity
import Ringside.ReplayBoundary.Ownership
import Ringside.Utf8
import Ringside.Utf8Guard.Automaton
import Ringside.Utf8Guard.Tokens
import Ringside.Utf8Guard.Kernel
import Ringside.Scatter
import Ringside.OnlineSoftmax
import Ringside.SparseMla.Gather
import Ringside.SparseMla.Kernel
import Ringside.RadixSelect
import Ringside.Barrier
import Ringside.TopkRowspread.Schedule
import Ringside.TopkRowspread.Kernel
import Ringside.TopkRowspread.Safety
import Ringside.TopkRowspread.Runs
import Ringside.TopkRowspread.Threshold
import Ringside.TopkRowspread.Arrivals
import Ringside.TopkRowspread.Host
import Ringside.NcclRouting.Listener
import Ringside.SparseTopk
import Ringside.Shards
import Ringside.RowSplit
import Ringside.Spmd
import Ringside.CollectiveSetup
import Ringside.MhcPrefill.Stack
import Ringside.MhcPrefill.Exact
import Ringside.MambaBlocks
import Ringside.RecoverSsm.Plan
import Ringside.RecoverSsm.Columns
import Ringside.RecoverSsm.Fused
import Ringside.RecoverSsm.Disposal
import Ringside.RecoverSsm.Steps
import Ringside.RecoverSsm.Recurrence
import Ringside.Argmax
import Ringside.GreedyVerify
import Ringside.Races
import Ringside.Json
import Ringside.KdaConv
import Ringside.KdaStaging
import Ringside.KpoolTail
import Ringside.MixedSplit.Marker
import Ringside.MixedSplit.Spans
import Ringside.MixedSplit.Experts
import Ringside.Overlay
import Ringside.Template
import Ringside.Tensor
import Ringside.Text
import Ringside.TileMajor.Repack
import Ringside.TileMajor.Prepare
import Ringside.MoeDecode.RouteTable
import Ringside.MoeDecode.Publish
import Ringside.Cut
import Ringside.ToppFallback.Rows
import Ringside.ToolCalls.Required
import Ringside.ToolCalls.Truncated
import Ringside.ToppFallback.Passes
import Ringside.ToppFallback.Search
import Ringside.ToppFallback.Fallback
import Ringside.NcclRouting.Handle
import Ringside.ContentLogprobs
import Ringside.SplitDelta
