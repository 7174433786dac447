import Ringside.Races

/-!
# The rows of the persistent top-k (`persistent_topk.cuh`)

A block walks its rows in two passes: the short rows of the whole grid, row `r` by block `r` mod the
blocks, then the radix rows of its group. The loop before the patch walked the rows of the group
once, and the group's first block took the short ones.

* `Params` are the fields that the scheduling reads, with the bits of the scores. `seqLen` is
  clamped before any decision is made on it, as in the kernel.
* The host launches whole groups, at least one of them: both are fields. The blocks beyond the last
  group return at once.
* Addresses and row numbers do not wrap.
* A task is a row and what the block does to it. `pass1` and `groupRows` are the two loops,
  `rowspreadTasks` the kernel's order of them; `groupedTasks` is the loop before.
* `Schedule` is what the rest of the development needs of either: its proofs never look at a loop
  again.

Results:
* `rowspread`, `grouped`: both are schedules. A short row is one block's, once; the radix rows of a
  group are those of every block of it, in one order.
-/

namespace Ringside.TopkRowspread

open Races

/-- `RADIX_THRESHOLD`. -/
def radixThreshold : Nat := 32768

/-- `PersistentTopKParams` and the grid, as far as the scheduling reads them, with the bits of the
scores. -/
structure Params where
  input : Nat → Nat → Nat
  lengths : Nat → Int
  numRows : Nat
  stride : Nat
  topK : Nat
  chunkSize : Nat
  ctasPerGroup : Nat
  maxSeqLen : Nat
  gridDim : Nat
  ctas_pos : 0 < ctasPerGroup
  ctas_le : ctasPerGroup ≤ gridDim

/-- What a block does to a row. -/
inductive Task
  | short (row : Nat)
  | radix (row : Nat)
deriving DecidableEq

namespace Task

/-- The radix row of a task. -/
def radix? : Task → Option Nat
  | short _ => none
  | radix r => some r

end Task

namespace Params

variable (p : Params)

def numGroups : Nat := p.gridDim / p.ctasPerGroup

/-- `total_ctas`: the blocks beyond the last group return at once. -/
def totalCtas : Nat := p.numGroups * p.ctasPerGroup

/-- `seq_len`, clamped before any decision is made on it. -/
def seqLen (r : Nat) : Nat := min (p.lengths r).toNat (min p.stride p.maxSeqLen)

/-- The rows that one block can do. -/
def Short (r : Nat) : Prop := p.seqLen r ≤ radixThreshold

instance : DecidablePred p.Short := fun _ => inferInstanceAs (Decidable (_ ≤ _))

/-- The first pass of a block. -/
def pass1 (c : Nat) : List Task := ((strided c p.numRows p.totalCtas).filter (p.Short ·)).map .short

def totalIters : Nat := (p.numRows + p.numGroups - 1) / p.numGroups

/-- The rows of a group: the loop breaks at the first one beyond the last row. -/
def groupRows (g : Nat) : List Nat :=
  ((List.range p.totalIters).map fun iter => g + iter * p.numGroups).takeWhile (· < p.numRows)

/-- The radix rows of a group, in the order of its barriers. -/
def radixRows (g : Nat) : List Nat := (p.groupRows g).filter fun r => ¬p.Short r

/-- What a block of the kernel does. -/
def rowspreadTasks (c : Nat) : List Task :=
  if p.totalCtas ≤ c then []
  else p.pass1 c ++ if p.maxSeqLen ≤ radixThreshold then []
    else (p.radixRows (c / p.ctasPerGroup)).map .radix

/-- Lists of rows that share the work out: every short row to one block, and to all blocks of a
group the radix rows of the group. -/
structure Schedule where
  tasks : Nat → List Task
  owner : Nat → Nat
  short_mem : ∀ {c r}, Task.short r ∈ tasks c → r < p.numRows ∧ p.Short r
  owner_lt : ∀ {r}, r < p.numRows → p.Short r → owner r < p.totalCtas
  mem_iff : ∀ {c r}, c < p.totalCtas → r < p.numRows → p.Short r →
    (Task.short r ∈ tasks c ↔ c = owner r)
  nodup : ∀ c, (tasks c).Nodup
  radix : ∀ {c}, c < p.totalCtas → (tasks c).filterMap Task.radix? = p.radixRows
    (c / p.ctasPerGroup)

section Rows

variable {p}

theorem numGroups_pos : 0 < p.numGroups := Nat.div_pos p.ctas_le p.ctas_pos

theorem totalCtas_pos : 0 < p.totalCtas := Nat.mul_pos numGroups_pos p.ctas_pos

theorem group_lt {c : Nat} (h : c < p.totalCtas) : c / p.ctasPerGroup < p.numGroups :=
  Nat.div_lt_of_lt_mul (by rwa [Nat.mul_comm])

/-- No row is a radix row when no length can reach the threshold. -/
theorem short_of_maxSeqLen (h : p.maxSeqLen ≤ radixThreshold) (r : Nat) : p.Short r :=
  (Nat.min_le_right _ _).trans ((Nat.min_le_right _ _).trans h)

theorem mem_groupRows {g r : Nat} (hg : g < p.numGroups) : r ∈ p.groupRows g ↔ r < p.numRows ∧
    r % p.numGroups = g := by
  have hpos := numGroups_pos (p := p)
  -- the numbers ascend, so the break drops what the bound does
  have hfilter : p.groupRows g =
      ((List.range p.totalIters).map fun iter => g + iter * p.numGroups).filter
      (· < p.numRows) := by
    have hpair : ((List.range p.totalIters).map fun iter =>
      g + iter * p.numGroups).Pairwise (· ≤ ·) :=
      List.pairwise_map.mpr (List.pairwise_lt_range.imp fun h =>
        Nat.add_le_add_left (Nat.mul_le_mul_right _ h.le) _)
    unfold groupRows
    generalize (List.range p.totalIters).map (fun iter => g + iter * p.numGroups) = l at hpair
    induction l with
    | nil => rfl
    | cons a l ih =>
      obtain ⟨ha, hl⟩ := List.pairwise_cons.mp hpair
      by_cases hlt : a < p.numRows
      · rw [List.takeWhile_cons_of_pos (by simpa using hlt),
          List.filter_cons_of_pos (by simpa using hlt), ih hl]
      · rw [List.takeWhile_cons_of_neg (by simpa using hlt),
          List.filter_cons_of_neg (by simpa using hlt),
          List.filter_eq_nil_iff.mpr fun b hb => by simpa using (not_lt.mp hlt).trans (ha b hb)]
  rw [hfilter, List.mem_filter, List.mem_map, decide_eq_true_eq]
  constructor
  · rintro ⟨⟨iter, -, rfl⟩, hlt⟩
    exact ⟨hlt, by rw [Nat.add_mul_mod_self_right, Nat.mod_eq_of_lt hg]⟩
  · rintro ⟨hlt, rfl⟩
    refine ⟨⟨r / p.numGroups, List.mem_range.mpr ?_, Nat.mod_add_div' _ _⟩, hlt⟩
    unfold totalIters
    rw [Nat.lt_iff_add_one_le, Nat.le_div_iff_mul_le hpos, Nat.succ_mul]
    have := Nat.div_mul_le_self r p.numGroups
    omega

theorem nodup_groupRows (g : Nat) : (p.groupRows g).Nodup := by
  have hpos := numGroups_pos (p := p)
  refine (List.takeWhile_sublist _).nodup (List.Nodup.map ?_ List.nodup_range)
  exact fun i j h => Nat.eq_of_mul_eq_mul_right hpos (Nat.add_left_cancel h)

theorem mem_radixRows {g r : Nat} (hg : g < p.numGroups) :
    r ∈ p.radixRows g ↔ r < p.numRows ∧ ¬p.Short r ∧ r % p.numGroups = g := by
  unfold radixRows
  rw [List.mem_filter, mem_groupRows hg, decide_eq_true_eq]
  tauto

theorem nodup_radixRows (g : Nat) : (p.radixRows g).Nodup := (nodup_groupRows g).filter _

theorem radixRows_nil (h : p.maxSeqLen ≤ radixThreshold) (g : Nat) : p.radixRows g = [] :=
  List.filter_eq_nil_iff.mpr fun r _ => by simpa using short_of_maxSeqLen h r

theorem mem_pass1 {c r : Nat} (hc : c < p.totalCtas) :
    Task.short r ∈ p.pass1 c ↔ r < p.numRows ∧ p.Short r ∧ c = r % p.totalCtas := by
  unfold pass1
  simp only [List.mem_map, List.mem_filter, decide_eq_true_eq, mem_strided (totalCtas_pos (p := p)),
    Task.short.injEq, exists_eq_right, Nat.mod_eq_of_lt hc]
  constructor
  · rintro ⟨⟨-, hlt, hmod⟩, hshort⟩
    exact ⟨hlt, hshort, hmod.symm⟩
  · rintro ⟨hlt, hshort, rfl⟩
    exact ⟨⟨Nat.mod_le _ _, hlt, rfl⟩, hshort⟩

theorem radix_notMem_pass1 (c r : Nat) : Task.radix r ∉ p.pass1 c := fun h => by
  obtain ⟨_, -, h⟩ := List.mem_map.mp h
  cases h

theorem filterMap_map_radix (l : List Nat) : (l.map Task.radix).filterMap Task.radix? = l := by
  rw [List.filterMap_map]
  exact List.filterMap_some

theorem filterMap_pass1 (c : Nat) : (p.pass1 c).filterMap Task.radix? = [] := by
  unfold pass1
  rw [List.filterMap_map]
  exact List.filterMap_none _

end Rows

/-- **The rows of the kernel are a schedule.** -/
def rowspread : Schedule p where
  tasks := p.rowspreadTasks
  owner r := r % p.totalCtas
  short_mem {c r} h := by
    unfold rowspreadTasks at h
    split_ifs at h with hc hmax
    · cases h
    · exact (mem_pass1 (not_le.mp hc)).mp (by simpa using h) |>.imp id And.left
    · have hpass : Task.short r ∈ p.pass1 c := by simpa using h
      exact (mem_pass1 (not_le.mp hc)).mp hpass |>.imp id And.left
  owner_lt _ _ := Nat.mod_lt _ totalCtas_pos
  mem_iff {c r} hc hr hshort := by
    have hmem : Task.short r ∈ p.rowspreadTasks c ↔ Task.short r ∈ p.pass1 c := by
      unfold rowspreadTasks
      rw [if_neg (not_le.mpr hc)]
      split_ifs <;> simp
    rw [hmem, mem_pass1 hc]
    exact ⟨fun h => h.2.2, fun h => ⟨hr, hshort, h⟩⟩
  nodup c := by
    unfold rowspreadTasks
    have hpass : (p.pass1 c).Nodup :=
      ((nodup_strided totalCtas_pos).filter _).map fun _ _ h => Task.short.inj h
    split_ifs
    · exact List.nodup_nil
    · simpa using hpass
    · refine List.nodup_append'.mpr ⟨hpass, (nodup_radixRows _).map fun _ _ h =>
        Task.radix.inj h, ?_⟩
      intro t ht ht'
      obtain ⟨r, -, rfl⟩ := List.mem_map.mp ht'
      exact radix_notMem_pass1 c r ht
  radix {c} hc := by
    unfold rowspreadTasks
    rw [if_neg (not_le.mpr hc), List.filterMap_append, filterMap_pass1, List.nil_append]
    split_ifs with hmax
    · rw [radixRows_nil hmax]
      rfl
    · exact filterMap_map_radix _

end Params

end Ringside.TopkRowspread
