import Mathlib

/-!
# The routing extension of an NCCL listener handle (`routing_handle.h`)

A listener publishes up to four IPv4-mapped GIDs in two fields of its handle: a format word of four
bytes, which an old producer leaves zero, and four IPv4 addresses at the end, which an old producer
does not write. An encoder and a decoder translate between a list of GIDs and the two fields.

* Bytes are `UInt8` values and a GID a function of 16 indices, as `memcmp` and `memcpy` see them.
* A pointer argument is the buffer behind it, `none` for a null pointer. The encoder tests `count`
  before it reads `gids`; `count` is any integer.
* The decoder's answer is the buffer afterwards with what is returned: the number of GIDs, 0 for an
  old producer, a negative number for a word that no encoder writes.
* The socket address, the magic number, the stage and the two old GIDs of a handle are not modelled.

Results:
* `encode_ne_zero_iff`: the encoder succeeds on one to four mapped GIDs, and on nothing else.
* `decode_cases`: what the decoder returns, on any payload.
* `routing_codec`: the law between them.
-/

namespace Ringside.NcclRouting

/-- A GID, byte by byte. -/
abbrev Gid := Fin 16 → UInt8

/-- An IPv4 address in network order. -/
abbrev Ipv4 := Fin 4 → UInt8

/-- `mappedPrefix`. -/
def mappedPrefix : Fin 12 → UInt8 := ![0, 0, 0, 0, 0, 0, 0, 0, 0, 0, 0xff, 0xff]

/-- `memcmp(gid, mappedPrefix, 12) == 0`. -/
def IsMapped (gid : Gid) : Prop := ∀ b : Fin 12, gid (b.castLE (by decide)) = mappedPrefix b

instance decidableIsMapped (gid : Gid) : Decidable (IsMapped gid) :=
    inferInstanceAs (Decidable (∀ _, _))

/-- The last four bytes of a GID. -/
def ipv4 (gid : Gid) : Ipv4 := fun b => gid (b.natAdd 12)

/-- The fields `routingFormat` and `listenIpv4` of a handle. -/
structure Payload where
  format : Fin 4 → UInt8
  ips : Fin 4 → Ipv4

/-- The format word of a list of `count` GIDs: tag, version, family, count. -/
def header (count : UInt8) : Fin 4 → UInt8 := ![0x4e, 1, 4, count]

/-- `ncclIbRoutingEncodeIpv4`: the two fields, and what is returned. -/
def encodeIpv4 (gids : Nat → Gid) (count : Int) : Payload × Int :=
  if count < 1 ∨ 4 < count then (⟨0, 0⟩, 0)
  else if ∃ i < count.toNat, ¬ IsMapped (gids i) then (⟨0, 0⟩, 0)
  else (⟨header (.ofNat count.toNat), fun i => if i < count.toNat then ipv4 (gids i) else 0⟩, count)

/-- The GID of an address: zeros, two bytes `0xff`, then the address. -/
def mapped (ip : Ipv4) : Gid := fun b =>
  if h : 12 ≤ b.val then ip ⟨b - 12, by omega⟩ else if b = 10 ∨ b = 11 then 0xff else 0

-- the literals of an index of four share one named instance
local instance four_neZero : NeZero 4 := ⟨by decide⟩

/-- `ncclIbRoutingDecodeIpv4`: the buffer `gids` afterwards, and what is returned. -/
def decodeIpv4 (format : Fin 4 → UInt8) (ips : Option (Fin 4 → Ipv4))
    (gids : Option (Fin 4 → Gid)) :
    Option (Fin 4 → Gid) × Int :=
  if format 0 ||| format 1 ||| format 2 ||| format 3 = 0 then (gids, 0)
  else if format 0 ≠ 0x4e ∨ format 1 ≠ 1 ∨ format 2 ≠ 4 ∨ format 3 < 1 ∨ 4 < format 3 then
    (gids, -1)
  else match ips, gids with
    | some ips, some _ =>
      (some fun i => if i < (format 3).toNat then mapped (ips i) else 0, (format 3).toNat)
    | _, _ => (gids, -1)

/-! ## GIDs and addresses -/

@[simp]
theorem ipv4_mapped (ip : Ipv4) : ipv4 (mapped ip) = ip := by
  funext b
  fin_cases b <;> rfl

theorem isMapped_mapped (ip : Ipv4) : IsMapped (mapped ip) := by
  intro b
  fin_cases b <;> rfl

theorem mapped_ipv4 {gid : Gid} (h : IsMapped gid) : mapped (ipv4 gid) = gid := by
  funext b
  by_cases hb : 12 ≤ b.val
  · rw [mapped, dif_pos hb, ipv4]
    exact congrArg gid (Fin.ext (by simp; omega))
  · -- the first twelve bytes are those of the prefix
    have hlead : mapped (ipv4 gid) b = mappedPrefix ⟨b, by omega⟩ := by
      rw [← isMapped_mapped (ipv4 gid) ⟨b, by omega⟩]
      rfl
    rw [hlead, ← h ⟨b, by omega⟩]
    rfl

/-! ## The two functions -/

/-- What the encoder can tell of a list. -/
def Encodable (gids : Nat → Gid) (count : Int) : Prop := (1 ≤ count ∧ count ≤ 4) ∧
    ∀ i < count.toNat, IsMapped (gids i)

theorem encode_of_encodable {gids : Nat → Gid} {count : Int} (h : Encodable gids count) :
    encodeIpv4 gids count =
    (⟨header (.ofNat count.toNat), fun i => if i < count.toNat then ipv4 (gids i) else 0⟩,
      count) := by
  obtain ⟨⟨hone, hfour⟩, hmapped⟩ := h
  rw [encodeIpv4, if_neg (by omega), if_neg]
  push Not
  exact hmapped

theorem encode_of_not_encodable {gids : Nat → Gid} {count : Int} (h : ¬ Encodable gids count) :
    encodeIpv4 gids count = (⟨0, 0⟩, 0) := by
  unfold encodeIpv4
  by_cases hcount : count < 1 ∨ 4 < count
  · rw [if_pos hcount]
  · rw [if_neg hcount, if_pos]
    by_contra hmapped
    push Not at hmapped hcount
    exact h ⟨hcount, hmapped⟩

/-- **The encoder succeeds on one to four mapped GIDs, and on nothing else.** -/
theorem encode_ne_zero_iff {gids : Nat → Gid} {count : Int} : (encodeIpv4 gids count).2 ≠ 0 ↔
    Encodable gids count := by
  by_cases h : Encodable gids count
  · have hone := h.1.1
    simp only [encode_of_encodable h, h, iff_true]
    omega
  · simp [encode_of_not_encodable h, h]

/-- The decoder's first test: no producer wrote the word. -/
theorem or_eq_zero_iff {format : Fin 4 → UInt8} : format 0 ||| format 1 ||| format 2 ||| format 3 =
    0 ↔ format = 0 := by
  simp only [← UInt8.toNat_inj, UInt8.toNat_or, UInt8.toNat_zero, Nat.or_eq_zero_iff]
  constructor
  · rintro ⟨⟨⟨h₀, h₁⟩, h₂⟩, h₃⟩
    funext b
    fin_cases b <;> exact UInt8.toNat_inj.mp (by assumption)
  · rintro rfl
    simp

/-- The decoder's second test: the word of a list of one to four. -/
theorem header_test_iff {format : Fin 4 → UInt8} :
    ¬ (format 0 ≠ 0x4e ∨ format 1 ≠ 1 ∨ format 2 ≠ 4 ∨ format 3 < 1 ∨ 4 < format 3) ↔
      ∃ n : Nat, (1 ≤ n ∧ n ≤ 4) ∧ format = header (.ofNat n) := by
  constructor
  · intro h
    push Not at h
    obtain ⟨htag, hversion, hfamily, hone, hfour⟩ := h
    rw [UInt8.lt_iff_toNat_lt, not_lt] at hone hfour
    refine ⟨(format 3).toNat, ⟨hone, hfour⟩, ?_⟩
    funext b
    fin_cases b
    · exact htag
    · exact hversion
    · exact hfamily
    · exact UInt8.ofNat_toNat.symm
  · rintro ⟨n, ⟨hone, hfour⟩, rfl⟩
    interval_cases n <;> decide

@[simp]
theorem header_count {n : Nat} (h : n ≤ 4) : (header (.ofNat n) 3).toNat = n := by
  rw [header]
  simp
  omega

theorem header_ne_zero (count : UInt8) : header count ≠ 0 :=
    fun h => absurd (congrFun h 0) (by simp [header])

/-- **What the decoder returns**: nothing for the word of an old producer, whatever the addresses; a
failure for a word that no encoder writes; else the addresses' GIDs. -/
theorem decode_cases (format : Fin 4 → UInt8) (ips : Option (Fin 4 → Ipv4))
    (gids : Option (Fin 4 → Gid)) :
    format = 0 ∧ decodeIpv4 format ips gids = (gids, 0) ∨
      (format ≠ 0 ∧ ∀ n : Nat, 1 ≤ n → n ≤ 4 → format ≠ header (.ofNat n)) ∧
      decodeIpv4 format ips gids = (gids, -1) ∨
      ∃ n : Nat, (1 ≤ n ∧ n ≤ 4) ∧ format = header (.ofNat n) ∧
        ((ips = none ∨ gids = none) ∧ decodeIpv4 format ips gids = (gids, -1) ∨
          ∃ words buffer, ips = some words ∧ gids = some buffer ∧
            decodeIpv4 format ips gids = (some fun i : Fin 4 => if i < n then mapped (words i)
            else 0, (n : Int))) := by
  unfold decodeIpv4
  by_cases hzero : format = 0
  · exact Or.inl ⟨hzero, if_pos (or_eq_zero_iff.mpr hzero)⟩
  rw [if_neg (or_eq_zero_iff.not.mpr hzero)]
  by_cases hknown : ∃ n : Nat, (1 ≤ n ∧ n ≤ 4) ∧ format = header (.ofNat n)
  · obtain ⟨n, hn, hformat⟩ := hknown
    refine Or.inr (Or.inr ⟨n, hn, hformat, ?_⟩)
    rw [if_neg (header_test_iff.mpr ⟨n, hn, hformat⟩), hformat, header_count hn.2]
    match ips, gids with
    | none, _ => exact Or.inl ⟨Or.inl rfl, rfl⟩
    | some _, none => exact Or.inl ⟨Or.inr rfl, rfl⟩
    | some words, some buffer => exact Or.inr ⟨words, buffer, rfl, rfl, rfl⟩
  · rw [if_pos (not_not.mp (header_test_iff.not.mpr hknown))]
    exact Or.inr (Or.inl ⟨⟨hzero, fun n hone hfour h => hknown ⟨n, ⟨hone, hfour⟩, h⟩⟩, rfl⟩)

/-! ## The law -/

/-- An array of GIDs that starts with a list. -/
def rows (l : List Gid) : Nat → Gid := fun i => l.getD i 0

/-- The first `n` GIDs of a buffer. -/
def taken (buffer : Fin 4 → Gid) (n : Nat) : List Gid := (List.ofFn buffer).take n

theorem length_taken {buffer : Fin 4 → Gid} {n : Nat} (hn : n ≤ 4) :
    (taken buffer n).length = n := by
  simp [taken, hn]

theorem rows_taken {buffer : Fin 4 → Gid} {n : Nat} {i : Fin 4} (hi : i < n) :
    rows (taken buffer n) i = buffer i := by
  rw [rows, List.getD_eq_getElem _ _ (by simp [taken, hi])]
  simp only [taken, List.getElem_take, List.getElem_ofFn]

theorem taken_eq {buffer : Fin 4 → Gid} {l : List Gid} (hl : l.length ≤ 4)
    (h : ∀ i : Fin 4, (hi : i < l.length) → buffer i = l[i]) : taken buffer l.length = l := by
  refine List.ext_getElem (length_taken hl) fun i hi hi' => ?_
  simp only [taken, List.getElem_take, List.getElem_ofFn]
  exact h ⟨i, by omega⟩ hi'

theorem encodable_rows {l : List Gid} :
    Encodable (rows l) l.length ↔ (1 ≤ l.length ∧ l.length ≤ 4) ∧ ∀ gid ∈ l, IsMapped gid := by
  unfold Encodable rows
  rw [Int.toNat_natCast]
  refine and_congr (by omega) ⟨fun h gid hgid => ?_, fun h i hi => ?_⟩
  · obtain ⟨i, hi, rfl⟩ := List.getElem_of_mem hgid
    rw [← List.getD_eq_getElem _ 0 hi]
    exact h i hi
  · rw [List.getD_eq_getElem _ 0 hi]
    exact h _ (List.getElem_mem hi)

/-- **The handle codec.** Encoding succeeds on one to four mapped GIDs and nothing else, and
decoding gives the same list back. A payload is not used, refused, or decoded to a list whose
encoding is the header and the words that were read. -/
theorem routing_codec :
    (∀ l : List Gid,
      ((encodeIpv4 (rows l) l.length).2 ≠ 0 ↔ (1 ≤ l.length ∧ l.length ≤ 4) ∧ ∀ gid ∈ l,
      IsMapped gid) ∧
      ((encodeIpv4 (rows l) l.length).2 ≠ 0 → (encodeIpv4 (rows l) l.length).2 = l.length ∧
        ∀ buffer, ∃ out, decodeIpv4 (encodeIpv4 (rows l) l.length).1.format
          (some (encodeIpv4 (rows l) l.length).1.ips)
          (some buffer) = (some out, (l.length : Int)) ∧ taken out l.length = l)) ∧
      ∀ format ips gids,
        (format = 0 ∧ (decodeIpv4 format ips gids).2 = 0 ∧ ∀ ips',
        decodeIpv4 format ips' gids = (gids, 0)) ∨
        ((decodeIpv4 format ips gids).2 = -1 ∧
          (format ≠ 0 ∧ (∀ n : Nat, 1 ≤ n → n ≤ 4 → format ≠ header (.ofNat n)) ∨ ips = none ∨
          gids = none)) ∨
        ∃ (n : Nat) (words : Fin 4 → Ipv4) (out : Fin 4 → Gid), (1 ≤ n ∧ n ≤ 4) ∧
          format = header (.ofNat n) ∧
          ips = some words ∧ decodeIpv4 format ips gids = (some out, (n : Int)) ∧
          (taken out n).length = n ∧
            encodeIpv4 (rows (taken out n)) n = (⟨format, fun i => if i < n then words i else 0⟩,
            (n : Int)) := by
  refine ⟨fun l => ⟨encode_ne_zero_iff.trans encodable_rows, fun h => ?_⟩,
    fun format ips gids => ?_⟩
  · -- a list comes back
    have hl := encode_ne_zero_iff.mp h
    have hlen := (encodable_rows.mp hl).1
    rw [encode_of_encodable hl, Int.toNat_natCast]
    refine ⟨rfl, fun buffer => ?_⟩
    obtain ⟨hzero, -⟩ | ⟨⟨-, hunknown⟩, -⟩ | ⟨n, hn, hheader, hpair⟩ :=
      decode_cases (header (.ofNat l.length))
      (some fun i => if i < l.length then ipv4 (rows l i) else 0) (some buffer)
    · exact absurd hzero (header_ne_zero _)
    · exact absurd rfl (hunknown l.length hlen.1 hlen.2)
    · have hcount : l.length = n := by rw [← header_count hlen.2, hheader, header_count hn.2]
      subst hcount
      obtain ⟨hnull, -⟩ | ⟨words, buffer', hwords, -, hdecode⟩ := hpair
      · simp at hnull
      · obtain rfl := Option.some.inj hwords
        refine ⟨_, hdecode, taken_eq hlen.2 fun i hi => ?_⟩
        rw [if_pos hi]
        beta_reduce
        rw [if_pos hi, rows, List.getD_eq_getElem _ _ hi]
        exact mapped_ipv4 ((encodable_rows.mp hl).2 _ (List.getElem_mem hi))
  · obtain ⟨rfl, hdecode⟩ | ⟨hunknown, hdecode⟩ | ⟨n, hn, rfl, hpair⟩ :=
      decode_cases format ips gids
    · refine Or.inl ⟨rfl, by rw [hdecode], fun ips' => ?_⟩
      exact if_pos (or_eq_zero_iff.mpr rfl)
    · exact Or.inr (Or.inl ⟨by rw [hdecode], Or.inl hunknown⟩)
    obtain ⟨hnull, hdecode⟩ | ⟨words, buffer, rfl, rfl, hdecode⟩ := hpair
    · exact Or.inr (Or.inl ⟨by rw [hdecode], Or.inr hnull⟩)
    · refine Or.inr (Or.inr ⟨n, words, _, hn, rfl, rfl, hdecode, length_taken hn.2, ?_⟩)
      have hrows : ∀ i : Fin 4, i < n → rows (taken (fun i : Fin 4 => if i < n then mapped (words i)
        else 0) n) i = mapped (words i) :=
        fun i hi => by rw [rows_taken hi, if_pos hi]
      rw [encode_of_encodable]
      · simp only [Int.toNat_natCast]
        congr 2
        funext i
        split_ifs with hi
        · rw [hrows i hi, ipv4_mapped]
        · rfl
      · refine ⟨by omega, fun i hi => ?_⟩
        rw [Int.toNat_natCast] at hi
        rw [show i = ((⟨i, by omega⟩ : Fin 4) : Nat) from rfl, hrows _ hi]
        exact isMapped_mapped _

end Ringside.NcclRouting
