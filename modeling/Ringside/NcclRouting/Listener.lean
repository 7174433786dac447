import Ringside.Checks
import Ringside.NcclRouting.Handle

/-!
# What a TP4 listener may publish (`tp4_listener_contract.h`)

Every rank has two cables, and in dual mode each cable ends at two functions below different PCI
roots. The validator walks the GIDs once, numbers the cable subnets and the roots as it meets them,
and marks the pairs.

* A PCI root is `char[11]`; `strcmp` sees it up to the first zero (`cstr`). It must not be empty,
  and its last byte must be zero.
* A GID tells its cable by one byte of its address (`cable`); `Qualified` are the hosts of the
  fabric.
* `Seen` are the four tables of the walk: `subnets`, `perSubnet`, `domains` and `pairs`.
  `validateOne` is the loop's body, with an error for each message in the source's order.
* `count` and the arrays are any; the null pointer is refused without a message.

Results:
* `Seen.Inv`: what the walk has numbered, counted and marked.
* `walk_inv`: it holds after every GID.
* `Seen.Inv.cross`: what was walked is a cross product when every pair is marked.
* `validateListener_ok_iff`: a publication is accepted exactly when it is the cross product of two
  cables and two roots, or of two cables alone.

Out of scope: the pairing of the published GIDs with a peer's, which is in NCCL.
-/

namespace Ringside.NcclRouting

/-- `char root[11]`. -/
abbrev Root := Fin 11 → UInt8

/-- What `strcmp` compares. -/
def cstr (root : Root) : List UInt8 := (List.ofFn root).takeWhile (· ≠ 0)

-- the literals of a byte of a GID share one named instance
local instance sixteen_neZero : NeZero 16 := ⟨by decide⟩

/-- The qualified fabric host range. -/
def Qualified (gid : Gid) : Prop :=
  gid 12 = 10 ∧ gid 13 = 100 ∧ 224 ≤ gid 14 ∧ gid 14 ≤ 227 ∧ gid 15 ≠ 0 ∧ gid 15 ≠ 255

instance (gid : Gid) : Decidable (Qualified gid) := inferInstanceAs (Decidable (_ ∧ _))

/-- A root that is there and ends at its last byte. -/
def ValidRoot (root : Root) : Prop := root 0 ≠ 0 ∧ root 10 = 0

instance (root : Root) : Decidable (ValidRoot root) := inferInstanceAs (Decidable (_ ∧ _))

/-- The number of a value among those met, or how many were met. -/
def number {α : Type} [DecidableEq α] (l : List α) (x : α) : Nat := l.idxOf x

/-- The list of values met, with one more. -/
def enter {α : Type} [DecidableEq α] (l : List α) (x : α) : List α := if number l x = l.length then
    l ++ [x] else l

/-- `subnets`, `perSubnet`, `domains` and `pairs`. -/
structure Seen where
  subnets : List UInt8
  perSubnet : Nat → Nat
  domains : List (List UInt8)
  pairs : Nat → Nat → Bool

section Validate

variable (gids : Nat → Gid) (roots : Nat → Root) (dual : Bool)

/-- `gids[i][14]`, which tells the cable. -/
def cable (i : Nat) : UInt8 := gids i 14

def rootName (i : Nat) : List UInt8 := cstr (roots i)

/-- The walk's step of a cable. -/
def Seen.addCable (s : Seen) (x : UInt8) : Seen :=
  let subnet := number s.subnets x
  { s with
    subnets := enter s.subnets x,
    perSubnet := Function.update s.perSubnet subnet (s.perSubnet subnet + 1) }

/-- The walk's step of a root, for cable number `subnet`. -/
def Seen.addRoot (s : Seen) (subnet : Nat) (y : List UInt8) : Seen :=
  let domain := number s.domains y
  { s with
    domains := enter s.domains y
    pairs := Function.update s.pairs subnet (Function.update (s.pairs subnet) domain true) }

/-- The body of the loop. -/
def validateOne (i : Nat) (s : Seen) : Except String Seen :=
  if ¬IsMapped (gids i) then throw "not IPv4 mapped"
  else if ¬Qualified (gids i) then throw "outside qualified fabric host range"
  else if ∃ j < i, gids i = gids j then throw "duplicate GID"
  else if number s.subnets (cable gids i) = s.subnets.length ∧ s.subnets.length = 2 then
    throw "more than two cable subnets"
  else if dual then
    if ¬ValidRoot (roots i) then throw "invalid PCI root"
    else if number s.domains (rootName roots i) = s.domains.length ∧ s.domains.length = 2 then
      throw "more than two PCI roots"
    else if s.pairs (number s.subnets (cable gids i)) (number s.domains (rootName roots i)) = true
    then
      throw "duplicate subnet and PCI-root pair"
    else
      pure ((s.addCable (cable gids i)).addRoot (number s.subnets (cable gids i))
        (rootName roots i))
  else pure (s.addCable (cable gids i))

/-- The loop, over the first `n` GIDs. -/
def walk : Nat → Except String Seen
  | 0 => pure ⟨[], fun _ => 0, [], fun _ _ => false⟩
  | n + 1 => walk n >>= validateOne gids roots dual n

/-- How many GIDs a cable has in an accepted publication. -/
def share : Nat := if dual then 2 else 1

/-- `tp4ValidateListener`: an error for each message, and none for the null pointer. -/
def validateListener (count : Int) : Except String Unit :=
  if count ≠ (2 * share dual : Nat) then throw "wrong listener count"
  else
    walk gids roots dual (2 * share dual) >>= fun s =>
      if s.subnets.length ≠ 2 ∨ s.perSubnet 0 ≠ share dual ∨ s.perSubnet 1 ≠ share dual then
        throw "unbalanced cable listener publication"
      else if dual = true ∧
          (s.domains.length ≠ 2 ∨ ¬(s.pairs 0 0 ∧ s.pairs 0 1 ∧ s.pairs 1 0 ∧ s.pairs 1 1)) then
        throw "incomplete cable and PCI-root cross product"
      else pure ()

end Validate

/-! ## Numbering -/

section Enter

variable {α : Type} [DecidableEq α] {l : List α} {x y : α} {t : Nat}

theorem number_lt (h : x ∈ l) : number l x < l.length := List.idxOf_lt_length_iff.mpr h

theorem number_of_not_mem (h : x ∉ l) : number l x = l.length := List.idxOf_eq_length h

theorem getElem_number (h : number l x < l.length) : l[number l x] = x := List.getElem_idxOf h

theorem enter_of_mem (h : x ∈ l) : enter l x = l := if_neg (number_lt h).ne

theorem enter_of_not_mem (h : x ∉ l) : enter l x = l ++ [x] := if_pos (number_of_not_mem h)

theorem mem_enter : y ∈ enter l x ↔ y ∈ l ∨ y = x := by
  by_cases h : x ∈ l
  · rw [enter_of_mem h]
    exact ⟨Or.inl, fun hy => hy.elim id fun heq => heq ▸ h⟩
  · rw [enter_of_not_mem h, List.mem_append, List.mem_singleton]

theorem nodup_enter (h : l.Nodup) (x : α) : (enter l x).Nodup := by
  by_cases hx : x ∈ l
  · rwa [enter_of_mem hx]
  · rw [enter_of_not_mem hx]
    exact List.nodup_append'.mpr ⟨h, List.nodup_singleton x, fun y hy heq =>
      hx (List.mem_singleton.mp heq ▸ hy)⟩

/-- What was met keeps its number. -/
theorem enter_getElem?_of_mem (h : y ∈ l) : (enter l x)[t]? = some y ↔ l[t]? = some y := by
  by_cases hx : x ∈ l
  · rw [enter_of_mem hx]
  rw [enter_of_not_mem hx, List.getElem?_append]
  split_ifs with ht
  · exact Iff.rfl
  · rw [List.getElem?_eq_none (not_lt.mp ht)]
    refine ⟨fun hsome => ?_, fun hnone => by cases hnone⟩
    have hy := List.mem_of_getElem? hsome
    exact absurd (List.mem_singleton.mp hy ▸ h) hx

/-- What is met has its number. -/
theorem enter_getElem?_self (hl : l.Nodup) : (enter l x)[t]? = some x ↔ t = number l x := by
  by_cases hx : x ∈ l
  · rw [enter_of_mem hx]
    have hlt := number_lt hx
    constructor
    · intro hsome
      obtain ⟨ht, heq⟩ := List.getElem?_eq_some_iff.mp hsome
      exact hl.getElem_inj_iff.mp (heq.trans (getElem_number hlt).symm)
    · rintro rfl
      rw [List.getElem?_eq_getElem hlt, getElem_number]
  · rw [enter_of_not_mem hx, number_of_not_mem hx, List.getElem?_append]
    split_ifs with ht
    · exact ⟨fun hsome => absurd (List.mem_of_getElem? hsome) hx, fun heq => absurd heq ht.ne⟩
    · rw [List.getElem?_singleton]
      split_ifs with h0
      · simp
        omega
      · have hne : t ≠ l.length := by omega
        exact ⟨(fun hsome => by cases hsome), fun heq => absurd heq hne⟩

end Enter

/-- A list of different values of two has at most two. -/
theorem length_le_two {α : Type} {l : List α} {a b : α} (hl : l.Nodup)
    (h : ∀ z ∈ l, z = a ∨ z = b) : l.length ≤ 2 :=
  (hl.subperm fun z hz => (h z hz).elim (fun heq => heq ▸ List.mem_cons_self)
    fun heq => heq ▸ List.mem_cons_of_mem _ List.mem_cons_self : l.Subperm [a, b]).length_le

/-! ## The walk -/

section Walk

open Checks

variable {gids : Nat → Gid} {roots : Nat → Root} {dual : Bool} {n : Nat} {s s' : Seen}

/-- What one turn has checked, and what it leaves. -/
theorem validateOne_ok : validateOne gids roots dual n s = .ok s' ↔
    IsMapped (gids n) ∧ Qualified (gids n) ∧ (¬∃ j < n, gids n = gids j) ∧
    ¬(number s.subnets (cable gids n) = s.subnets.length ∧ s.subnets.length = 2) ∧
    if dual then
      ValidRoot (roots n) ∧ ¬(number s.domains (rootName roots n) = s.domains.length ∧
        s.domains.length = 2) ∧
      ¬s.pairs (number s.subnets (cable gids n)) (number s.domains (rootName roots n)) = true ∧
      (s.addCable (cable gids n)).addRoot (number s.subnets (cable gids n)) (rootName roots n) = s'
    else s.addCable (cable gids n) = s' := by
  unfold validateOne
  rw [checked_ok, checked_ok, checked_ok, checked_ok, not_not, not_not]
  cases dual with
  | false => simp only [Bool.false_eq_true, if_false, pure_ok]
  | true => simp only [if_true, checked_ok, pure_ok, not_not]

/-- **What the walk knows** after `n` GIDs. -/
structure Seen.Inv (gids : Nat → Gid) (roots : Nat → Root) (dual : Bool) (n : Nat)
    (s : Seen) : Prop where
  fabric : ∀ i < n, IsMapped (gids i) ∧ Qualified (gids i)
  distinct : ∀ i < n, ∀ j < i, gids i ≠ gids j
  subnets_nodup : s.subnets.Nodup
  mem_subnets : ∀ x, x ∈ s.subnets ↔ ∃ j < n, cable gids j = x
  counted : ∀ t, s.perSubnet t = Nat.count (fun j => s.subnets[t]? = some (cable gids j)) n
  valid : dual = true → ∀ i < n, ValidRoot (roots i)
  domains_nodup : s.domains.Nodup
  mem_domains : dual = true → ∀ y, y ∈ s.domains ↔ ∃ j < n, rootName roots j = y
  marked : dual = true → ∀ t d, s.pairs t d = true ↔
    ∃ j < n, s.subnets[t]? = some (cable gids j) ∧ s.domains[d]? = some (rootName roots j)

theorem exists_lt_succ {P : Nat → Prop} : (∃ j < n + 1, P j) ↔ (∃ j < n, P j) ∨ P n := by
  constructor
  · rintro ⟨j, hj, h⟩
    rcases Nat.lt_succ_iff_lt_or_eq.mp hj with hlt | rfl
    · exact Or.inl ⟨j, hlt, h⟩
    · exact Or.inr h
  · rintro (⟨j, hj, h⟩ | h)
    · exact ⟨j, Nat.lt_succ_of_lt hj, h⟩
    · exact ⟨n, Nat.lt_succ_self n, h⟩

theorem forall_lt_succ {P : Nat → Prop} (h : ∀ j < n, P j) (hn : P n) : ∀ j < n + 1,
    P j := fun j hj =>
  (Nat.lt_succ_iff_lt_or_eq.mp hj).elim (h j) fun heq => heq ▸ hn

/-- A cable more. -/
theorem Seen.Inv.mem_enter_cable (h : s.Inv gids roots dual n) (x : UInt8) :
    x ∈ enter s.subnets (cable gids n) ↔ ∃ j < n + 1, cable gids j = x := by
  rw [mem_enter, h.mem_subnets, exists_lt_succ]
  exact or_congr_right eq_comm

theorem Seen.Inv.counted_enter (h : s.Inv gids roots dual n) (t : Nat) :
    (s.addCable (cable gids n)).perSubnet t =
      Nat.count (fun j => (enter s.subnets (cable gids n))[t]? = some (cable gids j)) (n + 1) := by
  have hold : Nat.count (fun j => (enter s.subnets (cable gids n))[t]? = some (cable gids j)) n =
      Nat.count (fun j => s.subnets[t]? = some (cable gids j)) n := by
    rw [Nat.count_eq_card_filter_range, Nat.count_eq_card_filter_range]
    exact congrArg _ (Finset.filter_congr fun j hj =>
      enter_getElem?_of_mem ((h.mem_subnets _).mpr ⟨j, Finset.mem_range.mp hj, rfl⟩))
  rw [Nat.count_succ, hold, ← h.counted]
  unfold Seen.addCable
  dsimp only
  by_cases ht : t = number s.subnets (cable gids n)
  · rw [if_pos ((enter_getElem?_self h.subnets_nodup).mpr ht), ht, Function.update_self]
  · rw [if_neg fun hsome => ht ((enter_getElem?_self h.subnets_nodup).mp hsome),
      Function.update_of_ne ht, Nat.add_zero]

/-- **The step.** -/
theorem Seen.Inv.step (h : s.Inv gids roots dual n)
    (hstep : validateOne gids roots dual n s = .ok s') :
    s'.Inv gids roots dual (n + 1) := by
  obtain ⟨hmapped, hqualified, hfresh, -, hrest⟩ := validateOne_ok.mp hstep
  have hfabric := forall_lt_succ h.fabric ⟨hmapped, hqualified⟩
  have hdistinct := forall_lt_succ h.distinct fun j hj heq => hfresh ⟨j, hj, heq⟩
  cases dual with
  | false =>
    obtain rfl : s.addCable (cable gids n) = s' := hrest
    exact ⟨hfabric, hdistinct, nodup_enter h.subnets_nodup _, h.mem_enter_cable, h.counted_enter,
      nofun, h.domains_nodup, nofun, nofun⟩
  | true =>
    obtain ⟨hvalid, -, -, rfl⟩ := hrest
    refine ⟨hfabric, hdistinct, nodup_enter h.subnets_nodup _, h.mem_enter_cable, h.counted_enter,
      fun _ => forall_lt_succ (h.valid rfl) hvalid, nodup_enter h.domains_nodup _, fun _ y =>
      ?_, fun _ t d => ?_⟩
    · show y ∈ enter s.domains (rootName roots n) ↔ _
      rw [mem_enter, h.mem_domains rfl, exists_lt_succ]
      exact or_congr_right eq_comm
    · show Function.update s.pairs (number s.subnets (cable gids n)) (Function.update
          (s.pairs (number s.subnets (cable gids n))) (number s.domains (rootName roots n))
            true) t d = true ↔
        ∃ j < n + 1, (enter s.subnets (cable gids n))[t]? = some (cable gids j) ∧
          (enter s.domains (rootName roots n))[d]? = some (rootName roots j)
      have hold : (∃ j < n, (enter s.subnets (cable gids n))[t]? = some (cable gids j) ∧
          (enter s.domains (rootName roots n))[d]? = some (rootName roots j)) ↔
          s.pairs t d = true := by
        rw [h.marked rfl]
        refine exists_congr fun j => and_congr_right fun hj => ?_
        rw [enter_getElem?_of_mem ((h.mem_subnets _).mpr ⟨j, hj, rfl⟩),
          enter_getElem?_of_mem ((h.mem_domains rfl _).mpr ⟨j, hj, rfl⟩)]
      rw [exists_lt_succ, hold, enter_getElem?_self h.subnets_nodup,
        enter_getElem?_self h.domains_nodup]
      by_cases ht : t = number s.subnets (cable gids n)
      · subst ht
        rw [Function.update_self]
        by_cases hd : d = number s.domains (rootName roots n)
        · subst hd
          rw [Function.update_self]
          simp
        · rw [Function.update_of_ne hd]
          simp [hd]
      · rw [Function.update_of_ne ht]
        simp [ht]

/-- **The run.** -/
theorem walk_inv : ∀ {n : Nat} {s : Seen}, walk gids roots dual n = .ok s → s.Inv gids roots dual n
  | 0, s, h => by
    obtain rfl := pure_ok.mp h
    exact ⟨nofun, nofun, List.nodup_nil, by simp, by simp, nofun, List.nodup_nil, by simp, by simp⟩
  | n + 1, s, h => by
    obtain ⟨s₀, hs₀, hstep⟩ := bind_ok.mp h
    exact (walk_inv hs₀).step hstep

end Walk

/-! ## The contract -/

/-- **What may be published**: different hosts of the fabric, on two cables, and in dual mode once
for each cable and each of two PCI roots. -/
structure Published (gids : Nat → Gid) (roots : Nat → Root) (dual : Bool) : Prop where
  fabric : ∀ i < 2 * share dual, IsMapped (gids i) ∧ Qualified (gids i)
  distinct : ∀ i < 2 * share dual, ∀ j < i, gids i ≠ gids j
  cables : dual = false → cable gids 0 ≠ cable gids 1
  cross : dual = true → (∀ i < 4, ValidRoot (roots i)) ∧ ∃ a b p q, a ≠ b ∧ p ≠ q ∧ ∃ e :
    Fin 4 ≃ Bool × Bool, ∀ i : Fin 4,
    cable gids i = (if (e i).1 then a else b) ∧ rootName roots i = if (e i).2 then p else q

section Cross

variable {gids : Nat → Gid} {roots : Nat → Root} {a b : UInt8} {p q : List UInt8}
    {e : Fin 4 ≃ Bool × Bool}

theorem cross_two (he : ∀ i : Fin 4, cable gids i = (if (e i).1 then a else b) ∧
    rootName roots i = if (e i).2 then p else q)
    {i : Nat} (hi : i < 4) : (cable gids i = a ∨ cable gids i = b) ∧
      (rootName roots i = p ∨ rootName roots i = q) := by
  obtain ⟨hcable, hroot⟩ := he ⟨i, hi⟩
  refine ⟨?_, ?_⟩
  · split_ifs at hcable
    · exact Or.inl hcable
    · exact Or.inr hcable
  · split_ifs at hroot
    · exact Or.inl hroot
    · exact Or.inr hroot

theorem cross_inj (hab : a ≠ b) (hpq : p ≠ q)
    (he : ∀ i : Fin 4, cable gids i = (if (e i).1 then a else b) ∧
      rootName roots i = if (e i).2 then p else q)
    {i j : Nat} (hi : i < 4) (hj : j < 4) (hcable : cable gids i = cable gids j)
      (hroot : rootName roots i = rootName roots j) :
    i = j := by
  have h := he ⟨i, hi⟩
  have h' := he ⟨j, hj⟩
  rw [hcable, h'.1, hroot, h'.2] at h
  have heq : e ⟨j, hj⟩ = e ⟨i, hi⟩ := Prod.ext
    (by cases hx : (e ⟨j, hj⟩).1 <;> cases hy : (e ⟨i, hi⟩).1 <;> simp_all)
    (by cases hx : (e ⟨j, hj⟩).2 <;> cases hy : (e ⟨i, hi⟩).2 <;> simp_all)
  exact (Fin.mk.inj_iff.mp (e.injective heq)).symm

theorem cross_exists
    (he : ∀ i : Fin 4, cable gids i = (if (e i).1 then a else b) ∧
      rootName roots i = if (e i).2 then p else q)
    {x : UInt8} {y : List UInt8} (hx : x = a ∨ x = b) (hy : y = p ∨ y = q) :
    ∃ j < 4, cable gids j = x ∧ rootName roots j = y := by
  have hat : ∀ u v : Bool, ∃ j < 4, cable gids j = (if u then a else b) ∧
    rootName roots j = if v then p else q := fun u v =>
    ⟨e.symm (u, v), (e.symm (u, v)).isLt, by
      have h := he (e.symm (u, v))
      rwa [Equiv.apply_symm_apply] at h⟩
  rcases hx with rfl | rfl <;> rcases hy with rfl | rfl
  · exact hat true true
  · exact hat true false
  · exact hat false true
  · exact hat false false

/-- Each cable has two. -/
theorem cross_count (hab : a ≠ b) (hpq : p ≠ q)
    (he : ∀ i : Fin 4, cable gids i = (if (e i).1 then a else b) ∧
      rootName roots i = if (e i).2 then p else q)
    {x : UInt8} (hx : x = a ∨ x = b) : Nat.count (fun j => some x = some (cable gids j)) 4 = 2 := by
  obtain ⟨j, hj, hcable, hroot⟩ := cross_exists he hx (Or.inl rfl)
  obtain ⟨k, hk, hcable', hroot'⟩ := cross_exists he hx (Or.inr rfl)
  have hne : j ≠ k := fun heq => hpq (by rw [← hroot, ← hroot', heq])
  have hfilter : (Finset.range 4).filter (fun i => some x = some (cable gids i)) = {j, k} := by
    ext i
    rw [Finset.mem_filter, Finset.mem_range, Finset.mem_insert, Finset.mem_singleton,
      Option.some_inj]
    constructor
    · rintro ⟨hi, hx⟩
      rcases (cross_two he hi).2 with hp | hq
      · exact Or.inl (cross_inj hab hpq he hi hj (hx.symm.trans hcable.symm) (hp.trans hroot.symm))
      · exact Or.inr (cross_inj hab hpq he hi hk (hx.symm.trans hcable'.symm)
          (hq.trans hroot'.symm))
    · rintro (rfl | rfl)
      · exact ⟨hj, hcable.symm⟩
      · exact ⟨hk, hcable'.symm⟩
  rw [Nat.count_eq_card_filter_range, hfilter, Finset.card_pair hne]

end Cross

section Accepted

open Checks

variable {gids : Nat → Gid} {roots : Nat → Root} {dual : Bool} {n : Nat} {s s' : Seen}

/-- The two cables of a publication. -/
theorem Published.two_cables (h : Published gids roots dual) : ∃ a b, a ≠ b ∧
    (∀ i < 2 * share dual, cable gids i = a ∨ cable gids i = b) ∧
    ∀ x, x = a ∨ x = b → (∃ j < 2 * share dual, cable gids j = x) ∧
      Nat.count (fun j => some x = some (cable gids j)) (2 * share dual) = share dual := by
  cases dual with
  | false =>
    have hne := h.cables rfl
    refine ⟨cable gids 0, cable gids 1, hne, fun i hi => ?_, ?_⟩
    · have hi : i < 2 := hi
      interval_cases i
      · exact Or.inl rfl
      · exact Or.inr rfl
    · rintro x (rfl | rfl)
      · exact ⟨⟨0, by decide, rfl⟩, by simp [share, Nat.count_succ, hne]⟩
      · exact ⟨⟨1, by decide, rfl⟩, by simp [share, Nat.count_succ, hne.symm]⟩
  | true =>
    obtain ⟨-, a, b, p, q, hab, hpq, e, he⟩ := h.cross rfl
    refine ⟨a, b, hab, fun i hi => (cross_two he hi).1, fun x hx => ⟨?_, cross_count hab hpq he hx⟩⟩
    obtain ⟨j, hj, hcable, -⟩ := cross_exists he hx (Or.inl rfl)
    exact ⟨j, hj, hcable⟩

/-- Two values at most are never too many. -/
theorem not_full {α : Type} [DecidableEq α] {l : List α} {x a b : α} (hl : l.Nodup)
    (h : ∀ z ∈ enter l x, z = a ∨ z = b) :
    ¬(number l x = l.length ∧ l.length = 2) := by
  rintro ⟨hnew, hlen⟩
  have hle := length_le_two (nodup_enter hl x) h
  unfold enter at hle
  rw [if_pos hnew, List.length_append, hlen] at hle
  exact absurd hle (by simp)

/-- A value found at its own number. -/
theorem getElem?_number_inj {α : Type} [DecidableEq α] {l : List α} {x y : α}
    (h : l[number l x]? = some y) : x = y := by
  obtain ⟨hlt, heq⟩ := List.getElem?_eq_some_iff.mp h
  exact (getElem_number hlt).symm.trans heq

/-- No turn stops at what may be published. -/
theorem Published.turn (h : Published gids roots dual) (hn : n < 2 * share dual)
    (hinv : s.Inv gids roots dual n) :
    ∃ s', validateOne gids roots dual n s = .ok s' := by
  obtain ⟨a, b, -, htwo, -⟩ := h.two_cables
  have hfresh : ¬∃ j < n, gids n = gids j := fun ⟨j, hj, heq⟩ => h.distinct n hn j hj heq
  have hroom := not_full hinv.subnets_nodup fun z hz => by
    obtain ⟨j, hj, rfl⟩ := (hinv.mem_enter_cable z).mp hz
    exact htwo j (by omega)
  cases dual with
  | false =>
    exact ⟨_, validateOne_ok.mpr ⟨(h.fabric n hn).1, (h.fabric n hn).2, hfresh, hroom, rfl⟩⟩
  | true =>
    obtain ⟨hvalid, a, b, p, q, hab, hpq, e, he⟩ := h.cross rfl
    have hn : n < 4 := hn
    have hroom' : ¬(number s.domains (rootName roots n) = s.domains.length ∧
      s.domains.length = 2) :=
      not_full hinv.domains_nodup (a := p) (b := q) fun z hz => by
        rcases mem_enter.mp hz with hz | rfl
        · obtain ⟨j, hj, rfl⟩ := (hinv.mem_domains rfl z).mp hz
          exact (cross_two he (by omega)).2
        · exact (cross_two he hn).2
    have hunmarked : ¬s.pairs (number s.subnets (cable gids n))
      (number s.domains (rootName roots n)) = true := fun hpair => by
      obtain ⟨j, hj, hcable, hroot⟩ := (hinv.marked rfl _ _).mp hpair
      have := cross_inj hab hpq he hn (by omega) (getElem?_number_inj hcable)
        (getElem?_number_inj hroot)
      omega
    exact ⟨_, validateOne_ok.mpr ⟨(h.fabric n hn).1, (h.fabric n hn).2, hfresh, hroom, hvalid n hn,
      hroom', hunmarked, rfl⟩⟩

theorem Published.walk_ok (h : Published gids roots dual) : ∀ n ≤ 2 * share dual, ∃ s,
    walk gids roots dual n = .ok s
  | 0, _ => ⟨_, rfl⟩
  | n + 1, hn => by
    obtain ⟨s, hs⟩ := h.walk_ok n (Nat.le_of_succ_le hn)
    obtain ⟨s', hs'⟩ := h.turn hn (walk_inv hs)
    exact ⟨s', bind_ok.mpr ⟨s, hs, hs'⟩⟩

/-- A list of exactly two values has two. -/
theorem length_eq_two {α : Type} {l : List α} {a b : α} (hl : l.Nodup) (hab : a ≠ b)
    (h : ∀ z, z ∈ l ↔ z = a ∨ z = b) :
    l.length = 2 := by
  classical
  refine le_antisymm (length_le_two hl fun z hz => (h z).mp hz) ?_
  have hpair : [a, b].Nodup := by simpa using hab
  exact (hpair.subperm fun z hz => (h z).mpr (by simpa using hz)).length_le

/-- **What was walked is a cross product** when every pair is marked. -/
theorem Seen.Inv.cross (h : s.Inv gids roots true 4) (hsubnets : s.subnets.length = 2)
    (hdomains : s.domains.length = 2)
    (hpairs : s.pairs 0 0 = true ∧ s.pairs 0 1 = true ∧ s.pairs 1 0 = true ∧ s.pairs 1 1 = true) :
    ∃ a b p q, a ≠ b ∧ p ≠ q ∧ ∃ e : Fin 4 ≃ Bool × Bool, ∀ i : Fin 4,
      cable gids i = (if (e i).1 then a else b) ∧ rootName roots i = if (e i).2 then p else q := by
  obtain ⟨a, b, hab⟩ := List.length_eq_two.mp hsubnets
  obtain ⟨p, q, hpq⟩ := List.length_eq_two.mp hdomains
  have hne : a ≠ b := by simpa [hab] using h.subnets_nodup
  have hne' : p ≠ q := by simpa [hpq] using h.domains_nodup
  have hpair : ∀ {t d}, s.pairs t d = true → ∃ j : Fin 4, [a, b][t]? = some (cable gids j) ∧
    [p, q][d]? = some (rootName roots j) := by
    intro t d ht
    obtain ⟨j, hj, hcable, hroot⟩ := (h.marked rfl t d).mp ht
    rw [hab] at hcable
    rw [hpq] at hroot
    exact ⟨⟨j, hj⟩, hcable, hroot⟩
  -- a GID by its cable and its root: all four pairs are met, so each of them once
  let f : Fin 4 → Bool × Bool := fun i => (decide (cable gids i = a), decide (rootName roots i = p))
  have hsurj : Function.Surjective f := by
    rintro ⟨u, v⟩
    have hat : ∃ j : Fin 4, (if u then a else b) = cable gids j ∧
      (if v then p else q) = rootName roots j := by
      cases u <;> cases v
      · obtain ⟨j, hc, hr⟩ := hpair hpairs.2.2.2
        exact ⟨j, Option.some.inj hc, Option.some.inj hr⟩
      · obtain ⟨j, hc, hr⟩ := hpair hpairs.2.2.1
        exact ⟨j, Option.some.inj hc, Option.some.inj hr⟩
      · obtain ⟨j, hc, hr⟩ := hpair hpairs.2.1
        exact ⟨j, Option.some.inj hc, Option.some.inj hr⟩
      · obtain ⟨j, hc, hr⟩ := hpair hpairs.1
        exact ⟨j, Option.some.inj hc, Option.some.inj hr⟩
    obtain ⟨j, hc, hr⟩ := hat
    refine ⟨j, Prod.ext ?_ ?_⟩
    · show decide (cable gids j = a) = u
      rw [← hc]
      cases u
      · exact decide_eq_false hne.symm
      · exact decide_eq_true rfl
    · show decide (rootName roots j = p) = v
      rw [← hr]
      cases v
      · exact decide_eq_false hne'.symm
      · exact decide_eq_true rfl
  have hbij : Function.Bijective f := (Fintype.bijective_iff_surjective_and_card f).mpr ⟨hsurj, rfl⟩
  refine ⟨a, b, p, q, hne, hne', Equiv.ofBijective f hbij, fun i => ⟨?_, ?_⟩⟩
  · have hmem : cable gids i ∈ s.subnets := (h.mem_subnets _).mpr ⟨i, i.isLt, rfl⟩
    rw [hab] at hmem
    show cable gids i = if decide (cable gids i = a) = true then a else b
    by_cases heq : cable gids i = a
    · rw [if_pos (decide_eq_true heq), heq]
    · rw [if_neg (by simpa using heq)]
      exact (by simpa [heq] using hmem)
  · have hmem : rootName roots i ∈ s.domains := (h.mem_domains rfl _).mpr ⟨i, i.isLt, rfl⟩
    rw [hpq] at hmem
    show rootName roots i = if decide (rootName roots i = p) = true then p else q
    by_cases heq : rootName roots i = p
    · rw [if_pos (decide_eq_true heq), heq]
    · rw [if_neg (by simpa using heq)]
      exact (by simpa [heq] using hmem)

/-- What the validator looks at after the walk holds of what may be published. -/
theorem Published.balanced (h : Published gids roots dual)
    (hinv : s.Inv gids roots dual (2 * share dual)) :
    s.subnets.length = 2 ∧ ∀ t < 2, s.perSubnet t = share dual := by
  obtain ⟨a, b, hab, htwo, hall⟩ := h.two_cables
  have hmem : ∀ x, x ∈ s.subnets ↔ x = a ∨ x = b := fun x => by
    rw [hinv.mem_subnets]
    exact ⟨fun ⟨j, hj, heq⟩ => heq ▸ htwo j hj, fun hx => (hall x hx).1⟩
  have hlen := length_eq_two hinv.subnets_nodup hab hmem
  refine ⟨hlen, fun t ht => ?_⟩
  have hlt : t < s.subnets.length := by omega
  rw [hinv.counted, List.getElem?_eq_getElem hlt]
  exact (hall _ ((hmem _).mp (List.getElem_mem hlt))).2

theorem Published.complete (h : Published gids roots true) (hinv : s.Inv gids roots true 4) :
    s.domains.length = 2 ∧ ∀ t < 2, ∀ d < 2, s.pairs t d = true := by
  obtain ⟨-, a, b, p, q, hab, hpq, e, he⟩ := h.cross rfl
  have hmem : ∀ y, y ∈ s.domains ↔ y = p ∨ y = q := fun y => by
    rw [hinv.mem_domains rfl]
    refine ⟨fun ⟨j, hj, heq⟩ => heq ▸ (cross_two he hj).2, fun hy => ?_⟩
    obtain ⟨j, hj, -, hroot⟩ := cross_exists he (Or.inl rfl) hy
    exact ⟨j, hj, hroot⟩
  have hlen := length_eq_two hinv.domains_nodup hpq hmem
  have hbalanced := h.balanced hinv
  refine ⟨hlen, fun t ht d hd => (hinv.marked rfl t d).mpr ?_⟩
  have ht' : t < s.subnets.length := by omega
  have hd' : d < s.domains.length := by omega
  obtain ⟨i, hi, hcable⟩ := (hinv.mem_subnets _).mp (List.getElem_mem ht')
  obtain ⟨j, hj, hcable', hroot⟩ := cross_exists he ((cross_two he hi).1)
    ((hmem _).mp (List.getElem_mem hd'))
  refine ⟨j, hj, ?_, ?_⟩
  · rw [List.getElem?_eq_getElem ht', hcable', hcable]
  · rw [List.getElem?_eq_getElem hd', hroot]

/-- **The listener contract.** A publication is accepted exactly when it has the right count and is,
on the fabric's hosts, the cross product of two cables and two roots, or two cables. -/
theorem validateListener_ok_iff (gids : Nat → Gid) (roots : Nat → Root) (dual : Bool)
    (count : Int) :
    validateListener gids roots dual count = .ok () ↔ count = (2 * share dual : Nat) ∧
    Published gids roots dual := by
  unfold validateListener
  rw [checked_ok, not_not, bind_ok]
  refine and_congr_right fun _ => ⟨?_, fun h => ?_⟩
  · rintro ⟨s, hs, hfinal⟩
    rw [checked_ok, checked_ok] at hfinal
    obtain ⟨hbalanced, hcross, -⟩ := hfinal
    have hinv := walk_inv hs
    have hlen : s.subnets.length = 2 := not_not.mp fun hne => hbalanced (Or.inl hne)
    refine ⟨hinv.fabric, hinv.distinct, ?_, ?_⟩
    · rintro rfl hsame
      obtain ⟨a, b, hab⟩ := List.length_eq_two.mp hlen
      have hall : ∀ x ∈ s.subnets, x = cable gids 0 := fun x hx => by
        obtain ⟨j, hj, rfl⟩ := (hinv.mem_subnets x).mp hx
        have hj : j < 2 := hj
        interval_cases j
        · rfl
        · exact hsame.symm
      have hnodup := hinv.subnets_nodup
      rw [hab] at hall hnodup
      have heq : a = b := (hall a (by simp)).trans (hall b (by simp)).symm
      exact absurd hnodup (by simp [heq])
    · rintro rfl
      have hcomplete : ¬(s.domains.length ≠ 2 ∨
        ¬(s.pairs 0 0 = true ∧ s.pairs 0 1 = true ∧ s.pairs 1 0 = true ∧
          s.pairs 1 1 = true)) := fun hbad => hcross ⟨rfl, hbad⟩
      rw [not_or, not_not, not_not] at hcomplete
      exact ⟨hinv.valid rfl, hinv.cross hlen hcomplete.1 hcomplete.2⟩
  · obtain ⟨s, hs⟩ := h.walk_ok _ le_rfl
    have hinv := walk_inv hs
    obtain ⟨hlen, hshare⟩ := h.balanced hinv
    refine ⟨s, hs, ?_⟩
    rw [checked_ok, checked_ok]
    refine ⟨?_, ?_, rfl⟩
    · rw [not_or, not_or, not_not, not_not, not_not]
      exact ⟨hlen, hshare 0 (by decide), hshare 1 (by decide)⟩
    · rintro ⟨rfl, hbad⟩
      obtain ⟨hdomains, hpairs⟩ := h.complete hinv
      exact hbad.elim (fun hne => hne hdomains) fun hnot =>
        hnot ⟨hpairs 0 (by decide) 0 (by decide),
        hpairs 0 (by decide) 1 (by decide), hpairs 1 (by decide) 0 (by decide),
        hpairs 1 (by decide) 1 (by decide)⟩

end Accepted

end Ringside.NcclRouting
