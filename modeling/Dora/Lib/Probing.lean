import Mathlib.Algebra.Order.BigOperators.Group.Finset

/-!
# Open addressing

Hash tables without chains: a key is looked for in the cells along its path until it is found or an
empty cell is met. A cell whose key has been removed is not empty, but a new key may be put there.

## Main definitions

* `search`: the search along a path
* `Holds`, `Probed`: the map that a table holds, and that its keys are found along their paths

## Main results

* `search_of_live`, `search_of_absent`: where the search of a key leads
-/

open Finset
open Function (update update_of_ne update_self)

inductive Cell (K V : Type)
  | empty
  | deleted
  | live (key : K) (value : V)
deriving DecidableEq

namespace Cell

variable {K V : Type}

/-- 1 for a key. -/
@[simp]
def weight : Cell K V → ℕ
  | live _ _ => 1
  | _ => 0

/-- The key of the cell. -/
@[simp]
def key? : Cell K V → Option K
  | live k _ => some k
  | _ => none

/-- The value of the cell. -/
@[simp]
def value? : Cell K V → Option V
  | live _ v => some v
  | _ => none

theorem weight_of_key?_eq_none {cell : Cell K V} (h : cell.key? = none) : cell.weight = 0 := by
  cases cell with
  | live k v => cases h
  | _ => rfl

end Cell

variable {K V : Type}

/-- The search along a path: the cell with the key, or the cell where it can be put, which is the
first one met whose key has been removed, or the empty one. It does not end on a path without
either. -/
def search [DecidableEq K] (cells : ℕ → Cell K V) (key : K) : List ℕ → Option ℕ → Option (ℕ × Bool)
  | [], _ => none
  | i :: path, free =>
    match cells i with
    | .live k _ => if k = key then some (i, true) else search cells key path free
    | .deleted => search cells key path (free.or (some i))
    | .empty => some (free.getD i, false)

/-- The search along the path comes to the cell `i` if it does not end before. -/
def Before (cells : ℕ → Cell K V) (path : List ℕ) (i : ℕ) : Prop :=
  ∃ pre post, path = pre ++ i :: post ∧ ∀ j ∈ pre, cells j ≠ .empty

theorem Before.of_takeWhile {cells : ℕ → Cell K V} {path : List ℕ} {i : ℕ} (hmem : i ∈ path)
    (h : ∀ j ∈ path.takeWhile (· ≠ i), cells j ≠ .empty) : Before cells path i := by
  induction path with
  | nil => simp at hmem
  | cons j path ih =>
    by_cases hj : j = i
    · exact ⟨[], path, by rw [hj]; rfl, by simp⟩
    · have hmem' : i ∈ path := (List.mem_cons.mp hmem).resolve_left (Ne.symm hj)
      rw [List.takeWhile_cons_of_pos (by simpa using hj)] at h
      obtain ⟨pre, post, hpath, hpre⟩ := ih hmem' fun l hl => h l (List.mem_cons_of_mem _ hl)
      refine ⟨j :: pre, post, by rw [hpath]; rfl, ?_⟩
      intro l hl
      rcases List.mem_cons.mp hl with rfl | hl
      · exact h l List.mem_cons_self
      · exact hpre l hl

/-- The first `capacity` cells hold the map, each key once. -/
structure Holds (capacity : ℕ) (cells : ℕ → Cell K V) (map : K → Option V) : Prop where
  iff : ∀ k v, map k = some v ↔ ∃ i < capacity, cells i = .live k v
  unique : ∀ i < capacity, ∀ j < capacity, ∀ k, (cells i).key? = some k →
    (cells j).key? = some k → i = j

/-- Every key is found along its path. -/
def Probed (capacity : ℕ) (path : K → List ℕ) (cells : ℕ → Cell K V) : Prop :=
  ∀ i < capacity, ∀ k v, cells i = .live k v → Before cells (path k) i

/-- The number of keys in the first cells. -/
def liveCount (capacity : ℕ) (cells : ℕ → Cell K V) : ℕ := ∑ i ∈ range capacity, (cells i).weight

section Search

variable {capacity : ℕ} {cells cells' : ℕ → Cell K V} {key : K} {value : V} {path : List ℕ} {i : ℕ}

theorem Before.mono (h : Before cells path i) (hcells : ∀ j, cells j ≠ .empty → cells' j ≠ .empty) :
    Before cells' path i := by
  obtain ⟨pre, post, hpath, hpre⟩ := h
  exact ⟨pre, post, hpath, fun j hj => hcells j (hpre j hj)⟩

/-- **A stored key is found.** -/
theorem search_of_live [DecidableEq K] (hi : cells i = .live key value)
    (hunique : ∀ j ∈ path, (cells j).key? = some key → j = i) (hbefore : Before cells path i)
    (free : Option ℕ) : search cells key path free = some (i, true) := by
  obtain ⟨pre, post, rfl, hpre⟩ := hbefore
  induction pre generalizing free with
  | nil =>
    rw [List.nil_append]
    unfold search
    rw [hi]
    exact if_pos rfl
  | cons j pre ih =>
    rw [List.cons_append] at hunique ⊢
    have hrest := fun free => ih free (fun l hl => hpre l (List.mem_cons_of_mem _ hl))
      fun l hl => hunique l (List.mem_cons_of_mem _ hl)
    unfold search
    cases hj : cells j with
    | empty => exact absurd hj (hpre j List.mem_cons_self)
    | deleted => exact hrest _
    | live k v =>
      by_cases hk : k = key
      · -- the key is stored in one cell only
        rw [hunique j List.mem_cons_self (by simp [hj, hk])]
        exact if_pos hk
      · exact (if_neg hk).trans (hrest free)

/-- **A key that is not stored** leads to a cell where it can be put, and where it will be found,
if there is an empty cell on the path. -/
theorem search_of_absent [DecidableEq K] (habsent : ∀ j ∈ path, (cells j).key? ≠ some key)
    (hempty : ∃ j ∈ path, cells j = .empty) (free : Option ℕ) :
    ∃ i, search cells key path free = some (i, false) ∧
      (free = some i ∨ i ∈ path ∧ (cells i).key? = none ∧ Before cells path i) := by
  induction path generalizing free with
  | nil => simp at hempty
  | cons j path ih =>
    unfold search
    cases hj : cells j with
    | empty =>
      refine ⟨free.getD j, rfl, ?_⟩
      cases free with
      | none => exact .inr ⟨List.mem_cons_self, by simp [hj], [], path, rfl, by simp⟩
      | some i => exact .inl rfl
    | deleted =>
      obtain ⟨i, hsearch, hi⟩ := ih (fun l hl => habsent l (List.mem_cons_of_mem _ hl))
        (by simpa [hj] using hempty) (free.or (some j))
      refine ⟨i, hsearch, ?_⟩
      rcases hi with hi | ⟨hmem, hkey, pre, post, hpath, hpre⟩
      · cases free with
        | none =>
          obtain rfl : j = i := by simpa using hi
          exact .inr ⟨List.mem_cons_self, by simp [hj], [], path, rfl, by simp⟩
        | some l => exact .inl hi
      · refine .inr ⟨List.mem_cons_of_mem _ hmem, hkey, j :: pre, post, by rw [hpath]; rfl, ?_⟩
        intro l hl
        rcases List.mem_cons.mp hl with rfl | hl
        · simp [hj]
        · exact hpre l hl
    | live k v =>
      have hk : k ≠ key := fun he => habsent j List.mem_cons_self (by simp [hj, he])
      obtain ⟨i, hsearch, hi⟩ := ih (fun l hl => habsent l (List.mem_cons_of_mem _ hl))
        (by simpa [hj] using hempty) free
      refine ⟨i, (if_neg hk).trans hsearch, hi.imp_right ?_⟩
      rintro ⟨hmem, hkey, pre, post, hpath, hpre⟩
      refine ⟨List.mem_cons_of_mem _ hmem, hkey, j :: pre, post, by rw [hpath]; rfl, ?_⟩
      intro l hl
      rcases List.mem_cons.mp hl with rfl | hl
      · simp [hj]
      · exact hpre l hl

end Search

section Changes

variable [DecidableEq K] {capacity : ℕ} {cells : ℕ → Cell K V} {map : K → Option V}
  {path : K → List ℕ} {key : K} {value : V} {i : ℕ}

omit [DecidableEq K] in
theorem Holds.key?_iff (h : Holds capacity cells map) {k : K} :
    (∃ v, map k = some v) ↔ ∃ i < capacity, (cells i).key? = some k := by
  constructor
  · rintro ⟨v, hv⟩
    obtain ⟨i, hi, hcell⟩ := (h.iff k v).mp hv
    exact ⟨i, hi, by simp [hcell]⟩
  · rintro ⟨i, hi, hkey⟩
    cases hcell : cells i with
    | live k' v =>
      obtain rfl : k' = k := by simpa [hcell] using hkey
      exact ⟨v, (h.iff k' v).mpr ⟨i, hi, hcell⟩⟩
    | _ => simp [hcell] at hkey

/-- A key is put into its cell, or into one without a key if it is not stored. -/
theorem Holds.set (h : Holds capacity cells map) (hi : i < capacity)
    (hcell : (cells i).key? = some key ∨ (cells i).key? = none ∧ map key = none) :
    Holds capacity (update cells i (.live key value)) (update map key (some value)) := by
  have hother : ∀ j < capacity, j ≠ i → (cells j).key? ≠ some key := by
    intro j hj hji hkey
    rcases hcell with hcell | ⟨-, hnone⟩
    · exact hji (h.unique j hj i hi key hkey hcell)
    · obtain ⟨v, hv⟩ := h.key?_iff.mpr ⟨j, hj, hkey⟩
      simp [hnone] at hv
  refine ⟨fun k v => ?_, fun j hj l hl k hkj hkl => ?_⟩
  · by_cases hk : k = key
    · subst hk
      rw [update_self]
      constructor
      · intro hv
        cases hv
        exact ⟨i, hi, update_self ..⟩
      · rintro ⟨j, hj, hcj⟩
        by_cases hji : j = i
        · rw [hji, update_self, Cell.live.injEq] at hcj
          rw [hcj.2]
        · rw [update_of_ne hji] at hcj
          exact absurd (by simp [hcj]) (hother j hj hji)
    · rw [update_of_ne hk, h.iff]
      constructor
      · rintro ⟨j, hj, hcj⟩
        have hji : j ≠ i := by
          rintro rfl
          rcases hcell with hcell | ⟨hcell, -⟩
          · exact hk (by simpa [hcj] using hcell)
          · simp [hcj] at hcell
        exact ⟨j, hj, (update_of_ne hji ..).trans hcj⟩
      · rintro ⟨j, hj, hcj⟩
        by_cases hji : j = i
        · rw [hji, update_self, Cell.live.injEq] at hcj
          exact absurd hcj.1.symm hk
        · rw [update_of_ne hji] at hcj
          exact ⟨j, hj, hcj⟩
  · by_cases hji : j = i <;> by_cases hli : l = i
    · rw [hji, hli]
    · rw [hji, update_self] at hkj
      rw [update_of_ne hli] at hkl
      obtain rfl : key = k := by simpa using hkj
      exact absurd hkl (hother l hl hli)
    · rw [hli, update_self] at hkl
      rw [update_of_ne hji] at hkj
      obtain rfl : key = k := by simpa using hkl
      exact absurd hkj (hother j hj hji)
    · rw [update_of_ne hji] at hkj
      rw [update_of_ne hli] at hkl
      exact h.unique j hj l hl k hkj hkl

theorem Holds.erase (h : Holds capacity cells map) (hi : i < capacity)
    (hcell : (cells i).key? = some key) :
    Holds capacity (update cells i .deleted) (update map key none) := by
  have hother {j : ℕ} {k : K} (hkey : (update cells i .deleted j).key? = some k) : j ≠ i := by
    rintro rfl
    simp at hkey
  refine ⟨fun k v => ?_, fun j hj l hl k hkj hkl => ?_⟩
  · by_cases hk : k = key
    · subst hk
      refine ⟨fun hv => absurd hv (by simp), ?_⟩
      rintro ⟨j, hj, hcj⟩
      have hji := hother (by rw [hcj]; rfl)
      rw [update_of_ne hji] at hcj
      exact absurd (h.unique j hj i hi k (by simp [hcj]) hcell) hji
    · rw [update_of_ne hk, h.iff]
      constructor
      · rintro ⟨j, hj, hcj⟩
        have hji : j ≠ i := by
          rintro rfl
          exact hk (by simpa [hcj] using hcell)
        exact ⟨j, hj, (update_of_ne hji ..).trans hcj⟩
      · rintro ⟨j, hj, hcj⟩
        have hji := hother (by rw [hcj]; rfl)
        exact ⟨j, hj, (update_of_ne hji ..).symm.trans hcj⟩
  · have hji := hother hkj
    have hli := hother hkl
    rw [update_of_ne hji] at hkj
    rw [update_of_ne hli] at hkl
    exact h.unique j hj l hl k hkj hkl

omit [DecidableEq K] in
theorem update_ne_empty {cell : Cell K V} (hcell : cell ≠ .empty) (j : ℕ) (hj : cells j ≠ .empty) :
    update cells i cell j ≠ .empty := by
  by_cases hji : j = i
  · rwa [hji, update_self]
  · rwa [update_of_ne hji]

omit [DecidableEq K] in
theorem Probed.set (h : Probed capacity path cells) (hbefore : Before cells (path key) i) :
    Probed capacity path (update cells i (.live key value)) := by
  have hmono : ∀ j, cells j ≠ .empty → update cells i (.live key value) j ≠ .empty :=
    update_ne_empty (by simp)
  intro j hj k v hcj
  by_cases hji : j = i
  · subst hji
    rw [update_self, Cell.live.injEq] at hcj
    obtain ⟨rfl, rfl⟩ := hcj
    exact hbefore.mono hmono
  · rw [update_of_ne hji] at hcj
    exact (h j hj k v hcj).mono hmono

omit [DecidableEq K] in
theorem Probed.erase (h : Probed capacity path cells) :
    Probed capacity path (update cells i .deleted) := by
  intro j hj k v hcj
  by_cases hji : j = i
  · rw [hji, update_self] at hcj
    exact absurd hcj (by simp)
  · rw [update_of_ne hji] at hcj
    exact (h j hj k v hcj).mono (update_ne_empty (by simp))

end Changes

section Count

variable {capacity : ℕ} {cells : ℕ → Cell K V} {i : ℕ}

theorem liveCount_update (cells : ℕ → Cell K V) (hi : i < capacity) (cell : Cell K V) :
    liveCount capacity (update cells i cell) + (cells i).weight =
      liveCount capacity cells + cell.weight := by
  have hmem := mem_range.mpr hi
  have hnew := add_sum_erase (range capacity) (fun j => (update cells i cell j).weight) hmem
  have hold := add_sum_erase (range capacity) (fun j => (cells j).weight) hmem
  have hrest : ∑ j ∈ (range capacity).erase i, (update cells i cell j).weight =
      ∑ j ∈ (range capacity).erase i, (cells j).weight :=
    sum_congr rfl fun j hj => by rw [update_of_ne (ne_of_mem_erase hj)]
  simp only [update_self] at hnew
  unfold liveCount
  omega

/-- **Room**: a table without removed keys that is not full has an empty cell. -/
theorem exists_empty (hdeleted : ∀ j < capacity, cells j ≠ .deleted)
    (hcount : liveCount capacity cells < capacity) : ∃ j < capacity, cells j = .empty := by
  by_contra hno
  have hone : ∀ j ∈ range capacity, (cells j).weight = 1 := by
    intro j hj
    have hj' := mem_range.mp hj
    cases hcell : cells j with
    | empty => exact absurd ⟨j, hj', hcell⟩ hno
    | deleted => exact absurd hcell (hdeleted j hj')
    | live k v => rfl
  have hcard : liveCount capacity cells = capacity := by
    unfold liveCount
    rw [sum_congr rfl hone]
    simp
  omega

end Count

section Below

variable {capacity n : ℕ} {cells : ℕ → Cell K V} {map : K → Option V} {key : K} {value : V}

open Classical in
/-- The part of the map that is in the first `n` cells. -/
noncomputable def below (cells : ℕ → Cell K V) (map : K → Option V) (n : ℕ) : K → Option V :=
  fun k => if ∃ i < n, (cells i).key? = some k then map k else none

theorem below_zero : below cells map 0 = fun _ => none := by
  funext k
  simp [below]

theorem Holds.below_capacity (h : Holds capacity cells map) : below cells map capacity = map := by
  funext k
  unfold below
  split
  · rfl
  next hno =>
    cases hk : map k with
    | none => rfl
    | some v => exact absurd (h.key?_iff.mp ⟨v, hk⟩) hno

theorem below_succ_of_ne {k : K} (hcell : (cells n).key? ≠ some k) :
    below cells map (n + 1) k = below cells map n k := by
  have hiff : (∃ i < n + 1, (cells i).key? = some k) ↔ ∃ i < n, (cells i).key? = some k := by
    constructor
    · rintro ⟨i, hi, hkey⟩
      have hne : i ≠ n := by
        rintro rfl
        exact hcell hkey
      exact ⟨i, by omega, hkey⟩
    · rintro ⟨i, hi, hkey⟩
      exact ⟨i, by omega, hkey⟩
  classical exact if_congr hiff rfl rfl

theorem Holds.below_succ_of_live [DecidableEq K] (h : Holds capacity cells map) (hn : n < capacity)
    (hcell : cells n = .live key value) :
    below cells map n key = none ∧
      below cells map (n + 1) = update (below cells map n) key (some value) := by
  have hmap : map key = some value := (h.iff key value).mpr ⟨n, hn, hcell⟩
  have hno : ¬∃ i < n, (cells i).key? = some key := by
    rintro ⟨i, hi, hkey⟩
    have hin := h.unique i (by omega) n hn key hkey (by simp [hcell])
    omega
  refine ⟨if_neg hno, funext fun k => ?_⟩
  by_cases hk : k = key
  · subst hk
    rw [update_self]
    exact (if_pos ⟨n, by omega, by simp [hcell]⟩).trans hmap
  · rw [update_of_ne hk]
    refine below_succ_of_ne fun hkey => hk ?_
    rw [hcell] at hkey
    exact (Option.some.inj hkey).symm

theorem liveCount_succ (n : ℕ) (cells : ℕ → Cell K V) :
    liveCount (n + 1) cells = liveCount n cells + (cells n).weight := sum_range_succ _ n

theorem liveCount_mono (cells : ℕ → Cell K V) {n n' : ℕ} (h : n ≤ n') :
    liveCount n cells ≤ liveCount n' cells :=
  sum_le_sum_of_subset (range_subset_range.mpr h)

theorem liveCount_le (n : ℕ) (cells : ℕ → Cell K V) : liveCount n cells ≤ n := by
  have hle : liveCount n cells ≤ ∑ _i ∈ range n, 1 := by
    refine sum_le_sum fun i _ => ?_
    cases cells i <;> simp
  simpa using hle

theorem Holds.eq_none (h : Holds capacity cells map) (hzero : liveCount capacity cells = 0)
    (key : K) : map key = none := by
  by_contra hsome
  obtain ⟨v, hv⟩ := Option.ne_none_iff_exists'.mp hsome
  obtain ⟨i, hi, hcell⟩ := (h.iff key v).mp hv
  have hle : (cells i).weight ≤ liveCount capacity cells :=
    single_le_sum (f := fun j => (cells j).weight) (fun _ _ => Nat.zero_le _) (mem_range.mpr hi)
  rw [hcell, hzero] at hle
  simp at hle

end Below
