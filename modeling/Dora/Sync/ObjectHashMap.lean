import Mathlib.Data.List.Iterate
import Mathlib.Tactic.IntervalCases
import Dora.Lib.Probing

/-!
# The map of wait lists

`ObjectHashMap` of `dora/src/vm/waitlists.rs`: a table with open addressing whose keys are the
addresses of objects, which a collector may rewrite in place. The table remembers the epoch of the
last collection it knows of, and is built anew when that has passed. `EMPTY` and `DELETED` are the
two kinds of cells without a key. An operation returns nothing if the source panics, or if it
searches a table without an empty cell for ever.

## Main definitions

* `ObjectHashMap.Good`: the map that a table holds
-/

namespace Dora.Sync

open Function (update update_eq_self update_of_ne update_self)

structure ObjectHashMap (V : Type) where
  cells : ℕ → Cell ℕ V
  entries : ℕ
  capacity : ℕ
  gcEpoch : ℕ

namespace ObjectHashMap

variable {V : Type}

def MIN_CAPACITY : ℕ := 8

def new : ObjectHashMap V := ⟨fun _ => .empty, 0, 0, 0⟩

@[simp]
def withCapacity (capacity epoch : ℕ) : ObjectHashMap V := ⟨fun _ => .empty, 0, capacity, epoch⟩

/-- The cells in the order in which the loops visit them for a key. After one round they would
visit the same cells again. -/
def path (capacity key : ℕ) : List ℕ :=
  List.iterate (fun idx => (idx + 1) &&& (capacity - 1)) (key &&& (capacity - 1)) capacity

section

variable (m : ObjectHashMap V)

/-- The loop of `get`, `insert` and `remove`. -/
def find (key : ℕ) : Option (ℕ × Bool) :=
  search m.cells key (path m.capacity key) none

def overflow : Bool := m.capacity - m.capacity / 4 < m.entries + 1

def underflow : Bool := m.entries < m.capacity / 4

def invalidatedByGc (epoch : ℕ) : Bool := m.gcEpoch ≠ epoch

/-- `insert` after `maybe_rehash_on_insert`. -/
def put (key : ℕ) (value : V) : Option (ObjectHashMap V) :=
  if m.entries < m.capacity then
    match m.find key with
    | some (i, true) => some { m with cells := update m.cells i (.live key value) }
    | some (i, false) =>
      some { m with
        cells := update m.cells i (.live key value), entries := m.entries + 1 }
    | none => none
  else none

/-- `rehash`. The new table is always large enough, so that inserting the keys does not build it
anew once more. -/
def rehash (epoch newCapacity : ℕ) : Option (ObjectHashMap V) :=
  (List.range m.capacity).foldlM
    (fun newMap i =>
      match m.cells i with
      | .live key value => if newMap.overflow then none else newMap.put key value
      | _ => some newMap)
    (withCapacity newCapacity epoch)

/-- The loop of `capacity_for_entries`. -/
def capacityLoop (entries : ℕ) : ℕ → ℕ → ℕ
  | 0, capacity => capacity
  | fuel + 1, capacity =>
    if entries > capacity - capacity / 4 then capacityLoop entries fuel (capacity * 2) else capacity

def capacityForEntries (entries : ℕ) : ℕ := capacityLoop entries entries MIN_CAPACITY

def maybeRehashOnGet (epoch : ℕ) : Option (ObjectHashMap V) :=
  if m.invalidatedByGc epoch then m.rehash epoch m.capacity else some m

def maybeRehashOnInsert (epoch : ℕ) : Option (ObjectHashMap V) :=
  if m.invalidatedByGc epoch || m.overflow then m.rehash epoch (capacityForEntries (m.entries + 1))
  else some m

def maybeRehashOnRemove (epoch : ℕ) : Option (ObjectHashMap V) :=
  if m.invalidatedByGc epoch || m.underflow then m.rehash epoch (capacityForEntries m.entries)
  else some m

def get (epoch key : ℕ) : Option (Option V × ObjectHashMap V) :=
  if m.entries = 0 then some (none, m)
  else do
    let m ← m.maybeRehashOnGet epoch
    match m.find key with
    | some (i, true) => some ((m.cells i).value?, m)
    | some (_, false) => some (none, m)
    | none => none

def insert (epoch key : ℕ) (value : V) : Option (ObjectHashMap V) := do
  let m ← m.maybeRehashOnInsert epoch
  m.put key value

def remove (epoch key : ℕ) : Option (Option V × ObjectHashMap V) := do
  let m ← m.maybeRehashOnRemove epoch
  match m.find key with
  | some (i, true) =>
    some ((m.cells i).value?,
      { m with cells := update m.cells i .deleted, entries := m.entries - 1 })
  | some (_, false) => some (none, m)
  | none => none

end

/-- `visit_roots` with a collector that moves objects: the keys are rewritten where they are. -/
@[simp]
def moveKeys (m : ObjectHashMap V) (f : ℕ → ℕ) : ObjectHashMap V :=
  { m with
    cells := fun i =>
      match m.cells i with
      | .live key value => .live (f key) value
      | cell => cell }

/-! ## Paths -/

section Paths

variable {n capacity key i : ℕ}

theorem and_capacity_eq_mod (h : capacity = 2 ^ n) (a : ℕ) :
    a &&& (capacity - 1) = a % capacity := by
  rw [h]
  exact Nat.and_two_pow_sub_one_eq_mod a n

theorem mem_path (h : capacity = 2 ^ n) : i ∈ path capacity key ↔ i < capacity := by
  have hpos : 0 < capacity := h ▸ Nat.two_pow_pos n
  have hiter : ∀ d, (fun idx => (idx + 1) &&& (capacity - 1))^[d] (key &&& (capacity - 1)) =
      (key + d) % capacity := by
    intro d
    induction d with
    | zero => exact and_capacity_eq_mod h key
    | succ d ih =>
      rw [Function.iterate_succ_apply', ih, and_capacity_eq_mod h, Nat.mod_add_mod]
      rfl
  unfold path
  rw [List.mem_iterate]
  constructor
  · rintro ⟨d, _, rfl⟩
    rw [hiter]
    exact Nat.mod_lt _ hpos
  · intro hi
    refine ⟨(i + capacity - key % capacity) % capacity, Nat.mod_lt _ hpos, ?_⟩
    have hkey := Nat.mod_lt key hpos
    rw [hiter, Nat.add_mod_mod, ← Nat.mod_add_mod]
    have hsum : key % capacity + (i + capacity - key % capacity) = i + capacity := by omega
    rw [hsum, Nat.add_mod_right, Nat.mod_eq_of_lt hi]

end Paths

/-! ## What the operations do -/

/-- The table holds the map, its number of entries is right, and at most three quarters of it are
in use. -/
structure Good (m : ObjectHashMap V) (map : ℕ → Option V) : Prop where
  capacity : m.capacity = 0 ∨ ∃ n, 3 ≤ n ∧ m.capacity = 2 ^ n
  holds : Holds m.capacity m.cells map
  entries : m.entries = liveCount m.capacity m.cells
  load : m.entries ≤ m.capacity - m.capacity / 4

/-- Keys are found where they are. -/
def Valid (m : ObjectHashMap V) : Prop := Probed m.capacity (path m.capacity) m.cells

/-- There is a cell that has not been used. -/
def Roomy (m : ObjectHashMap V) : Prop := ∃ i < m.capacity, m.cells i = .empty

section Specs

variable {m : ObjectHashMap V} {map : ℕ → Option V} {key epoch : ℕ} {value : V}

theorem Good.lt_capacity (h : Good m map) (hpos : 0 < m.capacity) :
    ∃ n, m.capacity = 2 ^ n ∧ m.entries < m.capacity := by
  rcases h.capacity with hzero | ⟨n, hn, hcap⟩
  · omega
  · have hle : 2 ^ 3 ≤ 2 ^ n := Nat.pow_le_pow_right (by decide) hn
    have hload := h.load
    exact ⟨n, hcap, by omega⟩

theorem Good.find_present (h : Good m map) (hvalid : m.Valid) (hkey : map key = some value) :
    ∃ i < m.capacity, m.cells i = .live key value ∧ m.find key = some (i, true) := by
  obtain ⟨i, hi, hcell⟩ := (h.holds.iff key value).mp hkey
  obtain ⟨n, hcap, -⟩ := h.lt_capacity (by omega)
  refine ⟨i, hi, hcell, search_of_live hcell (fun j hj hj' => ?_)
    (hvalid i hi key value hcell) none⟩
  exact h.holds.unique j ((mem_path hcap).mp hj) i hi key hj' (by simp [hcell])

theorem Good.find_absent (h : Good m map) (hroomy : m.Roomy) (hkey : map key = none) :
    ∃ i < m.capacity, (m.cells i).key? = none ∧ m.find key = some (i, false) ∧
      Before m.cells (path m.capacity key) i := by
  obtain ⟨e, he, hempty⟩ := hroomy
  obtain ⟨n, hcap, -⟩ := h.lt_capacity (by omega)
  have habsent : ∀ j ∈ path m.capacity key, (m.cells j).key? ≠ some key := by
    intro j hj hj'
    obtain ⟨v, hv⟩ := h.holds.key?_iff.mpr ⟨j, (mem_path hcap).mp hj, hj'⟩
    simp [hkey] at hv
  obtain ⟨i, hsearch, hi | ⟨hmem, hnone, hbefore⟩⟩ :=
    search_of_absent habsent ⟨e, (mem_path hcap).mpr he, hempty⟩ none
  · simp at hi
  · exact ⟨i, (mem_path hcap).mp hmem, hnone, hsearch, hbefore⟩

/-- **`put`**: a key of the table gets a new value, and another one gets a cell if there is one. -/
theorem Good.put_spec (h : Good m map) (hvalid : m.Valid) (key : ℕ) (value : V)
    (hroom : map key = none → m.Roomy ∧ m.entries + 1 ≤ m.capacity - m.capacity / 4) :
    ∃ m', m.put key value = some m' ∧ Good m' (update map key (some value)) ∧ m'.Valid ∧
      m'.capacity = m.capacity ∧ m'.gcEpoch = m.gcEpoch ∧
      m'.entries = m.entries + (if (map key).isSome then 0 else 1) ∧
      ((∀ i < m.capacity, m.cells i ≠ .deleted) → ∀ i < m.capacity, m'.cells i ≠ .deleted) := by
  have hdeleted : ∀ i, (∀ j < m.capacity, m.cells j ≠ .deleted) → ∀ j < m.capacity,
      update m.cells i (.live key value) j ≠ .deleted := by
    intro i hno j hj
    by_cases hji : j = i
    · rw [hji, update_self]
      simp
    · rw [update_of_ne hji]
      exact hno j hj
  cases hkey : map key with
  | some old =>
    obtain ⟨i, hi, hcell, hfind⟩ := h.find_present hvalid hkey
    obtain ⟨n, hcap, hlt⟩ := h.lt_capacity (by omega)
    refine ⟨{ m with cells := update m.cells i (.live key value) }, ?_, ?_, ?_, rfl, rfl,
      rfl, hdeleted i⟩
    · simp [put, hlt, hfind]
    · refine ⟨h.capacity, h.holds.set hi (.inl (by simp [hcell])), ?_, h.load⟩
      have hcount := liveCount_update m.cells hi (.live key value)
      rw [hcell] at hcount
      rw [h.entries]
      exact (Nat.add_right_cancel hcount).symm
    · exact Probed.set hvalid (hvalid i hi key old hcell)
  | none =>
    obtain ⟨hroomy, hload⟩ := hroom hkey
    obtain ⟨i, hi, hnone, hfind, hbefore⟩ := h.find_absent hroomy hkey
    obtain ⟨n, hcap, hlt⟩ := h.lt_capacity (by omega)
    refine ⟨{ m with
      cells := update m.cells i (.live key value), entries := m.entries + 1 }, ?_, ?_, ?_,
      rfl, rfl, rfl, hdeleted i⟩
    · simp [put, hlt, hfind]
    · refine ⟨h.capacity, h.holds.set hi (.inr ⟨hnone, hkey⟩), ?_, hload⟩
      have hcount := liveCount_update m.cells hi (.live key value)
      have hweight : (m.cells i).weight = 0 := by
        cases hcell : m.cells i <;> simp_all
      rw [hweight] at hcount
      rw [h.entries]
      exact hcount.symm
    · exact Probed.set hvalid hbefore

/-- **`rehash`**: the new table holds the same map, its keys are found, and no cell was used before
it is used now. -/
theorem Good.rehash_spec {newCapacity n : ℕ} (h : Good m map) (epoch : ℕ)
    (hcap : 3 ≤ n ∧ newCapacity = 2 ^ n) (hload : m.entries ≤ newCapacity - newCapacity / 4) :
    ∃ m', m.rehash epoch newCapacity = some m' ∧ Good m' map ∧ m'.Valid ∧ m'.Roomy ∧
      m'.capacity = newCapacity ∧ m'.gcEpoch = epoch ∧ m'.entries = m.entries := by
  have hbig : 8 ≤ newCapacity := by
    rw [hcap.2]
    exact Nat.pow_le_pow_right (by decide : 0 < 2) hcap.1
  -- the invariant of the loop: the cells so far are in the new table, without removed keys
  have hloop : ∀ k ≤ m.capacity, ∃ m', (List.range k).foldlM
      (fun newMap i =>
        match m.cells i with
        | .live key value => if newMap.overflow then none else newMap.put key value
        | _ => some newMap)
      (withCapacity newCapacity epoch) = some m' ∧ Good m' (below m.cells map k) ∧ m'.Valid ∧
      (∀ i < newCapacity, m'.cells i ≠ .deleted) ∧ m'.capacity = newCapacity ∧
      m'.gcEpoch = epoch ∧ m'.entries = liveCount k m.cells := by
    intro k
    induction k with
    | zero =>
      intro _
      refine ⟨withCapacity newCapacity epoch, rfl, ⟨.inr ⟨n, hcap⟩, ?_, ?_, Nat.zero_le _⟩, ?_, ?_,
        rfl, rfl, rfl⟩
      · rw [below_zero]
        exact ⟨by simp, by simp⟩
      · simp [liveCount]
      · intro i _ key value hcell
        simp at hcell
      · simp
    | succ k ih =>
      intro hk
      obtain ⟨m', hfold, hgood, hvalid, hdeleted, hcapacity, hepoch, hentries⟩ := ih (by omega)
      have hcount := liveCount_succ k m.cells
      rw [List.range_succ, List.foldlM_append, hfold]
      cases hcell : m.cells k with
      | live key value =>
        obtain ⟨hnone, hbelow⟩ := h.holds.below_succ_of_live (by omega) hcell
        have hle := liveCount_mono m.cells hk
        rw [hcount, hcell, ← h.entries] at hle
        simp only [Cell.weight] at hle
        have hlt : liveCount newCapacity m'.cells < newCapacity := by
          have he := hgood.entries
          rw [hcapacity] at he
          omega
        obtain ⟨m'', hput, hgood', hvalid', hcapacity', hepoch', hentries', hdeleted'⟩ :=
          hgood.put_spec hvalid key value fun _ =>
            ⟨by rw [Roomy, hcapacity]; exact exists_empty hdeleted hlt, by rw [hcapacity]; omega⟩
        have hover : m'.overflow = false := by
          simp only [overflow, decide_eq_false_iff_not]
          omega
        refine ⟨m'', ?_, hbelow ▸ hgood', hvalid', ?_, hcapacity'.trans hcapacity,
          hepoch'.trans hepoch, ?_⟩
        · simp [hcell, hover, hput]
        · rw [hcapacity] at hdeleted'
          exact hdeleted' hdeleted
        · rw [hentries', hnone, hcount, hcell, hentries]
          rfl
      | empty | deleted =>
        refine ⟨m', by simp [hcell], ?_, hvalid, hdeleted, hcapacity, hepoch, ?_⟩
        · have hbelow : below m.cells map (k + 1) = below m.cells map k :=
            funext fun _ => below_succ_of_ne (by simp [hcell])
          rwa [hbelow]
        · rw [hcount, hcell]
          exact hentries
  obtain ⟨m', hfold, hgood, hvalid, hdeleted, hcapacity, hepoch, hentries⟩ := hloop _ le_rfl
  rw [h.holds.below_capacity] at hgood
  rw [← h.entries] at hentries
  refine ⟨m', hfold, hgood, hvalid, ?_, hcapacity, hepoch, hentries⟩
  have he := hgood.entries
  rw [hcapacity] at he
  rw [Roomy, hcapacity]
  exact exists_empty hdeleted (by omega)

theorem capacityLoop_spec (entries fuel n : ℕ) (hn : 3 ≤ n)
    (hfuel : entries ≤ 2 ^ (n + fuel) - 2 ^ (n + fuel) / 4) :
    ∃ n', 3 ≤ n' ∧ capacityLoop entries fuel (2 ^ n) = 2 ^ n' ∧ entries ≤ 2 ^ n' - 2 ^ n' / 4 := by
  induction fuel generalizing n with
  | zero => exact ⟨n, hn, rfl, hfuel⟩
  | succ fuel ih =>
    unfold capacityLoop
    by_cases hmore : entries > 2 ^ n - 2 ^ n / 4
    · rw [if_pos hmore, ← Nat.pow_succ]
      refine ih (n + 1) (by omega) ?_
      rwa [Nat.add_right_comm, Nat.add_assoc]
    · rw [if_neg hmore]
      exact ⟨n, hn, rfl, not_lt.mp hmore⟩

theorem capacityForEntries_spec (entries : ℕ) :
    ∃ n, 3 ≤ n ∧ capacityForEntries entries = 2 ^ n ∧ entries ≤ 2 ^ n - 2 ^ n / 4 := by
  refine capacityLoop_spec entries entries 3 le_rfl ?_
  have hlt : entries < 2 ^ entries := Nat.lt_two_pow_self
  rw [Nat.pow_add]
  omega

theorem Good.eq_none_of_entries (h : Good m map) (hzero : m.entries = 0) (key : ℕ) :
    map key = none :=
  h.holds.eq_none (h.entries.symm.trans hzero) key

/-- What the operations find before they search: a table that holds the same map, in which keys are
found. -/
structure Settled (m' : ObjectHashMap V) (map : ℕ → Option V) (epoch : ℕ) : Prop where
  good : Good m' map
  valid : m'.Valid
  epoch : m'.gcEpoch = epoch

section

variable (h : Good m map) (hvalid : m.gcEpoch = epoch → m.Valid)
include h hvalid

theorem Good.maybeRehashOnGet_spec (hentries : m.entries ≠ 0) :
    ∃ m', m.maybeRehashOnGet epoch = some m' ∧ Settled m' map epoch ∧
      (m.gcEpoch ≠ epoch → m'.Roomy) ∧ (m.gcEpoch = epoch → m' = m) := by
  unfold maybeRehashOnGet invalidatedByGc
  by_cases hepoch : m.gcEpoch = epoch
  · refine ⟨m, by simp [hepoch], ⟨h, hvalid hepoch, hepoch⟩, ?_, fun _ => rfl⟩
    exact fun hne => absurd hepoch hne
  · have hcap : ∃ n, 3 ≤ n ∧ m.capacity = 2 ^ n := by
      refine h.capacity.resolve_left fun hcap => hentries ?_
      have hload := h.load
      omega
    obtain ⟨n, hcap⟩ := hcap
    obtain ⟨m', hrehash, hgood, hvalid', hroomy, -, hepoch', -⟩ := h.rehash_spec epoch hcap h.load
    refine ⟨m', by simp [hepoch, hrehash], ⟨hgood, hvalid', hepoch'⟩, fun _ => hroomy, ?_⟩
    exact fun heq => absurd heq hepoch

theorem Good.maybeRehashOnInsert_spec :
    ∃ m', m.maybeRehashOnInsert epoch = some m' ∧ Settled m' map epoch ∧
      m'.entries + 1 ≤ m'.capacity - m'.capacity / 4 ∧
      (m.capacity = 0 ∨ m.gcEpoch ≠ epoch ∨ m.Roomy → m'.Roomy) := by
  have hiff : (m.invalidatedByGc epoch || m.overflow) = true ↔
      m.gcEpoch ≠ epoch ∨ m.capacity - m.capacity / 4 < m.entries + 1 := by
    simp only [invalidatedByGc, overflow, Bool.or_eq_true, decide_eq_true_eq]
  by_cases hrehash : m.gcEpoch ≠ epoch ∨ m.capacity - m.capacity / 4 < m.entries + 1
  · obtain ⟨n, hn, hcap, hload⟩ := capacityForEntries_spec (m.entries + 1)
    obtain ⟨m', heq, hgood, hvalid', hroomy, hcapacity, hepoch, hentries⟩ :=
      h.rehash_spec epoch ⟨hn, hcap⟩ (by omega)
    refine ⟨m', ?_, ⟨hgood, hvalid', hepoch⟩, ?_, fun _ => hroomy⟩
    · rw [maybeRehashOnInsert, if_pos (by simpa only [hiff] using hrehash), heq]
    · rw [hentries, hcapacity, hcap]
      exact hload
  · push Not at hrehash
    refine ⟨m, ?_, ⟨h, hvalid hrehash.1, hrehash.1⟩, hrehash.2, ?_⟩
    · rw [maybeRehashOnInsert, if_neg]
      rw [hiff]
      exact not_or.mpr ⟨not_not.mpr hrehash.1, not_lt.mpr hrehash.2⟩
    · rintro (hcap | hepoch | hroomy)
      · have hover := hrehash.2
        omega
      · exact absurd hrehash.1 hepoch
      · exact hroomy

theorem Good.maybeRehashOnRemove_spec :
    ∃ m', m.maybeRehashOnRemove epoch = some m' ∧ Settled m' map epoch ∧
      (m.gcEpoch ≠ epoch ∨ m.entries < m.capacity / 4 ∨ m.Roomy → m'.Roomy) := by
  have hiff : (m.invalidatedByGc epoch || m.underflow) = true ↔
      m.gcEpoch ≠ epoch ∨ m.entries < m.capacity / 4 := by
    simp only [invalidatedByGc, underflow, Bool.or_eq_true, decide_eq_true_eq]
  by_cases hrehash : m.gcEpoch ≠ epoch ∨ m.entries < m.capacity / 4
  · obtain ⟨n, hn, hcap, hload⟩ := capacityForEntries_spec m.entries
    obtain ⟨m', heq, hgood, hvalid', hroomy, -, hepoch, -⟩ :=
      h.rehash_spec epoch ⟨hn, hcap⟩ (by omega)
    refine ⟨m', ?_, ⟨hgood, hvalid', hepoch⟩, fun _ => hroomy⟩
    rw [maybeRehashOnRemove, if_pos (by simpa only [hiff] using hrehash), heq]
  · push Not at hrehash
    refine ⟨m, ?_, ⟨h, hvalid hrehash.1, hrehash.1⟩, ?_⟩
    · rw [maybeRehashOnRemove, if_neg]
      rw [hiff]
      exact not_or.mpr ⟨not_not.mpr hrehash.1, not_lt.mpr hrehash.2⟩
    · rintro (hepoch | hunder | hroomy)
      · exact absurd hrehash.1 hepoch
      · exact absurd hunder (not_lt.mpr hrehash.2)
      · exact hroomy

/-- **`get`** returns what the map has for the key. A table that was built anew has room. -/
theorem Good.get_spec (key : ℕ)
    (hroom : map key = none → m.entries = 0 ∨ m.gcEpoch ≠ epoch ∨ m.Roomy) :
    ∃ m', m.get epoch key = some (map key, m') ∧ Good m' map ∧ (m'.gcEpoch = epoch → m'.Valid) ∧
      (m' = m ∨ m'.gcEpoch = epoch ∧ m'.Roomy) := by
  unfold get
  by_cases hzero : m.entries = 0
  · refine ⟨m, ?_, h, hvalid, .inl rfl⟩
    rw [if_pos hzero, h.eq_none_of_entries hzero]
  obtain ⟨m', hm', hsettled, hroomy, hsame⟩ := h.maybeRehashOnGet_spec hvalid hzero
  refine ⟨m', ?_, hsettled.good, fun _ => hsettled.valid, ?_⟩
  · rw [if_neg hzero, hm']
    cases hkey : map key with
    | some v =>
      obtain ⟨i, hi, hcell, hfind⟩ := hsettled.good.find_present hsettled.valid hkey
      simp [hfind, hcell]
    | none =>
      have hroomy' : m'.Roomy := by
        rcases hroom hkey with hentries | hepoch | hroomy'
        · exact absurd hentries hzero
        · exact hroomy hepoch
        · by_cases hepoch : m.gcEpoch = epoch
          · rwa [hsame hepoch]
          · exact hroomy hepoch
      obtain ⟨i, hi, hcell, hfind, -⟩ := hsettled.good.find_absent hroomy' hkey
      simp [hfind]
  · by_cases hepoch : m.gcEpoch = epoch
    · exact .inl (hsame hepoch)
    · exact .inr ⟨hsettled.epoch, hroomy hepoch⟩

/-- **`insert`** stores the value for the key. -/
theorem Good.insert_spec (key : ℕ) (value : V)
    (hroom : map key = none → m.capacity = 0 ∨ m.gcEpoch ≠ epoch ∨ m.Roomy) :
    ∃ m', m.insert epoch key value = some m' ∧ Settled m' (update map key (some value)) epoch := by
  obtain ⟨m', hm', hsettled, hload, hroomy⟩ := h.maybeRehashOnInsert_spec hvalid
  obtain ⟨m'', hput, hgood, hvalid'', -, hepoch, -, -⟩ :=
    hsettled.good.put_spec hsettled.valid key value fun hnone => ⟨hroomy (hroom hnone), hload⟩
  refine ⟨m'', ?_, hgood, hvalid'', hepoch.trans hsettled.epoch⟩
  unfold insert
  rw [hm']
  exact hput

/-- **`remove`** returns what the map has for the key, and forgets it. -/
theorem Good.remove_spec (key : ℕ)
    (hroom : map key = none → m.gcEpoch ≠ epoch ∨ m.entries < m.capacity / 4 ∨ m.Roomy) :
    ∃ m', m.remove epoch key = some (map key, m') ∧ Settled m' (update map key none) epoch := by
  obtain ⟨m', hm', hsettled, hroomy⟩ := h.maybeRehashOnRemove_spec hvalid
  unfold remove
  rw [hm']
  cases hkey : map key with
  | some v =>
    obtain ⟨i, hi, hcell, hfind⟩ := hsettled.good.find_present hsettled.valid hkey
    refine ⟨{ m' with cells := update m'.cells i .deleted, entries := m'.entries - 1 },
      by simp [hfind, hcell], ⟨hsettled.good.capacity, ?_, ?_, ?_⟩, hsettled.valid.erase,
      hsettled.epoch⟩
    · exact hsettled.good.holds.erase hi (by simp [hcell])
    · have hcount := liveCount_update m'.cells hi .deleted
      rw [hcell] at hcount
      simp only [Cell.weight] at hcount
      change m'.entries - 1 = liveCount m'.capacity (update m'.cells i .deleted)
      rw [hsettled.good.entries]
      omega
    · exact (Nat.sub_le _ _).trans hsettled.good.load
  | none =>
    obtain ⟨i, hi, hcell, hfind, -⟩ := hsettled.good.find_absent (hroomy (hroom hkey)) hkey
    refine ⟨m', by simp [hfind], ?_⟩
    have hsame : update map key none = map := by
      rw [← hkey]
      exact update_eq_self ..
    rwa [hsame]

end

/-- **Moving objects**: the keys of the map follow them. -/
theorem Good.moveKeys_spec (h : Good m map) {f : ℕ → ℕ} {map' : ℕ → Option V}
    (hinj : ∀ k k' v v', map k = some v → map k' = some v' → f k = f k' → k = k')
    (hmap : ∀ k' v, map' k' = some v ↔ ∃ k, f k = k' ∧ map k = some v) :
    Good (m.moveKeys f) map' := by
  have hkey : ∀ i < m.capacity, ∀ k', ((m.moveKeys f).cells i).key? = some k' →
      ∃ k v, f k = k' ∧ m.cells i = .live k v := by
    intro i _ k' hk'
    cases hcell : m.cells i with
    | live k v =>
      refine ⟨k, v, ?_, rfl⟩
      simpa [hcell] using hk'
    | _ => simp [hcell] at hk'
  refine ⟨h.capacity, ⟨fun k' v => ?_, ?_⟩, ?_, h.load⟩
  · rw [hmap]
    constructor
    · rintro ⟨k, rfl, hk⟩
      obtain ⟨i, hi, hcell⟩ := (h.holds.iff k v).mp hk
      exact ⟨i, hi, by simp [hcell]⟩
    · rintro ⟨i, hi, hcell'⟩
      obtain ⟨k, v', rfl, hcell⟩ := hkey i hi k' (by rw [hcell']; rfl)
      obtain rfl : v' = v := by simpa [hcell] using hcell'
      exact ⟨k, rfl, (h.holds.iff k v').mpr ⟨i, hi, hcell⟩⟩
  · intro i hi j hj k' hik hjk
    obtain ⟨k1, v1, hf1, h1⟩ := hkey i hi k' hik
    obtain ⟨k2, v2, hf2, h2⟩ := hkey j hj k' hjk
    obtain rfl : k1 = k2 :=
      hinj k1 k2 v1 v2 ((h.holds.iff k1 v1).mpr ⟨i, hi, h1⟩) ((h.holds.iff k2 v2).mpr ⟨j, hj, h2⟩)
        (hf1.trans hf2.symm)
    exact h.holds.unique i hi j hj k1 (by simp [h1]) (by simp [h2])
  · change m.entries = liveCount m.capacity (m.moveKeys f).cells
    rw [h.entries]
    refine Finset.sum_congr rfl fun i _ => ?_
    cases hcell : m.cells i <;> simp [hcell]

/-- The keys are found if no empty cell lies between the slot of the new address and the cell. -/
theorem Valid.moveKeys {f : ℕ → ℕ}
    (h : ∀ i < m.capacity, ∀ k v, m.cells i = .live k v →
      Before m.cells (path m.capacity (f k)) i) : (m.moveKeys f).Valid := by
  intro i hi k' v hcell'
  have hempty : ∀ j, m.cells j ≠ .empty → (m.moveKeys f).cells j ≠ .empty := by
    intro j hj
    cases hcell : m.cells j <;> simp_all
  cases hcell : m.cells i with
  | live k v' =>
    obtain ⟨rfl, -⟩ : f k = k' ∧ v' = v := by simpa [hcell] using hcell'
    exact (h i hi k v' hcell).mono hempty
  | _ => simp [hcell] at hcell'

end Specs

end ObjectHashMap

end Dora.Sync
