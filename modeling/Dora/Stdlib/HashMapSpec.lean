import Dora.Stdlib.HashMapCells

/-!
# What the operations of a hash map do

## Main definitions

* `HashMap.Good`: the map holds a finite map of classes of equal keys, each found along its path

## Main results

* `insert_spec`, `remove_spec`, `get_spec`, `contains_spec`: an operation ends in a good map
* `insert_running`, `remove_ne_returns`, `get_running`: unless it searches a full table for a key
  that is not there
-/

namespace Dora.Stdlib

open Function (update update_eq_self update_of_ne update_self)
open Fueled

open Words (Mem)
open Fueled (Ends)

namespace HashMap

variable {K V : Type} [Key K] {m : HashMap K V} {i : ℕ}

/-! ## Writing a slot -/

section Slots

variable {bits : BitSet} {key : K} {value : V} (entries : ℕ)

theorem cells_write (key : K) (value : V) (entries : ℕ) (hi : i < m.cap) (h : m.Shape)
    (hbits : ∀ o, Mem bits.data o ↔ o ≠ 2 * i + 1 ∧ (o = 2 * i ∨ Mem m.insertedAndDeleted.data o)) :
    cells ⟨bits, m.keys.set i (some key), m.values.set i (some value), entries, m.cap⟩ =
      update m.cells i (.live ⟦key⟧ value) := by
  funext j
  by_cases hj : j = i
  · subst hj
    have hdel : ¬ Mem bits.data (2 * j + 1) := fun hc => ((hbits _).mp hc).1 rfl
    have hins : Mem bits.data (2 * j) := (hbits _).mpr ⟨by omega, .inl rfl⟩
    rw [update_self]
    exact cells_of_live hins hdel (List.getElem?_set_self (by rw [h.keys]; exact hi))
      (List.getElem?_set_self (by rw [h.values]; exact hi))
  · have hdel : Mem bits.data (2 * j + 1) ↔ m.Deleted j :=
      (hbits _).trans ⟨fun hc => hc.2.resolve_left (by omega), fun hc => ⟨by omega, .inr hc⟩⟩
    have hins : Mem bits.data (2 * j) ↔ m.Inserted j :=
      (hbits _).trans ⟨fun hc => hc.2.resolve_left (by omega), fun hc => ⟨by omega, .inr hc⟩⟩
    rw [update_of_ne hj]
    exact cells_congr hins hdel (List.getElem?_set_ne (Ne.symm hj))
      (List.getElem?_set_ne (Ne.symm hj))

omit [Key K] in
theorem Shape.write (h : m.Shape) (hi : i < m.cap)
    (hcap : bits.capacity = m.insertedAndDeleted.capacity)
    (hbits : ∀ o, Mem bits.data o ↔ o ≠ 2 * i + 1 ∧ (o = 2 * i ∨ Mem m.insertedAndDeleted.data o)) :
    Shape ⟨bits, m.keys.set i (some key), m.values.set i (some value), entries, m.cap⟩ := by
  refine ⟨h.capacity, hcap.trans h.bits, (List.length_set ..).trans h.keys,
    (List.length_set ..).trans h.values, fun j hj hins hdel => ?_⟩
  by_cases hji : j = i
  · subst hji
    exact ⟨⟨key, List.getElem?_set_self (by rw [h.keys]; exact hi)⟩, value,
      List.getElem?_set_self (by rw [h.values]; exact hi)⟩
  · have hins' : m.Inserted j := ((hbits _).mp hins).2.resolve_left (by omega)
    have hdel' : ¬ m.Deleted j := fun hc => hdel ((hbits _).mpr ⟨by omega, .inr hc⟩)
    obtain ⟨⟨k, hk⟩, v, hv⟩ := h.live j hj hins' hdel'
    exact ⟨⟨k, (List.getElem?_set_ne (Ne.symm hji)).trans hk⟩, v,
      (List.getElem?_set_ne (Ne.symm hji)).trans hv⟩

theorem cells_kill (storesKey storesValue : Bool)
    (hbits : ∀ o, Mem bits.data o ↔ o = 2 * i + 1 ∨ Mem m.insertedAndDeleted.data o) :
    cells ⟨bits, killRefs storesKey m.keys i, killRefs storesValue m.values i, entries, m.cap⟩ =
      update m.cells i .deleted := by
  funext j
  by_cases hj : j = i
  · subst hj
    have hdel : Mem bits.data (2 * j + 1) := (hbits _).mpr (.inl rfl)
    rw [update_self]
    exact if_pos hdel
  · have hdel : Mem bits.data (2 * j + 1) ↔ m.Deleted j :=
      (hbits _).trans ⟨fun hc => hc.resolve_left (by omega), .inr⟩
    have hins : Mem bits.data (2 * j) ↔ m.Inserted j :=
      (hbits _).trans ⟨fun hc => hc.resolve_left (by omega), .inr⟩
    rw [update_of_ne hj]
    exact cells_congr hins hdel (getElem?_killRefs_ne (Ne.symm hj) storesKey)
      (getElem?_killRefs_ne (Ne.symm hj) storesValue)

omit [Key K] in
theorem Shape.kill (h : m.Shape) (storesKey storesValue : Bool)
    (hcap : bits.capacity = m.insertedAndDeleted.capacity)
    (hbits : ∀ o, Mem bits.data o ↔ o = 2 * i + 1 ∨ Mem m.insertedAndDeleted.data o) :
    Shape ⟨bits, killRefs storesKey m.keys i, killRefs storesValue m.values i, entries, m.cap⟩ := by
  refine ⟨h.capacity, hcap.trans h.bits, (length_killRefs ..).trans h.keys,
    (length_killRefs ..).trans h.values, fun j hj hins hdel => ?_⟩
  have hji : j ≠ i := fun hc => hdel ((hbits _).mpr (.inl (by rw [hc])))
  have hins' : m.Inserted j := ((hbits _).mp hins).resolve_left (by omega)
  have hdel' : ¬ m.Deleted j := fun hc => hdel ((hbits _).mpr (.inr hc))
  obtain ⟨⟨k, hk⟩, v, hv⟩ := h.live j hj hins' hdel'
  exact ⟨⟨k, (getElem?_killRefs_ne hji.symm storesKey).trans hk⟩, v,
    (getElem?_killRefs_ne hji.symm storesValue).trans hv⟩

theorem cells_replace (value : V) (h : m.Shape) (hi : i < m.cap) {old : V} {q : KeyClass K}
    (hcell : m.cells i = .live q old) :
    cells { m with values := m.values.set i (some value) } = update m.cells i (.live q value) := by
  funext j
  by_cases hj : j = i
  · subst hj
    cases h.slot hi with
    | deleted cell | unused cell => rw [cell] at hcell; cases hcell
    | live k v cell isLive key' value' =>
      rw [cell, Cell.live.injEq] at hcell
      rw [h.isLive_eq hi] at isLive
      obtain ⟨hins, hdel⟩ := of_decide_eq_true (returns.inj isLive)
      rw [update_self, ← hcell.1]
      exact cells_of_live hins hdel key' (List.getElem?_set_self (by rw [h.values]; exact hi))
  · rw [update_of_ne hj]
    exact cells_congr Iff.rfl Iff.rfl rfl (List.getElem?_set_ne (Ne.symm hj))

omit [Key K] in
theorem Shape.replace (h : m.Shape) (hi : i < m.cap) :
    Shape { m with values := m.values.set i (some value) } := by
  refine ⟨h.capacity, h.bits, h.keys, (List.length_set ..).trans h.values, fun j hj hins hdel => ?_⟩
  obtain ⟨hk, v, hv⟩ := h.live j hj hins hdel
  refine ⟨hk, ?_⟩
  by_cases hji : j = i
  · subst hji
    exact ⟨value, List.getElem?_set_self (by rw [h.values]; exact hi)⟩
  · exact ⟨v, (List.getElem?_set_ne (Ne.symm hji)).trans hv⟩

end Slots

/-! ## Good maps -/

/-- **A good map** holds the finite map, finds every key, and counts its entries. -/
structure Good (m : HashMap K V) (map : KeyClass K → Option V) : Prop where
  shape : m.Shape
  holds : Holds m.cap m.cells map
  probed : Probed m.cap (path m.cap) m.cells
  entries : m.entries = liveCount m.cap m.cells

variable {map : KeyClass K → Option V} {key : K} {value : V}

theorem cells_withCapacity (cap i : ℕ) : (withCapacity cap : HashMap K V).cells i = .empty := by
  have hdel : ¬ (withCapacity cap : HashMap K V).Deleted i := BitSet.not_mem_new _ _
  have hins : ¬ (withCapacity cap : HashMap K V).Inserted i := BitSet.not_mem_new _ _
  rw [cells, if_neg hdel, if_neg hins]

theorem good_withCapacity {cap : ℕ} (hcap : cap = 0 ∨ ∃ n, cap = 2 ^ (n + 2)) :
    Good (withCapacity cap : HashMap K V) fun _ => none := by
  have hcell := cells_withCapacity (K := K) (V := V) cap
  refine ⟨⟨hcap, rfl, List.length_replicate, List.length_replicate, ?_⟩, ⟨?_, ?_⟩, ?_, ?_⟩
  · intro i _ hins
    exact absurd hins (BitSet.not_mem_new _ _)
  · intro q v
    refine ⟨nofun, ?_⟩
    rintro ⟨i, -, hlive⟩
    rw [hcell] at hlive
    cases hlive
  · intro i _ j _ q hkey
    rw [hcell] at hkey
    cases hkey
  · intro i _ q v hlive
    rw [hcell] at hlive
    cases hlive
  · refine (Finset.sum_eq_zero fun i _ => ?_).symm
    rw [hcell]
    rfl

namespace Good

section

variable (h : Good m map)
include h

theorem present_iff : m.Present key ↔ ∃ v, map ⟦key⟧ = some v := by
  rw [HashMap.present_iff h.shape, h.holds.key?_iff]

theorem not_present (hmap : map ⟦key⟧ = none) : ¬ m.Present key := by
  intro hpresent
  obtain ⟨v, hv⟩ := h.present_iff.mp hpresent
  rw [hmap] at hv
  cases hv

theorem entries_le : m.entries ≤ m.cap := by
  rw [h.entries]
  exact liveCount_le m.cap m.cells

theorem find_found (hmap : map ⟦key⟧ = some value) :
    ∃ i < m.cap, m.cells i = .live ⟦key⟧ value ∧ Ends (fun fuel => m.find fuel key) (.found i) := by
  obtain ⟨i, hi, hcell⟩ := (h.holds.iff _ _).mp hmap
  have hcap : 0 < m.cap := by omega
  have hunique : ∀ j ∈ path m.cap ⟦key⟧, (m.cells j).key? = some ⟦key⟧ → j = i := by
    intro j hj hkey
    exact h.holds.unique j ((mem_path hcap _).mp hj) i hi _ hkey (by rw [hcell]; rfl)
  have hsearch := search_of_live hcell hunique (h.probed i hi _ _ hcell) none
  obtain ⟨p, hp, hends⟩ := probe_ends h.shape key (start_lt hcap _) hsearch
  obtain rfl : p = .found i := hp
  refine ⟨i, hi, hcell, ?_⟩
  simp only [find_eq h.shape hcap]
  exact hends

theorem find_unused (hmap : map ⟦key⟧ = none) (hroomy : m.Roomy) :
    ∃ i < m.cap, (m.cells i).key? = none ∧ Before m.cells (path m.cap ⟦key⟧) i ∧
      ∃ j insertIdx, insertIdx.getD j = (i : ℤ) ∧
        Ends (fun fuel => m.find fuel key) (.unused j insertIdx) := by
  obtain ⟨l, hl, hempty⟩ := (roomy_iff h.shape).mp hroomy
  have hcap : 0 < m.cap := by omega
  have habsent : ∀ j ∈ path m.cap ⟦key⟧, (m.cells j).key? ≠ some ⟦key⟧ := by
    intro j hj hkey
    obtain ⟨v, hv⟩ := h.holds.key?_iff.mpr ⟨j, (mem_path hcap _).mp hj, hkey⟩
    rw [hmap] at hv
    cases hv
  obtain ⟨i, hsearch, hi⟩ := search_of_absent habsent ⟨l, (mem_path hcap _).mpr hl, hempty⟩ none
  obtain ⟨hmem, hkey, hbefore⟩ := hi.resolve_left nofun
  obtain ⟨p, ⟨j, insertIdx, rfl, hidx⟩, hends⟩ := probe_ends h.shape key (start_lt hcap _) hsearch
  refine ⟨i, (mem_path hcap _).mp hmem, hkey, hbefore, j, insertIdx, hidx, ?_⟩
  simp only [find_eq h.shape hcap]
  exact hends

/-- The search for an absent key does not end if every slot was used. -/
theorem find_running (hcap : 0 < m.cap) (habsent : ¬ m.Present key) (hfull : ¬ m.Roomy) (fuel : ℕ) :
    m.find fuel key = .running := by
  rw [find_eq h.shape hcap]
  exact probe_running h.shape key hfull habsent (start_lt hcap _) fuel none

end

/-! ## Writing and removing an entry -/

/-- **An entry is written** if the search ends. -/
theorem put_spec (h : Good m map) (key : K) (value : V) (hlt : m.entries < m.cap)
    (hends : m.Present key ∨ m.Roomy) :
    ∃ m', Ends (fun fuel => m.put fuel key value) (map ⟦key⟧, m') ∧
      Good m' (update map ⟦key⟧ (some value)) ∧ m'.cap = m.cap ∧
      (map ⟦key⟧ = none → m'.entries = m.entries + 1) ∧
      ∃ i < m.cap, m'.cells = update m.cells i (.live ⟦key⟧ value) := by
  have hassert : decide (m.entries < m.cap) = true := decide_eq_true hlt
  unfold put
  simp only [hassert]
  cases hmap : map ⟦key⟧ with
  | some old =>
    obtain ⟨i, hi, hcell, hfind⟩ := h.find_found hmap
    have hcells := cells_replace value h.shape hi hcell
    refine ⟨{ m with values := m.values.set i (some value) }, hfind.bind (.of_eq fun _ => ?_),
      ⟨h.shape.replace hi, ?_, ?_, ?_⟩, rfl, nofun, i, hi, hcells⟩
    · have hslot := h.shape.values_of_cell hi hcell
      simp only [getSlot_eq hslot, setSlot_eq (by rw [h.shape.values]; exact hi),
        returns_bind, pure_eq]
    · rw [hcells]
      exact h.holds.set hi (.inl (by rw [hcell]; rfl))
    · rw [hcells]
      exact h.probed.set (h.probed i hi _ _ hcell)
    · have hcount := liveCount_update m.cells hi (.live ⟦key⟧ value)
      rw [hcell] at hcount
      rw [hcells]
      exact h.entries.trans (Nat.add_right_cancel hcount).symm
  | none =>
    have hroomy := hends.resolve_left (h.not_present hmap)
    obtain ⟨i, hi, hkey, hbefore, j, insertIdx, hidx, hfind⟩ := h.find_unused hmap hroomy
    have hbit : 2 * i + 1 < m.insertedAndDeleted.capacity := by rw [h.shape.bits]; omega
    obtain ⟨inserted, hinsert, hcapacity, hmem⟩ := BitSet.exists_insert (Nat.lt_of_succ_lt hbit)
    obtain ⟨bits, hremove, hcapacity', hmem'⟩ := BitSet.exists_remove (hbit.trans_eq hcapacity.symm)
    have hbits : ∀ o, Mem bits.data o ↔
        o ≠ 2 * i + 1 ∧ (o = 2 * i ∨ Mem m.insertedAndDeleted.data o) := by
      intro o
      rw [hmem', hmem]
    have hcells := cells_write key value (m.entries + 1) hi h.shape hbits
    refine ⟨⟨bits, m.keys.set i (some key), m.values.set i (some value), m.entries + 1, m.cap⟩,
      hfind.bind (.of_eq fun _ => ?_),
      ⟨h.shape.write _ hi (hcapacity'.trans hcapacity) hbits, ?_, ?_, ?_⟩, rfl, fun _ => rfl, i,
      hi, hcells⟩
    · have hcast : 2 * (i : ℤ) = (2 * i : ℕ) := by omega
      have hcast' : ((2 * i : ℕ) : ℤ) + 1 = (2 * i + 1 : ℕ) := by omega
      simp only [hidx, hcast, hinsert, hcast', hremove, setSlot_eq (by rw [h.shape.keys]; exact hi),
        setSlot_eq (by rw [h.shape.values]; exact hi),
        ofOption_some, returns_bind, pure_eq]
    · rw [hcells]
      exact h.holds.set hi (.inr ⟨hkey, hmap⟩)
    · rw [hcells]
      exact h.probed.set hbefore
    · have hcount := liveCount_update m.cells hi (.live ⟦key⟧ value)
      have hweight : (m.cells i).weight = 0 := Cell.weight_of_key?_eq_none hkey
      rw [hweight] at hcount
      rw [hcells]
      exact (congrArg (· + 1) h.entries).trans hcount.symm

/-- **An entry is removed** if the search ends. -/
theorem take_spec (h : Good m map) (storesKey storesValue : Bool) (key : K)
    (hends : m.Present key ∨ m.Roomy) :
    ∃ m', Ends (fun fuel => m.take storesKey storesValue fuel key) (map ⟦key⟧, m') ∧
      Good m' (update map ⟦key⟧ none) := by
  cases hmap : map ⟦key⟧ with
  | some old =>
    obtain ⟨i, hi, hcell, hfind⟩ := h.find_found hmap
    have hbit : 2 * i + 1 < m.insertedAndDeleted.capacity := by rw [h.shape.bits]; omega
    obtain ⟨bits, hinsert, hcapacity, hbits⟩ := BitSet.exists_insert hbit
    have hcells := cells_kill (m.entries - 1) storesKey storesValue hbits
    refine ⟨⟨bits, killRefs storesKey m.keys i, killRefs storesValue m.values i, m.entries - 1,
      m.cap⟩, hfind.bind (.of_eq fun _ => ?_), h.shape.kill _ _ _ hcapacity hbits, ?_, ?_, ?_⟩
    · have hslot := h.shape.values_of_cell hi hcell
      have hcast : 2 * (i : ℤ) + 1 = (2 * i + 1 : ℕ) := by omega
      simp only [getSlot_eq hslot, hcast, hinsert, Int.toNat_natCast, ofOption_some, returns_bind,
        pure_eq]
    · rw [hcells]
      exact h.holds.erase hi (by rw [hcell]; rfl)
    · rw [hcells]
      exact h.probed.erase
    · have hcount := liveCount_update m.cells hi .deleted
      rw [hcell] at hcount
      rw [hcells]
      rw [h.entries]
      exact Nat.sub_eq_of_eq_add hcount.symm
  | none =>
    have hroomy := hends.resolve_left (h.not_present hmap)
    obtain ⟨-, -, -, -, j, insertIdx, -, hfind⟩ := h.find_unused hmap hroomy
    refine ⟨m, hfind.bind (.of_eq fun _ => rfl), ?_⟩
    rwa [← hmap, update_eq_self]

/-! ## A new table -/

omit [Key K] in
theorem fits_iff : m.fits 1 = true ↔ m.entries + 1 < m.cap ∧ m.entries ≤ m.cap - m.cap / 4 := by
  rw [fits, Bool.and_eq_true, decide_eq_true_iff, decide_eq_true_iff]

theorem insert_of_fits (hfits : m.fits 1 = true) (fuel : ℕ) (key : K) (value : V) :
    m.insert (fuel + 1) key value = m.put fuel key value := by
  rw [insert, ensureCapacity, if_pos hfits]
  rfl

/-- What holds of the new table when the first `k` slots have been visited. -/
structure Rehashed (m : HashMap K V) (map : KeyClass K → Option V) (newCapacity k : ℕ)
    (newMap : HashMap K V) : Prop where
  good : Good newMap (below m.cells map k)
  capacity : newMap.cap = newCapacity
  entries : newMap.entries = liveCount k m.cells
  fresh : ∀ j < newCapacity, newMap.cells j ≠ .deleted

variable {newMap : HashMap K V} {newCapacity k : ℕ}

theorem Rehashed.roomy (h : Rehashed m map newCapacity k newMap)
    (hlt : newMap.entries < newCapacity) :
    newMap.Roomy := by
  refine (roomy_iff h.good.shape).mpr ?_
  rw [h.capacity]
  refine exists_empty h.fresh ?_
  rw [← h.capacity, ← h.good.entries, h.capacity]
  exact hlt

theorem Rehashed.start {n : ℕ} (hcap : newCapacity = 2 ^ (n + 2)) :
    Rehashed m map newCapacity 0 (withCapacity newCapacity) := by
  refine ⟨?_, rfl, rfl, fun j _ hc => ?_⟩
  · rw [below_zero]
    exact good_withCapacity (.inr ⟨n, hcap⟩)
  · rw [cells_withCapacity] at hc
    cases hc

theorem Rehashed.skip (h : Rehashed m map newCapacity k newMap) (hkey : (m.cells k).key? = none) :
    Rehashed m map newCapacity (k + 1) newMap := by
  have hbelow : below m.cells map (k + 1) = below m.cells map k := by
    funext q
    exact below_succ_of_ne (by rw [hkey]; nofun)
  refine ⟨?_, h.capacity, ?_, h.fresh⟩
  · rw [hbelow]
    exact h.good
  · rw [liveCount_succ, Cell.weight_of_key?_eq_none hkey, Nat.add_zero, h.entries]

/-- **A slot is moved.** -/
theorem Rehashed.step (h : Good m map) (hcap : 4 ≤ newCapacity)
    (hle : m.entries ≤ newCapacity - newCapacity / 4) (hk : k < m.cap)
    (hnew : Rehashed m map newCapacity k newMap) :
    ∃ newMap', Ends (fun fuel => m.moveSlot (insert fuel) newMap k) newMap' ∧
      Rehashed m map newCapacity (k + 1) newMap' := by
  unfold moveSlot
  cases h.shape.slot hk with
  | deleted cell isLive | unused cell isLive =>
    refine ⟨newMap, .of_eq fun fuel => ?_, hnew.skip (by rw [cell]; rfl)⟩
    rw [isLive]
    rfl
  | live key value cell isLive hkey hvalue =>
    -- the new table has fewer entries than the old one, so it does not grow
    have hcount : liveCount (k + 1) m.cells = liveCount k m.cells + 1 := by
      rw [liveCount_succ, cell]
      rfl
    have hmono := liveCount_mono m.cells (Nat.succ_le_of_lt hk)
    rw [← h.entries, Nat.succ_eq_add_one, hcount, ← hnew.entries] at hmono
    have hfits : newMap.fits 1 = true := by
      rw [fits_iff, hnew.capacity]
      omega
    obtain ⟨hnone, hbelow⟩ := h.holds.below_succ_of_live hk cell
    obtain ⟨newMap', hends, hgood, hcapacity, hentries, i, -, hcells⟩ :=
      hnew.good.put_spec key value (by rw [hnew.capacity]; omega) (.inr (hnew.roomy (by omega)))
    have hinsert := hends.succ (y := fun fuel => newMap.insert fuel key value) rfl
      fun fuel => insert_of_fits hfits fuel key value
    have hgood' : Good newMap' (below m.cells map (k + 1)) := by
      rw [hbelow]
      exact hgood
    refine ⟨newMap', ?_, hgood', hcapacity.trans hnew.capacity, ?_, fun j hj => ?_⟩
    · simp only [isLive, getSlot_eq hkey, getSlot_eq hvalue]
      exact hinsert.bind (.of_eq fun _ => rfl)
    · rw [hentries hnone, hcount, hnew.entries]
    · rw [hcells]
      by_cases hji : j = i
      · rw [hji, update_self]
        nofun
      · rw [update_of_ne hji]
        exact hnew.fresh j hj

/-- **The live entries are moved**: the new table holds the same map, and it has room. -/
theorem rehash_spec (h : Good m map) {n : ℕ} (hcap : newCapacity = 2 ^ (n + 2))
    (hle : m.entries ≤ newCapacity - newCapacity / 4) :
    ∃ m', Ends (fun fuel => m.rehash (insert fuel) newCapacity) m' ∧ Good m' map ∧
      m'.entries < m'.cap ∧ m'.Roomy := by
  have hpos : 4 ≤ newCapacity := by
    have := Nat.two_pow_pos n
    rw [hcap, Nat.pow_add]
    omega
  obtain ⟨m', hends, hm'⟩ := Ends.foldlM (Rehashed m map newCapacity)
    (fun k hk newMap hnew => hnew.step h hpos hle hk) (.start hcap)
  -- the new map has the capacity already
  have hcopy : ({ m' with cap := newCapacity } : HashMap K V) = m' := by rw [← hm'.capacity]
  refine ⟨m', hends.bind (.of_eq fun _ => congrArg returns hcopy), ?_, ?_, hm'.roomy ?_⟩
  · rw [← h.holds.below_capacity]
    exact hm'.good
  · rw [hm'.entries, hm'.capacity, ← h.entries]
    omega
  · rw [hm'.entries, ← h.entries]
    omega

theorem ensureCapacity_spec (h : Good m map) :
    ∃ m', Ends (fun fuel => m.ensureCapacity (insert fuel) 1) m' ∧ Good m' map ∧
      m'.entries < m'.cap ∧ (m.fits 1 = true → m' = m) ∧ (m.fits 1 = false → m'.Roomy) := by
  unfold ensureCapacity
  cases hfits : m.fits 1 with
  | true =>
    have hlt := (fits_iff.mp hfits).1
    exact ⟨m, .of_eq fun _ => rfl, h, by omega, fun _ => rfl, nofun⟩
  | false =>
    have hle := h.entries_le
    obtain ⟨n, hn⟩ : ∃ n, (if m.cap > 0 then m.cap * 2 else 4) = 2 ^ (n + 2) := by
      rcases h.shape.capacity with hcap | ⟨n, hcap⟩
      · exact ⟨0, if_neg (by omega)⟩
      · refine ⟨n + 1, ?_⟩
        rw [if_pos (by rw [hcap]; exact Nat.two_pow_pos _), hcap]
        exact (Nat.pow_succ ..).symm
    obtain ⟨newCapacity, hnew⟩ : ∃ newCapacity, newCapacity = if m.cap > 0 then m.cap * 2 else 4 :=
      ⟨_, rfl⟩
    have hfour : 4 ≤ m.cap ∨ m.cap = 0 := by
      rcases h.shape.capacity with hcap | ⟨n, hcap⟩
      · exact .inr hcap
      · rw [hcap, Nat.pow_add]
        omega
    rw [← hnew] at hn
    have hbounds : m.entries + 1 < newCapacity ∧ m.entries ≤ newCapacity - newCapacity / 4 := by
      rw [hnew]
      split <;> omega
    obtain ⟨m', hends, hgood, hlt, hroomy⟩ := h.rehash_spec hn hbounds.2
    refine ⟨m', ?_, hgood, hlt, nofun, fun _ => hroomy⟩
    simp only [← hnew, decide_eq_true hbounds.1]
    exact hends

omit [Key K] in
theorem keeps_eq_false_iff : m.keeps = false ↔ m.entries ≤ m.cap / 4 ∧ 4 ≤ m.cap / 2 := by
  rw [keeps, Bool.or_eq_false_iff, decide_eq_false_iff_not, decide_eq_false_iff_not, Nat.not_lt,
    Nat.not_lt]

theorem shrink_spec (h : Good m map) :
    ∃ m', Ends (fun fuel => m.shrink (insert fuel)) m' ∧ Good m' map ∧
      (m.keeps = true → m' = m) ∧ (m.keeps = false → m'.Roomy) := by
  unfold shrink
  cases hkeeps : m.keeps with
  | true => exact ⟨m, .of_eq fun _ => rfl, h, fun _ => rfl, nofun⟩
  | false =>
    obtain ⟨hle, hfour⟩ := keeps_eq_false_iff.mp hkeeps
    obtain ⟨n, hn⟩ : ∃ n, m.cap / 2 = 2 ^ (n + 2) := by
      rcases h.shape.capacity with hcap | ⟨n, hcap⟩
      · omega
      · cases n with
        | zero => omega
        | succ n => exact ⟨n, by rw [hcap, Nat.pow_succ]; omega⟩
    obtain ⟨m', hends, hgood, -, hroomy⟩ := h.rehash_spec hn (by omega)
    refine ⟨m', ?_, hgood, nofun, fun _ => hroomy⟩
    have hassert : m.entries < m.cap / 2 := by omega
    simp only [decide_eq_true hassert]
    exact hends

/-! ## Operations -/

section

variable (h : Good m map)
include h

/-- **Insertion** ends if the table grows, or if the search ends. -/
theorem insert_spec (key : K) (value : V) (hends : m.fits 1 = false ∨ m.Present key ∨ m.Roomy) :
    ∃ m', Ends (fun fuel => m.insert fuel key value) (map ⟦key⟧, m') ∧
      Good m' (update map ⟦key⟧ (some value)) := by
  obtain ⟨m1, hensure, hgood, hlt, hsame, hnew⟩ := h.ensureCapacity_spec
  have hends1 : m1.Present key ∨ m1.Roomy := by
    cases hfits : m.fits 1 with
    | true =>
      rw [hsame hfits]
      exact hends.resolve_left (by rw [hfits]; nofun)
    | false => exact .inr (hnew hfits)
  obtain ⟨m', hput, hgood', -⟩ := hgood.put_spec key value hlt hends1
  exact ⟨m', (hensure.bind hput).succ rfl fun _ => rfl, hgood'⟩

theorem insert_running (hfits : m.fits 1 = true) (habsent : ¬ m.Present key) (hfull : ¬ m.Roomy)
    (fuel : ℕ) : m.insert fuel key value = .running := by
  cases fuel with
  | zero => rfl
  | succ fuel =>
    have hlt : m.entries < m.cap := by
      have := (fits_iff.mp hfits).1
      omega
    rw [insert_of_fits hfits, put, h.find_running (by omega) habsent hfull, decide_eq_true hlt]
    rfl

theorem cap_pos (hentries : m.entries ≠ 0) : 0 < m.cap := by
  have := h.entries_le
  omega

theorem assert_entries : assert (decide (m.entries ≤ m.cap)) = .returns () := by
  rw [decide_eq_true h.entries_le]
  rfl

theorem eq_none_of_entries (hzero : m.entries = 0) (q : KeyClass K) :
    map q = none := h.holds.eq_none (h.entries.symm.trans hzero) q

theorem get_spec (key : K) (hends : m.entries = 0 ∨ m.Present key ∨ m.Roomy) :
    Ends (fun fuel => m.get fuel key) (map ⟦key⟧) := by
  unfold get
  simp only [h.assert_entries]
  by_cases hzero : m.entries = 0
  · simp only [if_pos hzero]
    exact .of_eq fun _ => by rw [h.eq_none_of_entries hzero]; rfl
  · simp only [if_neg hzero]
    cases hmap : map ⟦key⟧ with
    | some v =>
      obtain ⟨i, hi, hcell, hfind⟩ := h.find_found hmap
      refine hfind.bind (.of_eq fun _ => ?_)
      simp only [getSlot_eq (h.shape.values_of_cell hi hcell)]
      rfl
    | none =>
      have hroomy := (hends.resolve_left hzero).resolve_left (h.not_present hmap)
      obtain ⟨-, -, -, -, j, insertIdx, -, hfind⟩ := h.find_unused hmap hroomy
      exact hfind.bind (.of_eq fun _ => rfl)

theorem get_running (hentries : m.entries ≠ 0) (habsent : ¬ m.Present key) (hfull : ¬ m.Roomy)
    (fuel : ℕ) : m.get fuel key = .running := by
  rw [get, h.assert_entries, returns_bind, if_neg hentries,
    h.find_running (h.cap_pos hentries) habsent hfull]
  rfl

theorem contains_spec (key : K) (hends : m.entries = 0 ∨ m.Present key ∨ m.Roomy) :
    Ends (fun fuel => m.contains fuel key) (map ⟦key⟧).isSome := by
  unfold contains
  simp only [h.assert_entries]
  by_cases hzero : m.entries = 0
  · simp only [if_pos hzero]
    exact .of_eq fun _ => by rw [h.eq_none_of_entries hzero]; rfl
  · simp only [if_neg hzero]
    cases hmap : map ⟦key⟧ with
    | some v =>
      obtain ⟨i, hi, hcell, hfind⟩ := h.find_found hmap
      exact hfind.bind (.of_eq fun _ => rfl)
    | none =>
      have hroomy := (hends.resolve_left hzero).resolve_left (h.not_present hmap)
      obtain ⟨-, -, -, -, j, insertIdx, -, hfind⟩ := h.find_unused hmap hroomy
      exact hfind.bind (.of_eq fun _ => rfl)

theorem contains_running (hentries : m.entries ≠ 0) (habsent : ¬ m.Present key) (hfull : ¬ m.Roomy)
    (fuel : ℕ) : m.contains fuel key = .running := by
  rw [contains, h.assert_entries, returns_bind, if_neg hentries,
    h.find_running (h.cap_pos hentries) habsent hfull]
  rfl

variable [Element K] [Element V]

/-- **Removal** ends if it can be compiled, and if the table shrinks or the search ends. -/
theorem remove_spec (key : K) (hkeys : (elementType K).killable)
    (hvalues : (elementType V).killable) (hends : m.keeps = false ∨ m.Present key ∨ m.Roomy) :
    ∃ m', Ends (fun fuel => m.remove fuel key) (map ⟦key⟧, m') ∧
      Good m' (update map ⟦key⟧ none) := by
  obtain ⟨storesKey, hkey, -⟩ := exists_emitUnsafeKillRefs hkeys
  obtain ⟨storesValue, hvalue, -⟩ := exists_emitUnsafeKillRefs hvalues
  obtain ⟨m1, hshrink, hgood, hsame, hnew⟩ := h.shrink_spec
  have hends1 : m1.Present key ∨ m1.Roomy := by
    cases hkeeps : m.keeps with
    | true =>
      rw [hsame hkeeps]
      exact hends.resolve_left (by rw [hkeeps]; nofun)
    | false => exact .inr (hnew hkeeps)
  obtain ⟨m', htake, hgood'⟩ := hgood.take_spec storesKey storesValue key hends1
  refine ⟨m', ?_, hgood'⟩
  simp only [remove, hkey, hvalue, ofOption_some, returns_bind]
  exact hshrink.bind htake

omit h in
theorem killable_of_remove {fuel : ℕ} {r : Option V × HashMap K V}
    (hremove : m.remove fuel key = .returns r) :
    (elementType K).killable ∧ (elementType V).killable := by
  obtain ⟨storesKey, hkey, hrest⟩ := bind_eq_returns.mp hremove
  obtain ⟨storesValue, hvalue, -⟩ := bind_eq_returns.mp hrest
  exact ⟨killable_of_emit (ofOption_eq_returns.mp hkey),
    killable_of_emit (ofOption_eq_returns.mp hvalue)⟩

/-- **Removal that does not end**, and a trap in a table without slots. -/
theorem remove_ne_returns (hkeeps : m.keeps = true) (habsent : ¬ m.Present key) (hfull : ¬ m.Roomy)
    (fuel : ℕ) (r : Option V × HashMap K V) :
    m.remove fuel key ≠ .returns r := by
  intro hremove
  obtain ⟨storesKey, -, hrest⟩ := bind_eq_returns.mp hremove
  obtain ⟨storesValue, -, htake⟩ := bind_eq_returns.mp hrest
  rw [shrink, if_pos hkeeps] at htake
  change m.take storesKey storesValue fuel key = _ at htake
  revert htake
  rw [take]
  rcases Nat.eq_zero_or_pos m.cap with hcap | hcap
  · cases fuel with
    | zero => rintro ⟨⟩
    | succ fuel =>
      have hbits : m.insertedAndDeleted.capacity = 0 := by rw [h.shape.bits, hcap]
      rw [find, probe, isLive, BitSet.contains_of_capacity_eq_zero hbits]
      rintro ⟨⟩
  · rw [h.find_running hcap habsent hfull]
    rintro ⟨⟩

end

end Good

end HashMap

end Dora.Stdlib
