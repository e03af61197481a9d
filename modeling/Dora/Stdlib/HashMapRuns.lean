import Dora.Stdlib.HashMapSpec

/-!
# Sequences of operations on a hash map

A hash map refines a finite map: whatever an operation returns, the same operation on the finite map
returns it too. The operations that return are those that can be compiled and whose search ends.

## Main definitions

* `HashMap.Meets`, `HashSet.Meets`: what an operation means for a finite map and a finite set
* `HashMap.Finishes`: the operations that return

## Main results

* `HashMap.Good.exec_spec`, `HashMap.Good.exec_ne_returns`: what an operation does, and when it does
  not return
* `collections_refine`: sequences of operations refine those of finite maps and finite sets
* `exec_returns_iff`: when an operation on a reachable map returns
-/

namespace Dora.Stdlib

open Fueled (Ends)
open List Fueled HashMapIter HashMap

variable {K V : Type} [Key K]

/-! ## Iteration -/

namespace HashMap

variable {m : HashMap K V} {map : KeyClass K → Option V} {i : ℕ}

omit [Key K] in
/-- The entry in the slot `i`. -/
def entry (m : HashMap K V) (i : ℕ) : Option (K × V) :=
  if m.Inserted i ∧ ¬ m.Deleted i then do
    let key ← m.keys[i]?.join
    let value ← m.values[i]?.join
    return (key, value)
  else none

omit [Key K] in
/-- The entries in the slots from `i` on. -/
def entriesFrom (m : HashMap K V) (i : ℕ) : List (K × V) :=
  (List.range' i (m.cap - i)).filterMap m.entry

omit [Key K] in
theorem entriesFrom_of_le (hi : m.cap ≤ i) : m.entriesFrom i = [] := by
  rw [entriesFrom, Nat.sub_eq_zero_of_le hi]
  rfl

omit [Key K] in
theorem entriesFrom_of_lt (hi : i < m.cap) :
    m.entriesFrom i = (m.entry i).toList ++ m.entriesFrom (i + 1) := by
  obtain ⟨n, hn⟩ : ∃ n, m.cap - i = n + 1 := ⟨m.cap - i - 1, by omega⟩
  have hn' : m.cap - (i + 1) = n := by omega
  rw [entriesFrom, entriesFrom, hn, hn', List.range'_succ, filterMap_cons]
  cases m.entry i <;> rfl

theorem Shape.entry_cases (h : m.Shape) (hi : i < m.cap) :
    (∃ k v, m.entry i = some (k, v) ∧ m.cells i = .live ⟦k⟧ v ∧ m.isLive i = .returns true ∧
      getSlot m.keys i = .returns k ∧ getSlot m.values i = .returns v) ∨
    m.entry i = none ∧ (m.cells i).key? = none ∧ m.isLive i = .returns false := by
  have hiff := h.isLive_eq hi
  cases h.slot hi with
  | live k v cell isLive hkey hvalue =>
    rw [isLive, returns.injEq] at hiff
    refine .inl ⟨k, v, ?_, cell, isLive, getSlot_eq hkey, getSlot_eq hvalue⟩
    rw [entry, if_pos (of_decide_eq_true hiff.symm), hkey, hvalue]
    rfl
  | deleted cell isLive isDeleted | unused cell isLive isDeleted =>
    rw [isLive, returns.injEq] at hiff
    refine .inr ⟨if_neg (of_decide_eq_false hiff.symm), ?_, isLive⟩
    rw [cell]
    rfl

/-- `next` finds the next entry, or that there is none. -/
theorem Shape.next_spec (h : m.Shape) (n : ℕ) : ∀ i, m.cap - i = n →
    (∃ e j, i < j ∧ m.entriesFrom i = e :: m.entriesFrom j ∧ j ≤ m.cap ∧
      Ends (fun fuel => HashMapIter.next fuel ⟨m, i⟩) (some (e, ⟨m, j⟩))) ∨
    m.entriesFrom i = [] ∧ Ends (fun fuel => HashMapIter.next fuel ⟨m, i⟩) none := by
  induction n with
  | zero =>
    intro i hn
    refine .inr ⟨entriesFrom_of_le (by omega), ?_⟩
    refine (Ends.of_eq fun _ => rfl).succ rfl fun fuel => ?_
    rw [HashMapIter.next, if_neg (show ¬ i < m.cap by omega)]
    rfl
  | succ n ih =>
    intro i hn
    have hi : i < m.cap := by omega
    have hround : ∀ fuel, HashMapIter.next (fuel + 1) ⟨m, i⟩ = (do
        if ← m.isLive i then
          let key ← getSlot m.keys i
          let value ← getSlot m.values i
          return some ((key, value), ⟨m, i + 1⟩)
        else HashMapIter.next fuel ⟨m, i + 1⟩) := by
      intro fuel
      exact if_pos hi
    rcases h.entry_cases hi with ⟨k, v, hentry, -, hlive, hkey, hvalue⟩ | ⟨hentry, -, hlive⟩
    · refine .inl ⟨(k, v), i + 1, by omega, ?_, hi, ?_⟩
      · rw [entriesFrom_of_lt hi, hentry]
        rfl
      · refine (Ends.of_eq fun _ => rfl).succ rfl fun fuel => ?_
        rw [hround, hlive, hkey, hvalue]
        rfl
    · have hskip : m.entriesFrom i = m.entriesFrom (i + 1) := by
        rw [entriesFrom_of_lt hi, hentry]
        rfl
      have hsucc : ∀ fuel,
          HashMapIter.next (fuel + 1) ⟨m, i⟩ = HashMapIter.next fuel ⟨m, i + 1⟩ := by
        intro fuel
        rw [hround, hlive]
        rfl
      rw [hskip]
      rcases ih (i + 1) (by omega) with ⟨e, j, hlt, hentries, hj, hends⟩ | ⟨hentries, hends⟩
      · exact .inl ⟨e, j, by omega, hentries, hj, hends.succ rfl hsucc⟩
      · exact .inr ⟨hentries, hends.succ rfl hsucc⟩

omit [Key K] in
theorem collect_succ (fuel : ℕ) (it : HashMapIter K V) :
    collect (fuel + 1) it = (do
      match ← it.next fuel with
      | some (entry, it) => return entry :: (← it.collect fuel)
      | none => return []) := rfl

omit [Key K] in
theorem collect_of_none {it : HashMapIter K V}
    (hnext : Ends (fun fuel => HashMapIter.next fuel it) none) :
    Ends (fun fuel => collect fuel it) [] := by
  refine Ends.succ ?_ rfl fun fuel => collect_succ fuel it
  exact hnext.bind (.of_eq fun _ => rfl)

omit [Key K] in
theorem collect_of_some {it it' : HashMapIter K V} {e : K × V} {rest : List (K × V)}
    (hnext : Ends (fun fuel => HashMapIter.next fuel it) (some (e, it')))
    (hrest : Ends (fun fuel => collect fuel it') rest) :
    Ends (fun fuel => collect fuel it) (e :: rest) := by
  refine Ends.succ ?_ rfl fun fuel => collect_succ fuel it
  refine hnext.bind ?_
  exact hrest.map (e :: ·)

/-- **Iteration** visits the slots in turn. -/
theorem Shape.collect_spec (h : m.Shape) (n : ℕ) : ∀ i, m.cap - i ≤ n →
    Ends (fun fuel => collect fuel ⟨m, i⟩) (m.entriesFrom i) := by
  induction n with
  | zero =>
    intro i hn
    rcases h.next_spec _ i rfl with ⟨e, j, hlt, -, hj, -⟩ | ⟨hentries, hends⟩
    · omega
    · rw [hentries]
      exact collect_of_none hends
  | succ n ih =>
    intro i hn
    rcases h.next_spec _ i rfl with ⟨e, j, hlt, hentries, hj, hends⟩ | ⟨hentries, hends⟩
    · rw [hentries]
      exact collect_of_some hends (ih j (by omega))
    · rw [hentries]
      exact collect_of_none hends

/-! ## The entries of a good map -/

omit [Key K] in
theorem mem_entriesFrom_zero {e : K × V} :
    e ∈ m.entriesFrom 0 ↔ ∃ i < m.cap, m.entry i = some e := by
  rw [entriesFrom, mem_filterMap]
  refine exists_congr fun i => and_congr_left fun _ => ?_
  rw [mem_range'_1]
  omega

namespace Good

theorem mem_entries_iff (h : Good m map) (q : KeyClass K) (v : V) :
    map q = some v ↔ ∃ k, (k, v) ∈ m.entriesFrom 0 ∧ ⟦k⟧ = q := by
  rw [h.holds.iff]
  constructor
  · rintro ⟨i, hi, hcell⟩
    rcases h.shape.entry_cases hi with ⟨k, v', hentry, hlive, -⟩ | ⟨-, hkey, -⟩
    · rw [hlive, Cell.live.injEq] at hcell
      obtain ⟨rfl, rfl⟩ := hcell
      exact ⟨k, mem_entriesFrom_zero.mpr ⟨i, hi, hentry⟩, rfl⟩
    · rw [hcell] at hkey
      cases hkey
  · rintro ⟨k, hmem, rfl⟩
    obtain ⟨i, hi, hentry⟩ := mem_entriesFrom_zero.mp hmem
    rcases h.shape.entry_cases hi with ⟨k', v', hentry', hlive, -⟩ | ⟨hnone, -⟩
    · rw [hentry, Option.some.injEq, Prod.mk.injEq] at hentry'
      exact ⟨i, hi, by rw [hlive, hentry'.1, hentry'.2]⟩
    · rw [hnone] at hentry
      cases hentry

theorem nodup_entries (h : Good m map) (n : ℕ) : ∀ i, m.cap - i = n →
    ((m.entriesFrom i).map fun e => (⟦e.1⟧ : KeyClass K)).Nodup ∧
      ∀ e ∈ m.entriesFrom i, ∃ j, i ≤ j ∧ j < m.cap ∧ (m.cells j).key? = some ⟦e.1⟧ := by
  induction n with
  | zero =>
    intro i hn
    rw [entriesFrom_of_le (by omega)]
    exact ⟨nodup_nil, forall_mem_nil _⟩
  | succ n ih =>
    intro i hn
    have hi : i < m.cap := by omega
    obtain ⟨hnodup, hcells⟩ := ih (i + 1) (by omega)
    have hlater : ∀ e ∈ m.entriesFrom (i + 1),
        ∃ j, i ≤ j ∧ j < m.cap ∧ (m.cells j).key? = some ⟦e.1⟧ := by
      intro e he
      obtain ⟨j, hij, hj, hkey⟩ := hcells e he
      exact ⟨j, by omega, hj, hkey⟩
    rw [entriesFrom_of_lt hi]
    rcases h.shape.entry_cases hi with ⟨k, v, hentry, hlive, -⟩ | ⟨hentry, -, -⟩
    · rw [hentry]
      refine ⟨nodup_cons.mpr ⟨fun hmem => ?_, hnodup⟩, forall_mem_cons.mpr ⟨?_, hlater⟩⟩
      · -- the key would be in two slots
        obtain ⟨e, he, heq⟩ := mem_map.mp hmem
        obtain ⟨j, hij, hj, hkey⟩ := hcells e he
        rw [heq] at hkey
        have := h.holds.unique i hi j hj ⟦k⟧ (by rw [hlive]; rfl) hkey
        omega
      · exact ⟨i, Nat.le_refl i, hi, by rw [hlive]; rfl⟩
    · rw [hentry]
      exact ⟨hnodup, hlater⟩

theorem length_entries (h : Good m map) (n : ℕ) : ∀ i, i + n = m.cap →
    (m.entriesFrom i).length + liveCount i m.cells = liveCount m.cap m.cells := by
  induction n with
  | zero =>
    intro i hn
    rw [entriesFrom_of_le (by omega), ← hn]
    exact Nat.zero_add _
  | succ n ih =>
    intro i hn
    have hi : i < m.cap := by omega
    have hrest := ih (i + 1) (by omega)
    rw [liveCount_succ] at hrest
    rw [entriesFrom_of_lt hi]
    rcases h.shape.entry_cases hi with ⟨k, v, hentry, hlive, -⟩ | ⟨hentry, hkey, -⟩
    · rw [hlive, Cell.weight] at hrest
      rw [hentry, Option.toList_some, singleton_append, length_cons]
      omega
    · rw [Cell.weight_of_key?_eq_none hkey] at hrest
      rw [hentry, Option.toList_none, nil_append]
      omega

/-- **The size** is the number of keys. -/
theorem size_spec (h : Good m map) :
    ∃ keys : Finset (KeyClass K), (∀ q, q ∈ keys ↔ (map q).isSome) ∧ m.size = keys.card := by
  have hnodup := (h.nodup_entries _ 0 rfl).1
  refine ⟨⟨Multiset.ofList _, hnodup⟩, fun q => ?_, ?_⟩
  · rw [Option.isSome_iff_exists]
    change q ∈ (m.entriesFrom 0).map _ ↔ _
    rw [mem_map]
    constructor
    · rintro ⟨⟨k, v⟩, hmem, rfl⟩
      exact ⟨v, (h.mem_entries_iff _ v).mpr ⟨k, hmem, rfl⟩⟩
    · rintro ⟨v, hv⟩
      obtain ⟨k, hmem, hk⟩ := (h.mem_entries_iff q v).mp hv
      exact ⟨(k, v), hmem, hk⟩
  · have hlength := h.length_entries m.cap 0 (Nat.zero_add _)
    change m.entries = ((m.entriesFrom 0).map _).length
    rw [length_map, h.entries, ← hlength]
    rfl

end Good

/-! ## Operations -/

/-- An operation of a finite map: its result, and the map afterwards. -/
def Meets (map : KeyClass K → Option V) : Op K V → Result K V → (KeyClass K → Option V) → Prop
  | .insert key value, r, map' =>
    r = .value (map ⟦key⟧) ∧ map' = Function.update map ⟦key⟧ (some value)
  | .get key, r, map' => r = .value (map ⟦key⟧) ∧ map' = map
  | .contains key, r, map' => r = .bool (map ⟦key⟧).isSome ∧ map' = map
  | .remove key, r, map' => r = .value (map ⟦key⟧) ∧ map' = Function.update map ⟦key⟧ none
  | .size, r, map' =>
    (∃ keys : Finset (KeyClass K), (∀ q, q ∈ keys ↔ (map q).isSome) ∧ r = .size keys.card) ∧
      map' = map
  | .iterate, r, map' =>
    (∃ l, r = .entries l ∧ (l.map fun e => (⟦e.1⟧ : KeyClass K)).Nodup ∧
      ∀ q v, map q = some v ↔ ∃ k, (k, v) ∈ l ∧ ⟦k⟧ = q) ∧
      map' = map

/-- A sequence of operations of a finite map. -/
def MeetsAll (map : KeyClass K → Option V) :
    List (Op K V) → List (Result K V) → (KeyClass K → Option V) → Prop
  | [], [], map' => map' = map
  | op :: ops, r :: results, map' => ∃ map1, Meets map op r map1 ∧ MeetsAll map1 ops results map'
  | _, _, _ => False

variable [Element K] [Element V]

/-- **The operations that finish.** A search ends if the key is there, or if a slot was never used
since the last rehash. An insertion may rehash before, and so may a removal; the other two do not
search in an empty map. A removal kills the references of a key and of a value. -/
def Finishes (m : HashMap K V) : Op K V → Prop
  | .insert key _ => m.fits 1 = false ∨ m.Present key ∨ m.Roomy
  | .get key | .contains key => m.entries = 0 ∨ m.Present key ∨ m.Roomy
  | .remove key =>
    (elementType K).killable ∧ (elementType V).killable ∧
      (m.keeps = false ∨ m.Present key ∨ m.Roomy)
  | .size | .iterate => True

namespace Good

variable {op : Op K V} {fuel : ℕ}

/-- **An operation that finishes** is one of the finite map. -/
theorem exec_spec (h : Good m map) (hop : m.Finishes op) :
    ∃ r m' map', Ends (fun fuel => m.exec fuel op) (r, m') ∧ Good m' map' ∧
      Meets map op r map' := by
  cases op with
  | insert key value =>
    obtain ⟨m', hends, hgood⟩ := h.insert_spec key value hop
    exact ⟨_, m', _, hends.bind (.of_eq fun _ => rfl), hgood, rfl, rfl⟩
  | get key =>
    refine ⟨_, m, map, ?_, h, rfl, rfl⟩
    exact (h.get_spec key hop).map fun r => (Result.value r, m)
  | contains key =>
    refine ⟨_, m, map, ?_, h, rfl, rfl⟩
    exact (h.contains_spec key hop).map fun r => (Result.bool r, m)
  | remove key =>
    obtain ⟨hkeys, hvalues, hsearch⟩ := hop
    obtain ⟨m', hends, hgood⟩ := h.remove_spec key hkeys hvalues hsearch
    exact ⟨_, m', _, hends.bind (.of_eq fun _ => rfl), hgood, rfl, rfl⟩
  | size =>
    obtain ⟨keys, hkeys, hsize⟩ := h.size_spec
    exact ⟨_, m, map, .of_eq fun _ => rfl, h, ⟨keys, hkeys, congrArg Result.size hsize⟩, rfl⟩
  | iterate =>
    refine ⟨_, m, map, ?_, h, ⟨_, rfl, (h.nodup_entries _ 0 rfl).1, h.mem_entries_iff⟩, rfl⟩
    exact (h.shape.collect_spec _ 0 (Nat.le_refl _)).map fun r => (Result.entries r, m)

/-- **An operation that does not finish** runs on, or it traps. -/
theorem exec_ne_returns (h : Good m map) (hop : ¬ m.Finishes op) (fuel : ℕ)
    (x : Result K V × HashMap K V) : m.exec fuel op ≠ .returns x := by
  cases op with
  | insert key value =>
    obtain ⟨hfits, habsent, hfull⟩ := by simpa only [Finishes, not_or] using hop
    rw [exec, h.insert_running (Bool.eq_true_of_not_eq_false hfits) habsent hfull]
    rintro ⟨⟩
  | get key =>
    obtain ⟨hentries, habsent, hfull⟩ := by simpa only [Finishes, not_or] using hop
    rw [exec, h.get_running hentries habsent hfull]
    rintro ⟨⟩
  | contains key =>
    obtain ⟨hentries, habsent, hfull⟩ := by simpa only [Finishes, not_or] using hop
    rw [exec, h.contains_running hentries habsent hfull]
    rintro ⟨⟩
  | remove key =>
    intro hreturns
    obtain ⟨y, hy, -⟩ := bind_eq_returns.mp hreturns
    obtain ⟨hkeys, hvalues⟩ := killable_of_remove hy
    refine hop ⟨hkeys, hvalues, ?_⟩
    by_contra hsearch
    obtain ⟨hkeeps, habsent, hfull⟩ := by simpa only [not_or] using hsearch
    exact h.remove_ne_returns (Bool.eq_true_of_not_eq_false hkeeps) habsent hfull fuel y hy
  | size | iterate => exact absurd trivial hop

theorem exec_meets (h : Good m map) {r : Result K V} {m' : HashMap K V}
    (hexec : m.exec fuel op = .returns (r, m')) : ∃ map', Good m' map' ∧ Meets map op r map' := by
  by_cases hop : m.Finishes op
  · obtain ⟨r', m1, map', hends, hgood, hmeets⟩ := h.exec_spec hop
    obtain ⟨rfl, rfl⟩ := Prod.mk.inj (hends.eq_of_returns hexec)
    exact ⟨map', hgood, hmeets⟩
  · exact absurd hexec (h.exec_ne_returns hop fuel _)

/-- **A run** of operations that return. -/
theorem run_meets {ops : List (Op K V)} {results : List (Result K V)}
    {m m' : HashMap K V} {map : KeyClass K → Option V} (h : Good m map)
    (hrun : m.run fuel ops = .returns (results, m')) :
    ∃ map', Good m' map' ∧ MeetsAll map ops results map' := by
  induction ops generalizing m map results with
  | nil =>
    obtain ⟨rfl, rfl⟩ := Prod.mk.inj (returns.inj hrun)
    exact ⟨map, h, rfl⟩
  | cons op ops ih =>
    obtain ⟨⟨r, m1⟩, hexec, hrest⟩ := bind_eq_returns.mp hrun
    obtain ⟨⟨rs, m2⟩, hrun', hpair⟩ := bind_eq_returns.mp hrest
    obtain ⟨rfl, rfl⟩ := Prod.mk.inj (returns.inj hpair)
    obtain ⟨map1, hgood1, hmeets⟩ := h.exec_meets hexec
    obtain ⟨map', hgood', hall⟩ := ih hgood1 hrun'
    exact ⟨map', hgood', map1, hmeets, hall⟩

omit [Element K] [Element V] in
theorem new : Good (new : HashMap K V) fun _ => none := good_withCapacity (.inl rfl)

end Good

end HashMap

/-! ## Sets -/

namespace HashSet

variable {map : KeyClass K → Option Unit} {fuel : ℕ}

/-- An operation of a finite set: its result, and the set afterwards. -/
def Meets (set : Set (KeyClass K)) : SetOp K → SetResult → Set (KeyClass K) → Prop
  | .insert key, r, set' => r = .unit ∧ set' = {⟦key⟧} ∪ set
  | .contains key, r, set' => (∃ b, r = .bool b ∧ (b = true ↔ ⟦key⟧ ∈ set)) ∧ set' = set
  | .remove key, r, set' => (∃ b, r = .bool b ∧ (b = true ↔ ⟦key⟧ ∈ set)) ∧ set' = set \ {⟦key⟧}
  | .size, r, set' =>
    (∃ keys : Finset (KeyClass K), (∀ q, q ∈ keys ↔ q ∈ set) ∧ r = .size keys.card) ∧ set' = set

/-- A sequence of operations of a finite set. -/
def MeetsAll (set : Set (KeyClass K)) : List (SetOp K) → List SetResult → Set (KeyClass K) → Prop
  | [], [], set' => set' = set
  | op :: ops, r :: results, set' => ∃ set1, Meets set op r set1 ∧ MeetsAll set1 ops results set'
  | _, _, _ => False

/-- The keys of a map. -/
def keys (map : KeyClass K → Option Unit) : Set (KeyClass K) := {q | (map q).isSome}

theorem keys_insert (map : KeyClass K → Option Unit) (q : KeyClass K) :
    keys (Function.update map q (some ())) = {q} ∪ keys map := by
  ext p
  by_cases hp : p = q
  · simp [keys, hp]
  · simp [keys, hp]

theorem keys_remove (map : KeyClass K → Option Unit) (q : KeyClass K) :
    keys (Function.update map q none) = keys map \ {q} := by
  ext p
  by_cases hp : p = q
  · simp [keys, hp]
  · simp [keys, hp]

variable [Element K]

theorem exec_meets {s s' : HashSet K} (h : s.map.Good map)
    {op : SetOp K} {r : SetResult} (hexec : s.exec fuel op = .returns (r, s')) :
    ∃ map', s'.map.Good map' ∧ Meets (keys map) op r (keys map') := by
  cases op with
  | insert key =>
    obtain ⟨s1, hinsert, hpair⟩ := bind_eq_returns.mp hexec
    obtain ⟨rfl, rfl⟩ := Prod.mk.inj (returns.inj hpair)
    obtain ⟨⟨old, m⟩, hmap, hset⟩ := bind_eq_returns.mp hinsert
    obtain rfl := returns.inj hset
    have hop : s.map.exec fuel (.insert key ()) = .returns (.value old, m) := by
      rw [HashMap.exec, hmap]
      rfl
    obtain ⟨map', hgood, -, rfl⟩ := h.exec_meets hop
    exact ⟨_, hgood, rfl, keys_insert map ⟦key⟧⟩
  | contains key =>
    obtain ⟨b, hcontains, hpair⟩ := bind_eq_returns.mp hexec
    obtain ⟨rfl, rfl⟩ := Prod.mk.inj (returns.inj hpair)
    have hop : s.map.exec fuel (.contains key) = .returns (.bool b, s.map) := by
      rw [HashMap.exec, show s.map.contains fuel key = .returns b from hcontains]
      rfl
    obtain ⟨map', hgood, hb, rfl⟩ := h.exec_meets hop
    exact ⟨_, hgood, ⟨b, rfl, by rw [Result.bool.inj hb]; rfl⟩, rfl⟩
  | remove key =>
    obtain ⟨⟨b, s1⟩, hremove, hpair⟩ := bind_eq_returns.mp hexec
    obtain ⟨rfl, rfl⟩ := Prod.mk.inj (returns.inj hpair)
    obtain ⟨⟨old, m⟩, hmap, hset⟩ := bind_eq_returns.mp hremove
    obtain ⟨rfl, rfl⟩ := Prod.mk.inj (returns.inj hset)
    have hop : s.map.exec fuel (.remove key) = .returns (.value old, m) := by
      rw [HashMap.exec, hmap]
      rfl
    obtain ⟨map', hgood, hold, rfl⟩ := h.exec_meets hop
    exact ⟨_, hgood, ⟨_, rfl, by rw [Result.value.inj hold]; rfl⟩, keys_remove map ⟦key⟧⟩
  | size =>
    obtain ⟨rfl, rfl⟩ := Prod.mk.inj (returns.inj hexec)
    obtain ⟨l, hl, hsize⟩ := h.size_spec
    exact ⟨map, h, ⟨l, hl, congrArg SetResult.size hsize⟩, rfl⟩

theorem run_meets {ops : List (SetOp K)} {results : List SetResult} {s s' : HashSet K}
    (h : s.map.Good map) (hrun : s.run fuel ops = .returns (results, s')) :
    ∃ map', s'.map.Good map' ∧ MeetsAll (keys map) ops results (keys map') := by
  induction ops generalizing s map results with
  | nil =>
    obtain ⟨rfl, rfl⟩ := Prod.mk.inj (returns.inj hrun)
    exact ⟨map, h, rfl⟩
  | cons op ops ih =>
    obtain ⟨⟨r, s1⟩, hexec, hrest⟩ := bind_eq_returns.mp hrun
    obtain ⟨⟨rs, s2⟩, hrun', hpair⟩ := bind_eq_returns.mp hrest
    obtain ⟨rfl, rfl⟩ := Prod.mk.inj (returns.inj hpair)
    obtain ⟨map1, hgood1, hmeets⟩ := exec_meets h hexec
    obtain ⟨map', hgood', hall⟩ := ih hgood1 hrun'
    exact ⟨map', hgood', keys map1, hmeets, hall⟩

end HashSet

/-! ## Main results -/

/-- **Maps and sets refine finite maps and finite sets**: in every sequence of operations on a new
one, whatever the operations return, the mathematical operations return too. -/
theorem collections_refine {K V : Type} [Key K] [Element K] [Element V] (fuel : ℕ) :
    (∀ (ops : List (Op K V)) results m, new.run fuel ops = .returns (results, m) →
      ∃ map, HashMap.MeetsAll (fun _ => none) ops results map) ∧
    ∀ (ops : List (SetOp K)) results s, HashSet.new.run fuel ops = .returns (results, s) →
      ∃ set, HashSet.MeetsAll ∅ ops results set := by
  refine ⟨fun ops results m hrun => ?_, fun ops results s hrun => ?_⟩
  · obtain ⟨map, -, hall⟩ := HashMap.Good.new.run_meets hrun
    exact ⟨map, hall⟩
  · obtain ⟨map, -, hall⟩ := HashSet.run_meets HashMap.Good.new hrun
    have hempty : HashSet.keys (K := K) (fun _ => none) = ∅ := by
      simp [HashSet.keys]
    rw [hempty] at hall
    exact ⟨_, hall⟩

/-- The map grows twice and shrinks once. -/
def mapOps : List (Op (BitVec 32) (BitVec 64)) :=
  [.insert 3 7, .insert 3 8, .get 3, .insert 4 1, .insert 7 2, .insert 8 3, .insert 9 4, .remove 4,
    .contains 4, .iterate, .remove 3, .remove 7, .remove 8, .size, .iterate]

def mapResults : List (Result (BitVec 32) (BitVec 64)) :=
  [.value none, .value (some 7), .value (some 8), .value none, .value none, .value none,
    .value none,
    .value (some 1), .bool false, .entries [(8, 3), (9, 4), (3, 8), (7, 2)], .value (some 8),
    .value (some 2), .value (some 3), .size 1, .entries [(9, 4)]]

/-- The set grows twice. -/
def setOps : List (SetOp (BitVec 32)) :=
  [.insert 5, .contains 5, .insert 6, .insert 9, .insert 1, .size, .remove 5, .contains 5]

theorem collections_refine_int32 :
    (∃ m, new.run 20 mapOps = .returns (mapResults, m) ∧
      ∃ map, HashMap.MeetsAll (fun _ => none) mapOps mapResults map) ∧
    ∃ results s, HashSet.new.run 20 setOps = .returns (results, s) ∧
      ∃ set, HashSet.MeetsAll ∅ setOps results set := by
  have hmap : (new.run 20 mapOps >>= fun x => assert (x.1 = mapResults)) = .returns () := by
    decide +kernel
  have hset : (HashSet.new.run 20 setOps >>= fun x =>
      assert (x.1 = [.unit, .bool true, .unit, .unit,
      .unit, .size 4, .bool true, .bool false])) = .returns () := by decide +kernel
  obtain ⟨⟨results, m⟩, hrun, hresults⟩ := exists_of_check hmap
  obtain rfl := of_decide_eq_true hresults
  obtain ⟨⟨results', s⟩, hrun', -⟩ := exists_of_check hset
  exact ⟨⟨m, hrun, (collections_refine 20).1 _ _ m hrun⟩,
    results', s, hrun', (collections_refine (V := Unit) 20).2 _ results' s hrun'⟩

/-- **Operations finish** on a reachable map under this condition only. -/
theorem exec_returns_iff {K V : Type} [Key K] [Element K] [Element V] {fuel : ℕ}
    {ops : List (Op K V)} {results : List (Result K V)} {m : HashMap K V}
    (hrun : new.run fuel ops = .returns (results, m)) (op : Op K V) :
    (∃ fuel x, m.exec fuel op = .returns x) ↔ m.Finishes op := by
  obtain ⟨map, hgood, -⟩ := HashMap.Good.new.run_meets hrun
  constructor
  · rintro ⟨fuel', x, hexec⟩
    by_contra hop
    exact hgood.exec_ne_returns hop fuel' x hexec
  · intro hop
    obtain ⟨r, m', map', hends, -, -⟩ := hgood.exec_spec hop
    obtain ⟨fuel', hexec⟩ := hends.exists_returns
    exact ⟨fuel', _, hexec⟩

/-- The map has shrunk, so a slot is unused. -/
theorem exec_returns_iff_int32 : ∃ results m, new.run 20 mapOps = .returns (results, m) ∧
    ((∃ fuel x, m.exec fuel (.remove 4) = .returns x) ↔ m.Finishes (.remove 4)) ∧
    m.Finishes (.remove 4) := by
  have hcheck : (new.run 20 mapOps >>= fun x => assert (∃ i < x.2.cap,
      ¬ x.2.Inserted i ∧ ¬ x.2.Deleted i)) = .returns () := by decide +kernel
  obtain ⟨⟨results, m⟩, hrun, hend⟩ := exists_of_check hcheck
  have hroomy := of_decide_eq_true hend
  exact ⟨results, m, hrun, exec_returns_iff hrun _, rfl, rfl, .inr (.inr hroomy)⟩

/-- For a map with optional numbers `remove` cannot be compiled. -/
example (m : HashMap (BitVec 32) (Option (BitVec 64))) (fuel : ℕ) (key : BitVec 32) :
    m.exec fuel (.remove key) = .trap := rfl

/-- Four entries come and go. -/
def churn : List (Op (BitVec 32) Unit) :=
  [.insert 0 (), .remove 0, .insert 1 (), .remove 1, .insert 2 (), .remove 2, .insert 3 (),
    .remove 3]

/-- **An insertion without end**: after `churn` the map is empty and has a capacity of four, so it
does not grow, but the deleted bits of all four slots are set. -/
theorem insert_after_churn : ∃ results m, new.run 10 churn = .returns (results, m) ∧
    ∀ fuel x, m.exec fuel (.insert 4 ()) ≠ .returns x := by
  have hcheck : (new.run 10 churn >>= fun x => assert (x.2.entries = 0 ∧
      x.2.fits 1 = true ∧ ∀ i < x.2.cap, x.2.Deleted i)) = .returns () := by decide +kernel
  obtain ⟨⟨results, m⟩, hrun, hend⟩ := exists_of_check hcheck
  obtain ⟨hentries, hfits, hdeleted⟩ := of_decide_eq_true hend
  obtain ⟨map, hgood, -⟩ := HashMap.Good.new.run_meets hrun
  refine ⟨results, m, hrun, hgood.exec_ne_returns ?_⟩
  rintro (hnot | hpresent | ⟨i, hi, -, hdel⟩)
  · rw [hfits] at hnot
    cases hnot
  · exact hgood.not_present (hgood.eq_none_of_entries hentries _) hpresent
  · exact hdel (hdeleted i hi)

end Dora.Stdlib
