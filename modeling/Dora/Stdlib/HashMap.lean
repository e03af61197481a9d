import Mathlib.Data.Int.Bitwise
import Dora.Lib.Fueled
import Dora.Stdlib.Arrays
import Dora.Stdlib.BitSet

/-!
# Hash maps

`HashMap` and `HashSet` of the standard library. For each slot a bit set has one bit for a key that
was inserted and one for a key that was deleted. The loops that look for a key end when they find it
or a slot with neither bit. Numbers are unbounded, since no array is large enough for an `Int64` to
overflow. A slot that was never written, or whose references were killed, is `none`.

## Main definitions

* `HashMap`, `HashMapIter`, `HashSet`: with `insert`, `contains`, `get` and `remove`
* `HashMap.probe`: the loop that looks for a key
* `HashMap.rehash`: the move into a table of another capacity
* `HashMap.run`, `HashSet.run`: sequences of operations
-/

namespace Dora.Stdlib

/-- A lawful key type: `equals` is an equivalence, and equal keys have equal hashes. -/
class Key (K : Type) where
  hash : K → BitVec 32
  equals : K → K → Bool
  equals_refl : ∀ k, equals k k = true
  equals_symm : ∀ {k k'}, equals k k' = true → equals k' k = true
  equals_trans : ∀ {k k' k''}, equals k k' = true → equals k' k'' = true → equals k k'' = true
  hash_eq : ∀ {k k'}, equals k k' = true → hash k = hash k'

/-- `Int32` as a key: its hash is the number itself. -/
instance : Key (BitVec 32) where
  hash key := key
  equals key other := key == other
  equals_refl _ := beq_self_eq_true _
  equals_symm h := beq_iff_eq.mpr (beq_iff_eq.mp h).symm
  equals_trans h h' := beq_iff_eq.mpr ((beq_iff_eq.mp h).trans (beq_iff_eq.mp h'))
  hash_eq h := beq_iff_eq.mp h

/-- `Array::get` of a slot that holds a value. -/
def getSlot {α : Type} (array : List (Option α)) (idx : ℤ) : Fueled α :=
  if 0 ≤ idx then .ofOption (array[idx.toNat]?.join) else .trap

/-- `Array::set`. -/
def setSlot {α : Type} (array : List (Option α)) (idx : ℤ) (value : Option α) :
    Fueled (List (Option α)) :=
  if 0 ≤ idx ∧ idx < array.length then .returns (array.set idx.toNat value) else .trap

structure HashMap (K V : Type) where
  insertedAndDeleted : BitSet
  keys : List (Option K)
  values : List (Option V)
  entries : ℕ
  cap : ℕ

/-- Where a search ends: at the slot of the key, or at an unused slot, with the first slot of a
deleted key on the way. -/
inductive Probe
  | found (idx : ℤ)
  | unused (idx : ℤ) (insertIdx : Option ℤ)
deriving DecidableEq

namespace HashMap

variable {K V : Type}

/-- A table of the given capacity without entries. -/
def withCapacity (cap : ℕ) : HashMap K V :=
  ⟨BitSet.new (2 * cap), List.replicate cap none, List.replicate cap none, 0, cap⟩

def new : HashMap K V := withCapacity 0

variable (m : HashMap K V)

def isLive (idx : ℤ) : Fueled Bool := do
  if ← .ofOption (m.insertedAndDeleted.contains (2 * idx)) then
    let deleted ← Fueled.ofOption (m.insertedAndDeleted.contains (2 * idx + 1))
    return !deleted
  else return false

def isDeleted (idx : ℤ) : Fueled Bool := .ofOption (m.insertedAndDeleted.contains (2 * idx + 1))

/-- `x & (cap - 1)`. -/
def mask (x : ℤ) : ℤ := x.land (m.cap - 1)

variable [Key K]

/-- The loops of `insert`, `contains`, `get` and `remove`. -/
def probe (key : K) : ℕ → ℤ → Option ℤ → Fueled Probe
  | 0, _, _ => .running
  | fuel + 1, idx, insertIdx => do
    if ← m.isLive idx then
      let currentKey ← getSlot m.keys idx
      if Key.hash currentKey = Key.hash key ∧ Key.equals currentKey key then
        return .found idx
      else probe key fuel (m.mask (idx + 1)) insertIdx
    else if ← m.isDeleted idx then
      probe key fuel (m.mask (idx + 1)) (insertIdx.or (some idx))
    else return .unused idx insertIdx

/-- The loop for a key, from its first slot on. -/
def find (fuel : ℕ) (key : K) : Fueled Probe := m.probe key fuel (m.mask (Key.hash key).toInt) none

/-! ## Growing and shrinking -/

/-- A method that inserts an entry and returns the old value. -/
abbrev Insert (K V : Type) := HashMap K V → K → V → Fueled (Option V × HashMap K V)

section

variable (insert : Insert K V)

omit [Key K] in
/-- A round of the loop of `rehash`: a live entry is inserted into the new table. -/
def moveSlot (newMap : HashMap K V) (idx : ℕ) : Fueled (HashMap K V) := do
  if ← m.isLive idx then
    let key ← getSlot m.keys idx
    let value ← getSlot m.values idx
    let (_, newMap) ← insert newMap key value
    return newMap
  else return newMap

omit [Key K] in
def rehash (newCapacity : ℕ) : Fueled (HashMap K V) := do
  let newMap ← (List.range m.cap).foldlM (m.moveSlot insert) (withCapacity newCapacity)
  return { newMap with cap := newCapacity }

/-- The condition under which `ensureCapacity` leaves the table as it is. -/
def fits (elementsToAdd : ℕ) : Bool :=
  m.entries + elementsToAdd < m.cap && m.entries ≤ m.cap - m.cap / 4

def ensureCapacity (elementsToAdd : ℕ) : Fueled (HashMap K V) :=
  if m.fits elementsToAdd then return m
  else do
    let newCapacity := if m.cap > 0 then m.cap * 2 else 4
    .assert (m.entries + elementsToAdd < newCapacity)
    m.rehash insert newCapacity

/-- The condition under which `shrink` leaves the table as it is. -/
def keeps : Bool := m.entries > m.cap / 4 || m.cap / 2 < 4

def shrink : Fueled (HashMap K V) :=
  if m.keeps then return m
  else do
    .assert (m.entries < m.cap / 2)
    m.rehash insert (m.cap / 2)

end

/-! ## Operations -/

/-- `insert` after `ensureCapacity`. -/
def put (fuel : ℕ) (key : K) (value : V) : Fueled (Option V × HashMap K V) := do
  .assert (m.entries < m.cap)
  match ← m.find fuel key with
  | .found idx =>
    let oldValue ← getSlot m.values idx
    let values ← setSlot m.values idx (some value)
    return (some oldValue, { m with values })
  | .unused idx insertIdx =>
    let idx := insertIdx.getD idx
    let inserted ← .ofOption (m.insertedAndDeleted.insert (2 * idx))
    let insertedAndDeleted ← .ofOption (inserted.remove (2 * idx + 1))
    let keys ← setSlot m.keys idx (some key)
    let values ← setSlot m.values idx (some value)
    return (none, ⟨insertedAndDeleted, keys, values, m.entries + 1, m.cap⟩)

/-- `insert`. It may call itself, through `rehash`, on the new table. -/
def insert : ℕ → Insert K V
  | 0, _, _, _ => .running
  | fuel + 1, m, key, value => do
    let m ← m.ensureCapacity (insert fuel) 1
    m.put fuel key value

def contains (fuel : ℕ) (key : K) : Fueled Bool := do
  .assert (m.entries ≤ m.cap)
  if m.entries = 0 then return false
  else match ← m.find fuel key with
    | .found _ => return true
    | .unused _ _ => return false

def get (fuel : ℕ) (key : K) : Fueled (Option V) := do
  .assert (m.entries ≤ m.cap)
  if m.entries = 0 then return none
  else match ← m.find fuel key with
    | .found idx => return some (← getSlot m.values idx)
    | .unused _ _ => return none

/-- `remove` after `shrink`, with the code for its calls of `unsafeKillRefs`. -/
def take (storesKey storesValue : Bool) (fuel : ℕ) (key : K) :
    Fueled (Option V × HashMap K V) := do
  match ← m.find fuel key with
  | .found idx =>
    let value ← getSlot m.values idx
    let insertedAndDeleted ← .ofOption (m.insertedAndDeleted.insert (2 * idx + 1))
    let keys := killRefs storesKey m.keys idx.toNat
    let values := killRefs storesValue m.values idx.toNat
    return (some value, ⟨insertedAndDeleted, keys, values, m.entries - 1, m.cap⟩)
  | .unused _ _ => return (none, m)

/-- `remove`. A method is compiled when it is called for the first time, and the compiler panics if
there is no code for `unsafeKillRefs`. -/
def remove [Element K] [Element V] (fuel : ℕ) (key : K) : Fueled (Option V × HashMap K V) := do
  let storesKey ← .ofOption (emitUnsafeKillRefs (elementType K))
  let storesValue ← .ofOption (emitUnsafeKillRefs (elementType V))
  let m ← m.shrink (insert fuel)
  m.take storesKey storesValue fuel key

def size : ℕ := m.entries

end HashMap

/-! ## Iteration -/

structure HashMapIter (K V : Type) where
  map : HashMap K V
  idx : ℕ

namespace HashMapIter

variable {K V : Type}

def new (map : HashMap K V) : HashMapIter K V := ⟨map, 0⟩

/-- The next live entry, with the iterator behind it. -/
def next : ℕ → HashMapIter K V → Fueled (Option ((K × V) × HashMapIter K V))
  | 0, _ => .running
  | fuel + 1, it => do
    if it.idx < it.map.cap then
      if ← it.map.isLive it.idx then
        let key ← getSlot it.map.keys it.idx
        let value ← getSlot it.map.values it.idx
        return some ((key, value), ⟨it.map, it.idx + 1⟩)
      else next fuel ⟨it.map, it.idx + 1⟩
    else return none

/-- The entries of a `for` loop over the iterator. -/
def collect : ℕ → HashMapIter K V → Fueled (List (K × V))
  | 0, _ => .running
  | fuel + 1, it => do
    match ← it.next fuel with
    | some (entry, it) => return entry :: (← collect fuel it)
    | none => return []

end HashMapIter

/-! ## Sequences of operations -/

inductive Op (K V : Type)
  | insert (key : K) (value : V)
  | get (key : K)
  | contains (key : K)
  | remove (key : K)
  | size
  | iterate

inductive Result (K V : Type)
  | value (value : Option V)
  | bool (b : Bool)
  | size (n : ℕ)
  | entries (entries : List (K × V))
deriving DecidableEq

namespace HashMap

variable {K V : Type} [Key K] [Element K] [Element V]

/-- An operation on a map: its result, and the map afterwards. -/
def exec (fuel : ℕ) (m : HashMap K V) : Op K V → Fueled (Result K V × HashMap K V)
  | .insert key value => do
    let (old, m) ← m.insert fuel key value
    return (.value old, m)
  | .get key => do return (.value (← m.get fuel key), m)
  | .contains key => do return (.bool (← m.contains fuel key), m)
  | .remove key => do
    let (old, m) ← m.remove fuel key
    return (.value old, m)
  | .size => return (.size m.size, m)
  | .iterate => do return (.entries (← (HashMapIter.new m).collect fuel), m)

/-- A sequence of operations. -/
def run (fuel : ℕ) (m : HashMap K V) : List (Op K V) → Fueled (List (Result K V) × HashMap K V)
  | [] => return ([], m)
  | op :: ops => do
    let (result, m) ← m.exec fuel op
    let (results, m) ← m.run fuel ops
    return (result :: results, m)

end HashMap

/-! ## Sets -/

structure HashSet (K : Type) where
  map : HashMap K Unit

inductive SetOp (K : Type)
  | insert (key : K)
  | contains (key : K)
  | remove (key : K)
  | size

inductive SetResult
  | unit
  | bool (b : Bool)
  | size (n : ℕ)
deriving DecidableEq

namespace HashSet

variable {K : Type} [Key K]

omit [Key K] in
def new : HashSet K := ⟨HashMap.new⟩

variable (fuel : ℕ) (s : HashSet K)

def insert (key : K) : Fueled (HashSet K) := do
  let (_, map) ← s.map.insert fuel key ()
  return ⟨map⟩

def contains (key : K) : Fueled Bool := s.map.contains fuel key

def remove [Element K] (key : K) : Fueled (Bool × HashSet K) := do
  let (old, map) ← s.map.remove fuel key
  return (old.isSome, ⟨map⟩)

omit [Key K] in
def size : ℕ := s.map.size

variable [Element K]

/-- An operation on a set: its result, and the set afterwards. -/
def exec : SetOp K → Fueled (SetResult × HashSet K)
  | .insert key => do return (.unit, ← s.insert fuel key)
  | .contains key => do return (.bool (← s.contains fuel key), s)
  | .remove key => do
    let (b, s) ← s.remove fuel key
    return (.bool b, s)
  | .size => return (.size s.size, s)

/-- A sequence of operations. -/
def run (s : HashSet K) : List (SetOp K) → Fueled (List SetResult × HashSet K)
  | [] => return ([], s)
  | op :: ops => do
    let (result, s) ← s.exec fuel op
    let (results, s) ← s.run ops
    return (result :: results, s)

end HashSet

end Dora.Stdlib
