import Dora.Lib.ByteCursor

/-!
# Values carried by bytes

One program writes a value into a buffer, another reads it back with a bound on its depth of
recursion, for which the length of the bytes suffices.

## Main definitions

* `Writes`: the bytes a writer appends
* `Carries`: a reader gets a value back from them, under a condition that the writer does not need

## Main results

* `carries_forM`: a loop over an array carries its items
-/

open Cursor (remaining advance mode)

section Writes

/-- **The specification of a writing program**: it appends these bytes to its buffer. -/
def Writes (m : StateT (List UInt8) Option Unit) (bs : List UInt8) : Prop :=
  ∀ buffer, m buffer = some ((), buffer ++ bs)

theorem Writes.pure : Writes (pure ()) [] := by
  intro buffer
  simp

theorem Writes.modify (bs : List UInt8) : Writes (modify (· ++ bs)) bs :=
  fun _ => rfl

theorem Writes.bind {m : StateT (List UInt8) Option Unit}
    {f : Unit → StateT (List UInt8) Option Unit} {bs cs : List UInt8} (hm : Writes m bs)
    (hf : Writes (f ()) cs) : Writes (m >>= f) (bs ++ cs) := by
  intro buffer
  change (m buffer).bind (fun p => f p.1 p.2) = _
  rw [hm buffer, Option.bind_some, hf, List.append_assoc]

end Writes

section Carries

variable {σ ω α β : Type} [Cursor σ ω] {w : ω} {P : Prop}
variable {enc enc' : StateT (List UInt8) Option Unit} {dec : ℕ → StateT σ Option α} {a : α}

/-- **A value carried over**: the writer appends bytes from which, under the condition, the reader
gets the value back at every depth from their number on. -/
def Carries (w : ω) (P : Prop) (enc : StateT (List UInt8) Option Unit)
    (dec : ℕ → StateT σ Option α) (a : α) : Prop :=
  ∃ bs, Writes enc bs ∧ (P → ∀ depth, bs.length ≤ depth → Reads w (dec depth) bs a)

namespace Carries

variable {f : ℕ → α → StateT σ Option β} {b : β}

theorem of_reads {bs : List UInt8} {m : StateT σ Option α} (henc : Writes enc bs)
    (hdec : Reads w m bs a) : Carries w P enc (fun _ => m) a :=
  ⟨bs, henc, fun _ _ _ => hdec⟩

theorem bind (h : Carries w P enc dec a)
    (h' : Carries w P enc' (fun depth => f depth a) b) :
    Carries w P (enc >>= fun _ => enc') (fun depth => dec depth >>= f depth) b := by
  obtain ⟨bs, hw, hr⟩ := h
  obtain ⟨cs, hw', hr'⟩ := h'
  refine ⟨bs ++ cs, hw.bind hw', fun hP depth hd => ?_⟩
  rw [List.length_append] at hd
  exact (hr hP depth (by omega)).bind (hr' hP depth (by omega))

theorem map (h : Carries w P enc dec a)
    (hf : ∀ depth, f depth a = Pure.pure b) :
    Carries w P enc (fun depth => dec depth >>= f depth) b := by
  obtain ⟨bs, hw, hr⟩ := h
  refine ⟨bs, hw, fun hP depth hd => (hr hP depth hd).bind_pure ?_⟩
  rw [hf depth]
  exact Reads.pure w b

theorem mono {Q : Prop} (h : Carries w P enc dec a) (hQ : Q → P) : Carries w Q enc dec a := by
  obtain ⟨bs, hw, hr⟩ := h
  exact ⟨bs, hw, fun hq => hr (hQ hq)⟩

/-- **A byte before a nested value**: the reader goes one level down behind it. -/
theorem deeper {dec' : ℕ → StateT σ Option α} {b : UInt8} (hb : Writes enc [b])
    (h : Carries w P enc' dec a)
    (hdec : ∀ depth bs, Reads w (dec depth) bs a → Reads w (dec' (depth + 1)) (b :: bs) a) :
    Carries w P (enc >>= fun _ => enc') dec' a := by
  obtain ⟨bs, hw, hr⟩ := h
  refine ⟨b :: bs, hb.bind hw, fun hP depth hd => ?_⟩
  -- the byte pays for the level
  obtain ⟨depth, rfl⟩ : ∃ d, depth = d + 1 := ⟨depth - 1, by rw [List.length_cons] at hd; omega⟩
  exact hdec depth bs (hr hP depth (by simpa using hd))

theorem readMany_nil : Carries w P (Pure.pure ()) (fun depth => readMany (dec depth) 0) [] :=
  of_reads .pure (.pure w _)

theorem readMany_cons {n : ℕ} {as : List α} (h : Carries w P enc dec a)
    (hs : Carries w P enc' (fun depth => readMany (dec depth) n) as) :
    Carries w P (enc >>= fun _ => enc') (fun depth => readMany (dec depth) (n + 1)) (a :: as) :=
  h.bind (hs.map fun _ => rfl)

end Carries

/-- **A loop over an array** carries its items. -/
theorem carries_forM {γ : Type} {f : γ → Option α} {enc : γ → StateT (List UInt8) Option Unit}
    {Q : α → Prop} (h : ∀ c a, f c = some a → Carries w (Q a) (enc c) dec a) {cs : List γ}
    {as : List α} (hcs : cs.mapM f = some as) :
    as.length = cs.length ∧ Carries w (∀ a ∈ as, Q a) (cs.forM enc)
      (fun depth => readMany (dec depth) cs.length) as := by
  induction cs generalizing as with
  | nil =>
    obtain rfl : [] = as := by simpa using hcs
    exact ⟨rfl, Carries.readMany_nil⟩
  | cons c cs ih =>
    rw [List.mapM_cons] at hcs
    obtain ⟨a, ha, hcs⟩ := Option.bind_eq_some_iff.mp hcs
    obtain ⟨as', has, hcs⟩ := Option.bind_eq_some_iff.mp hcs
    obtain rfl : a :: as' = as := Option.some.inj hcs
    obtain ⟨hlen, hs⟩ := ih has
    refine ⟨by rw [List.length_cons, hlen, List.length_cons], ?_⟩
    exact ((h c a ha).mono fun hq => hq a List.mem_cons_self).readMany_cons
      (hs.mono fun hq a' ha' => hq a' (List.mem_cons_of_mem a ha'))

end Carries
