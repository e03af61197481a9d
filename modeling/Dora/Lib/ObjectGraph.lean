import Dora.Lib.Memory

/-!
# Object graphs

Objects refer to each other through reference fields at known offsets, and slots outside refer to
them.

## Main definitions

* `ObjectGraph.Reaches`: the objects that the slots reach
* `ObjectGraph.Isomorphic`: every reachable object has moved to a place of its own, and every
  reference to where its target has gone
-/

/-- The objects of a memory and the references between them: `movable v` says that the word `v`
refers to one of the objects, and not to nothing or elsewhere. -/
structure ObjectGraph where
  memory : Memory
  slots : Set ℕ
  size : ℕ → ℕ
  offsets : ℕ → List ℕ
  movable : ℕ → Bool

namespace ObjectGraph

variable {G : ObjectGraph} {m : Memory} {ψ : ℕ → ℕ} {o v k : ℕ}

/-- The slots refer to the object, or a reachable object does. -/
inductive Reaches (G : ObjectGraph) : ℕ → Prop
  | slot {s : ℕ} (hs : s ∈ G.slots) (h : G.movable (G.memory s) = true) : Reaches G (G.memory s)
  | field {o k : ℕ} (ho : Reaches G o) (hk : k ∈ G.offsets o)
      (h : G.movable (G.memory (o + k)) = true) : Reaches G (G.memory (o + k))

/-- What holds of the targets of the slots and passes on along the references holds of every
reachable object. -/
theorem Reaches.subset {P : ℕ → Prop}
    (hslots : ∀ s ∈ G.slots, G.movable (G.memory s) = true → P (G.memory s))
    (hfields : ∀ o, G.Reaches o → P o → ∀ k ∈ G.offsets o,
      G.movable (G.memory (o + k)) = true → P (G.memory (o + k)))
    (h : G.Reaches o) : P o := by
  induction h with
  | slot hs hv => exact hslots _ hs hv
  | field ho hk hv ih => exact hfields _ ho ih _ hk hv

/-- The word `v` after the objects have moved by `ψ`. -/
def redirect (G : ObjectGraph) (ψ : ℕ → ℕ) (v : ℕ) : ℕ := if G.movable v then ψ v else v

theorem redirect_of_movable (h : G.movable v = true) : G.redirect ψ v = ψ v := if_pos h

theorem redirect_of_not_movable (h : G.movable v = false) : G.redirect ψ v = v :=
  if_neg (by simp [h])

/-- **The memory `m` holds the same graph**: the reachable objects have moved by `ψ`, all
references follow them, and the words at the other offsets that `kept` admits are the same. -/
structure Isomorphic (G : ObjectGraph) (kept : ℕ → Prop) (m : Memory) (ψ : ℕ → ℕ) : Prop where
  injOn : Set.InjOn ψ {o | G.Reaches o}
  slots : ∀ s ∈ G.slots, m s = G.redirect ψ (G.memory s)
  fields : ∀ o, G.Reaches o → ∀ k ∈ G.offsets o, m (ψ o + k) = G.redirect ψ (G.memory (o + k))
  contents : ∀ o, G.Reaches o → ∀ k < G.size o, k ∉ G.offsets o → kept k →
    m (ψ o + k) = G.memory (o + k)

end ObjectGraph
