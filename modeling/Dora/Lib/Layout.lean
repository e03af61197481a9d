import Mathlib.Algebra.GroupWithZero.Nat
import Mathlib.Data.List.Forall2

/-!
# Layouts

An assembler writes items one after the other, and later patches some of them in place. A patch that
keeps the size of its item moves no other item.

## Main definitions

* `Layout.place`, `Layout.extent`: items with the offsets they start at, and their total size

## Main results

* `Layout.foldlM_place`: patching every item in its place patches the whole code
-/

namespace Layout

open List Option

variable {ι κ σ α : Type} {size : ι → ℕ} {xs : List ι} {start t : ℕ} {p : ℕ × ι}

variable {i : ℕ} {writes : List (ℕ × α)}

/-- The items with the offsets they start at. -/
def place (size : ι → ℕ) (start : ℕ) : List ι → List (ℕ × ι)
  | [] => []
  | x :: xs => (start, x) :: place size (start + size x) xs

/-- The size of the items together. -/
def extent (size : ι → ℕ) (xs : List ι) : ℕ := (xs.map size).sum

@[simp] theorem extent_nil : extent size [] = 0 := rfl

@[simp] theorem extent_cons (x : ι) (xs : List ι) :
    extent size (x :: xs) = size x + extent size xs := by
  simp [extent]

@[simp] theorem extent_append (xs ys : List ι) :
    extent size (xs ++ ys) = extent size xs + extent size ys := by
  simp [extent]

theorem place_append (start : ℕ) (xs ys : List ι) :
    place size start (xs ++ ys) =
      place size start xs ++ place size (start + extent size xs) ys := by
  induction xs generalizing start with
  | nil => simp [place]
  | cons x xs ih => simp [place, ih, Nat.add_assoc]

theorem map_snd_place (size : ι → ℕ) (start : ℕ) (xs : List ι) :
    (place size start xs).map Prod.snd = xs := by
  induction xs generalizing start with
  | nil => rfl
  | cons x xs ih => simp [place, ih]

theorem length_flatMap_place {bytes : ℕ × ι → List α}
    (h : ∀ p ∈ place size start xs, (bytes p).length = size p.2) :
    ((place size start xs).flatMap bytes).length = extent size xs := by
  induction xs generalizing start with
  | nil => rfl
  | cons x xs ih =>
    rw [place, flatMap_cons, length_append, extent_cons,
      h (start, x) mem_cons_self, ih fun p hp => h p (mem_cons_of_mem _ hp)]

theorem length_le_flatMap {bytes : ι → List α} (xs : List ι) (h : ∀ x, 0 < (bytes x).length) :
    xs.length ≤ (xs.flatMap bytes).length := by
  induction xs with
  | nil => simp
  | cons x xs ih =>
    have := h x
    rw [flatMap_cons, length_append, length_cons]
    omega

theorem place_map {size' : κ → ℕ} {f : ℕ × ι → κ}
    (h : ∀ p ∈ place size start xs, size' (f p) = size p.2) :
    place size' start ((place size start xs).map f) =
      (place size start xs).map fun p => (p.1, f p) := by
  induction xs generalizing start with
  | nil => rfl
  | cons x xs ih =>
    have hx := h (start, x) mem_cons_self
    simp only [place, map_cons, hx]
    rw [ih fun p hp => h p (mem_cons_of_mem _ hp)]

theorem place_bounds (hp : p ∈ place size start xs) :
    start ≤ p.1 ∧ p.1 + size p.2 ≤ start + extent size xs := by
  induction xs generalizing start with
  | nil => simp [place] at hp
  | cons x xs ih =>
    rw [extent_cons]
    rcases mem_cons.mp hp with rfl | hp
    · exact ⟨Nat.le_refl _, by dsimp only; omega⟩
    · have := ih hp
      omega

/-- The offset behind an item is where the next one starts, or where the last one ends. -/
theorem place_next {k : ℕ} (hp : (place size start xs)[k]? = some p) :
    ((place size start xs).map Prod.fst ++ [start + extent size xs])[k + 1]? =
      some (p.1 + size p.2) := by
  induction xs generalizing start k with
  | nil => simp [place] at hp
  | cons x xs ih =>
    rw [place, map_cons, cons_append, getElem?_cons_succ, extent_cons, ← Nat.add_assoc]
    cases k with
    | zero =>
      obtain rfl : (start, x) = p := by simpa [place] using hp
      cases xs <;> simp [place]
    | succ k => exact ih (by simpa [place] using hp)

/-- Two codes agree on the bytes of an item that is the same in both. -/
theorem flatMap_place_agree {old new : ℕ × ι → List α}
    (hold : ∀ p ∈ place size start xs, (old p).length = size p.2)
    (hnew : ∀ p ∈ place size start xs, (new p).length = size p.2) (hp : p ∈ place size start xs)
    (heq : old p = new p) (hle : p.1 ≤ start + i) (hlt : start + i < p.1 + size p.2) :
    ((place size start xs).flatMap old)[i]? = ((place size start xs).flatMap new)[i]? := by
  induction xs generalizing start i with
  | nil => simp [place] at hp
  | cons x xs ih =>
    have hx := hold (start, x) mem_cons_self
    have hx' := hnew (start, x) mem_cons_self
    simp only [place, flatMap_cons]
    rcases mem_cons.mp hp with rfl | hp
    · rw [heq, getElem?_append_left (by dsimp only at *; omega),
        getElem?_append_left (by dsimp only at *; omega)]
    · have hge := (place_bounds hp).1
      dsimp only at hx hx'
      rw [getElem?_append_right (by omega), getElem?_append_right (by omega), hx, hx']
      exact ih (fun p hp => hold p (mem_cons_of_mem _ hp))
        (fun p hp => hnew p (mem_cons_of_mem _ hp)) hp (by omega) (by omega)

/-! ## Boundaries -/

/-- An offset between two items, or one of the two ends. -/
def Boundary (size : ι → ℕ) (xs : List ι) (t : ℕ) : Prop := ∃ ys, ys <+: xs ∧ extent size ys = t

theorem Boundary.extent (xs : List ι) : Boundary size xs (extent size xs) := ⟨xs, prefix_rfl, rfl⟩

theorem Boundary.append (h : Boundary size xs t) (ys : List ι) : Boundary size (xs ++ ys) t := by
  obtain ⟨zs, hzs, ht⟩ := h
  exact ⟨zs, hzs.trans (prefix_append _ _), ht⟩

theorem Boundary.le (h : Boundary size xs t) : t ≤ Layout.extent size xs := by
  obtain ⟨zs, ⟨ys, rfl⟩, rfl⟩ := h
  rw [extent_append]
  exact Nat.le_add_right _ _

theorem Boundary.cases (h : Boundary size xs t) :
    t = Layout.extent size xs ∨ ∃ x, (t, x) ∈ place size 0 xs := by
  obtain ⟨zs, ⟨ys, rfl⟩, rfl⟩ := h
  cases ys with
  | nil => exact .inl (by simp)
  | cons y ys =>
    refine .inr ⟨y, ?_⟩
    rw [place_append, Nat.zero_add]
    exact mem_append_right _ mem_cons_self

/-! ## Patching in place -/

section

variable {step : σ → κ → Option σ} {js : List κ}

/-- **Patching every item in its place** patches the whole code. The patching program runs over the
items that `jump` selects; its state is the code with what else it updates, and `I` is what it keeps
about the latter. -/
theorem foldlM_place {ρ : Type} {jump : ℕ × ι → Option κ} (old new : ℕ × ι → List α)
    (mk : List α → ρ → σ) (update : ρ → ℕ × ι → ρ) (I : ρ → Prop) {start : ℕ} {xs : List ι}
    (hnew : ∀ p ∈ place size start xs, (new p).length = size p.2)
    (hskip : ∀ p ∈ place size start xs, jump p = none → old p = new p ∧ ∀ r, update r p = r)
    (hstep : ∀ p ∈ place size start xs, ∀ j ∈ jump p, ∀ pre rest r, pre.length = p.1 → I r →
      step (mk (pre ++ (old p ++ rest)) r) j = some (mk (pre ++ (new p ++ rest)) (update r p)) ∧
        I (update r p)) (pre : List α) (hpre : pre.length = start) (r : ρ) (hr : I r) :
    ((place size start xs).filterMap jump).foldlM step
        (mk (pre ++ (place size start xs).flatMap old) r) =
      some (mk (pre ++ (place size start xs).flatMap new)
        ((place size start xs).foldl update r)) := by
  induction xs generalizing start pre r with
  | nil => rfl
  | cons x xs ih =>
    have hx := hnew (start, x) mem_cons_self
    have htail : ∀ r, I r → ((place size (start + size x) xs).filterMap jump).foldlM step
        (mk (pre ++ (new (start, x) ++ (place size (start + size x) xs).flatMap old)) r) =
          some (mk (pre ++ (new (start, x) ++ (place size (start + size x) xs).flatMap new))
            ((place size (start + size x) xs).foldl update r)) := by
      intro r hr
      have h := ih (fun p hp => hnew p (mem_cons_of_mem _ hp))
        (fun p hp => hskip p (mem_cons_of_mem _ hp))
        (fun p hp => hstep p (mem_cons_of_mem _ hp)) (pre ++ new (start, x))
        (by rw [length_append, hx, hpre]) r hr
      rwa [append_assoc, append_assoc] at h
    simp only [place, flatMap_cons, foldl_cons]
    cases hj : jump (start, x) with
    | none =>
      obtain ⟨hold, hupdate⟩ := hskip (start, x) mem_cons_self hj
      rw [filterMap_cons_none hj, hold, hupdate]
      exact htail r hr
    | some j =>
      obtain ⟨hround, hI⟩ := hstep (start, x) mem_cons_self j hj pre
        ((place size (start + size x) xs).flatMap old) r hpre hr
      rw [filterMap_cons_some hj, foldlM_cons, hround]
      exact htail _ hI

theorem foldlM_forall {I : σ → Prop} {P : κ → Prop}
    (hstep : ∀ s j s', I s → step s j = some s' → P j ∧ I s') {s s' : σ} (hs : I s)
    (h : js.foldlM step s = some s') : (∀ j ∈ js, P j) ∧ I s' := by
  induction js generalizing s with
  | nil =>
    cases h
    exact ⟨by simp, hs⟩
  | cons j js ih =>
    obtain ⟨v, hv, h⟩ := bind_eq_some_iff.mp h
    obtain ⟨hj, hI⟩ := hstep s j v hs hv
    obtain ⟨hjs, hI⟩ := ih hI h
    exact ⟨forall_mem_cons.mpr ⟨hj, hjs⟩, hI⟩

/-- **The invariant of a loop over a list**, in terms of the part of the list it has passed. -/
theorem foldlM_invariant (I : List κ → σ → Prop) {s s' : σ}
    (hstep : ∀ before j after, js = before ++ j :: after → ∀ s s', I before s →
      step s j = some s' → I (before ++ [j]) s') (hs : I [] s) (h : js.foldlM step s = some s') :
    I js s' := by
  suffices hgo : ∀ after before s, js = before ++ after → I before s →
      after.foldlM step s = some s' → I js s' from hgo js [] s rfl hs h
  intro after
  induction after with
  | nil =>
    intro before s hjs hI h
    cases h
    exact (append_nil before ▸ hjs) ▸ hI
  | cons j after ih =>
    intro before s hjs hI h
    obtain ⟨v, hv, h⟩ := bind_eq_some_iff.mp h
    exact ih (before ++ [j]) v (by simpa using hjs) (hstep before j after hjs s v hI hv) h

theorem exists_foldlM (I : List κ → σ → Prop) {s : σ}
    (hstep : ∀ before j after, js = before ++ j :: after → ∀ s, I before s →
      ∃ s', step s j = some s' ∧ I (before ++ [j]) s') (hs : I [] s) :
    ∃ s', js.foldlM step s = some s' ∧ I js s' := by
  suffices hgo : ∀ after before s, js = before ++ after → I before s →
      ∃ s', after.foldlM step s = some s' ∧ I js s' from hgo js [] s rfl hs
  intro after
  induction after with
  | nil =>
    intro before s hjs hI
    exact ⟨s, rfl, (append_nil before ▸ hjs) ▸ hI⟩
  | cons j after ih =>
    intro before s hjs hI
    obtain ⟨v, hv, hI⟩ := hstep before j after hjs s hI
    obtain ⟨s', h, hI⟩ := ih (before ++ [j]) v (by simpa using hjs) hI
    exact ⟨s', by rw [foldlM_cons, hv]; exact h, hI⟩

/-- What the rounds of a loop look up first can be looked up before the loop. -/
theorem foldlM_bind {look : ι → Option κ} (xs : List ι) (s : σ) :
    xs.foldlM (fun s x => (look x).bind (step s)) s = (xs.mapM look).bind (List.foldlM step s) := by
  induction xs generalizing s with
  | nil => rfl
  | cons x xs ih =>
    rw [foldlM_cons, mapM_cons]
    cases look x with
    | none => rfl
    | some j =>
      simp only [bind_some, ih]
      cases xs.mapM look with
      | none => cases step s j <;> rfl
      | some js => rfl

end

/-! ## Writes to a table -/

theorem filterMap_singleton (f : ι → Option α) (x : ι) : [x].filterMap f = (f x).toList := by
  cases hx : f x <;> simp [hx]

theorem filterMap_sublist {f g : ι → Option α} (xs : List ι)
    (h : ∀ x a, f x = some a → g x = some a) :
    (xs.filterMap f).Sublist (xs.filterMap g) := by
  induction xs with
  | nil => exact List.Sublist.refl _
  | cons x xs ih =>
    cases hf : f x with
    | some a =>
      rw [filterMap_cons_some hf, filterMap_cons_some (h x a hf)]
      exact ih.cons_cons a
    | none =>
      rw [filterMap_cons_none hf]
      cases hg : g x with
      | none => rwa [filterMap_cons_none hg]
      | some a =>
        rw [filterMap_cons_some hg]
        exact ih.cons a

theorem foldl_filterMap_set (write : ι → Option (ℕ × α)) (xs : List ι) (table : List α) :
    (xs.filterMap write).foldl (fun table w => table.set w.1 w.2) table =
      xs.foldl (fun table x => (write x).elim table fun w => table.set w.1 w.2) table := by
  induction xs generalizing table with
  | nil => rfl
  | cons x xs ih =>
    cases hx : write x with
    | none => rw [filterMap_cons_none hx, ih, foldl_cons, hx, elim_none]
    | some w =>
      rw [filterMap_cons_some hx, foldl_cons, ih, foldl_cons, hx, elim_some]

theorem length_foldl_set (writes : List (ℕ × α)) (table : List α) :
    (writes.foldl (fun table w => table.set w.1 w.2) table).length = table.length := by
  induction writes generalizing table with
  | nil => rfl
  | cons w writes ih => rw [foldl_cons, ih, length_set]

theorem foldl_set_of_notMem (h : i ∉ writes.map Prod.fst)
    (table : List α) :
    (writes.foldl (fun table w => table.set w.1 w.2) table)[i]? = table[i]? := by
  induction writes generalizing table with
  | nil => rfl
  | cons w writes ih =>
    rw [map_cons, mem_cons, not_or] at h
    rw [foldl_cons, ih h.2, getElem?_set_ne (Ne.symm h.1)]

theorem foldl_set (hn : (writes.map Prod.fst).Nodup) {w : ℕ × α}
    (hw : w ∈ writes) {table : List α} (hlt : w.1 < table.length) :
    (writes.foldl (fun table w => table.set w.1 w.2) table)[w.1]? = some w.2 := by
  induction writes generalizing table with
  | nil => cases hw
  | cons v writes ih =>
    rw [map_cons, nodup_cons] at hn
    rcases mem_cons.mp hw with rfl | hw
    · rw [foldl_cons, foldl_set_of_notMem hn.1, getElem?_set_self hlt]
    · exact ih hn.2 hw (by rwa [length_set])

theorem flatMap_eq_of_unique {f : ι → List α} {x : ι} (hnodup : xs.Nodup) (hx : x ∈ xs)
    (h : ∀ y ∈ xs, y ≠ x → f y = []) : xs.flatMap f = f x := by
  induction xs with
  | nil => cases hx
  | cons y ys ih =>
    rw [nodup_cons] at hnodup
    rw [flatMap_cons]
    by_cases heq : y = x
    · subst heq
      have hrest : ys.flatMap f = [] := flatMap_eq_nil_iff.mpr fun z hz =>
        h z (mem_cons_of_mem _ hz) fun hzy => hnodup.1 (hzy ▸ hz)
      rw [hrest, append_nil]
    · have hmem : x ∈ ys := (mem_cons.mp hx).resolve_left (Ne.symm heq)
      rw [h y mem_cons_self heq, nil_append]
      exact ih hnodup.2 hmem fun z hz => h z (mem_cons_of_mem _ hz)

/-! ## Lists side by side -/

section Forall

variable {R : ι → κ → Prop} {xs : List ι} {ys : List κ}

variable {y : κ} {look : ι → Option κ}

theorem forall₂_mem (h : List.Forall₂ R xs ys) :
    List.Forall₂ (fun x y => y ∈ ys ∧ R x y) xs ys := by
  induction h with
  | nil => exact .nil
  | cons h _ ih =>
    exact .cons ⟨mem_cons_self, h⟩ (ih.imp fun _ _ h => ⟨mem_cons_of_mem _ h.1, h.2⟩)

theorem forall₂_comp {S : κ → α → Prop} {T : ι → α → Prop} {zs : List α}
    (h : ∀ x y z, R x y → S y z → T x z) (hR : List.Forall₂ R xs ys) (hS : List.Forall₂ S ys zs) :
    List.Forall₂ T xs zs := by
  induction hR generalizing zs with
  | nil =>
    cases hS
    exact .nil
  | cons hxy _ ih =>
    obtain _ | ⟨hyz, hS⟩ := hS
    exact .cons (h _ _ _ hxy hyz) (ih hS)

theorem exists_of_forall₂_left (h : List.Forall₂ R xs ys) {x : ι} (hx : x ∈ xs) :
    ∃ y ∈ ys, R x y := by
  induction h with
  | nil => cases hx
  | cons h _ ih =>
    rcases mem_cons.mp hx with rfl | hx
    · exact ⟨_, mem_cons_self, h⟩
    · obtain ⟨y, hy, hR⟩ := ih hx
      exact ⟨y, mem_cons_of_mem _ hy, hR⟩

theorem exists_of_forall₂_right (h : List.Forall₂ R xs ys) (hy : y ∈ ys) :
    ∃ x ∈ xs, R x y :=
  exists_of_forall₂_left h.flip hy

theorem forall₂_getElem? (h : List.Forall₂ R xs ys) {k : ℕ} (hy : ys[k]? = some y) :
    ∃ x, xs[k]? = some x ∧ R x y := by
  induction h generalizing k with
  | nil => simp at hy
  | cons h _ ih =>
    cases k with
    | zero =>
      obtain rfl : _ = y := by simpa using hy
      exact ⟨_, by simp, h⟩
    | succ k => simpa using ih (by simpa using hy)

theorem mapM_eq_some_iff :
    xs.mapM look = some ys ↔ List.Forall₂ (fun x y => look x = some y) xs ys := by
  induction xs generalizing ys with
  | nil =>
    rw [List.forall₂_nil_left_iff, mapM_nil]
    exact ⟨fun h => (Option.some.inj h).symm, fun h => h ▸ rfl⟩
  | cons x xs ih =>
    rw [mapM_cons, List.forall₂_cons_left_iff]
    constructor
    · intro h
      obtain ⟨y, hy, h⟩ := bind_eq_some_iff.mp h
      obtain ⟨ys', hys, h⟩ := bind_eq_some_iff.mp h
      exact ⟨y, ys', hy, ih.mp hys, (Option.some.inj h).symm⟩
    · rintro ⟨y, ys', hy, hys, rfl⟩
      rw [hy, ih.mpr hys]
      rfl

theorem exists_mapM (h : ∀ x ∈ xs, ∃ y, look x = some y) : ∃ ys, xs.mapM look = some ys := by
  induction xs with
  | nil => exact ⟨[], rfl⟩
  | cons x xs ih =>
    obtain ⟨y, hy⟩ := h x mem_cons_self
    obtain ⟨ys, hys⟩ := ih fun x hx => h x (mem_cons_of_mem _ hx)
    exact ⟨y :: ys, by rw [mapM_cons, hy, hys]; rfl⟩

theorem mapM_eq_mapM {γ : Type} {f : ι → Option γ} {g : κ → Option γ}
    (h : List.Forall₂ (fun x y => f x = g y) xs ys) : xs.mapM f = ys.mapM g := by
  induction h with
  | nil => rfl
  | cons h _ ih => rw [mapM_cons, mapM_cons, h, ih]

end Forall

end Layout
