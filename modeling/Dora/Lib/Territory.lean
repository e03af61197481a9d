import Mathlib.Data.Set.Lattice

/-!
# Territories

Memory that is handed out from the tops of several spaces. What lies below a top is either a block
that is in use, or a hole that is reserved for somebody, who carves blocks out of it from below.

## Main definitions

* `Territory.Tight`: blocks and holes fill the spaces, and are apart

## Main results

* `Territory.Tight.carve`, `Territory.Tight.reset`, `Territory.Tight.grow`: the moves
* `Territory.Tight.walk`: without holes, blocks lead from the start of a space to its top
-/

/-- The spans have no address in common. -/
def SpanApart (p q : ℕ × ℕ) : Prop := p.2 ≤ q.1 ∨ q.2 ≤ p.1

theorem SpanApart.symm {p q : ℕ × ℕ} (h : SpanApart p q) : SpanApart q p := Or.symm h

theorem SpanApart.mono {p q r : ℕ × ℕ} (h : SpanApart p q) (hlo : p.1 ≤ r.1) (hhi : r.2 ≤ p.2) :
    SpanApart r q := by
  unfold SpanApart at h ⊢
  omega

/-- Spaces with their starts and tops, the holes, and the blocks. -/
structure Territory (σ η : Type) where
  space : σ → ℕ × ℕ
  hole : η → ℕ × ℕ
  blocks : Set (ℕ × ℕ)

namespace Territory

open Function (forall_update_iff update update_of_ne update_self)
open Relation

variable {σ η : Type} {T : Territory σ η}

/-- The hole has been given up, or lies in a space. -/
def HoleInside (T : Territory σ η) (hole : ℕ × ℕ) : Prop :=
  hole = (0, 0) ∨ ∃ a, (T.space a).1 ≤ hole.1 ∧ hole.2 ≤ (T.space a).2

/-- **No overlap and no gap**: blocks and holes are apart and fill the spaces. -/
structure Tight (T : Territory σ η) : Prop where
  spaces : ∀ a b, a ≠ b → SpanApart (T.space a) (T.space b)
  pos : ∀ b ∈ T.blocks, b.1 < b.2
  blocks : ∀ b ∈ T.blocks, ∀ c ∈ T.blocks, b ≠ c → SpanApart b c
  holes : ∀ h k, h ≠ k → SpanApart (T.hole h) (T.hole k)
  apart : ∀ b ∈ T.blocks, ∀ h, SpanApart b (T.hole h)
  block_inside : ∀ b ∈ T.blocks, ∃ a, (T.space a).1 ≤ b.1 ∧ b.2 ≤ (T.space a).2
  hole_inside : ∀ h, T.HoleInside (T.hole h)
  cover : ∀ a x, (T.space a).1 ≤ x → x < (T.space a).2 →
    (∃ b ∈ T.blocks, b.1 ≤ x ∧ x < b.2) ∨ ∃ h, (T.hole h).1 ≤ x ∧ x < (T.hole h).2

section Holes

variable [DecidableEq η]

/-- The territory with another hole. -/
def setHole (T : Territory σ η) (h : η) (span : ℕ × ℕ) : Territory σ η :=
  { T with hole := update T.hole h span }

omit [DecidableEq η] in
/-- A span is replaced by one that is apart from the others. -/
theorem apart_update {ι : Type} [DecidableEq ι] {f : ι → ℕ × ℕ} {k : ι} {span : ℕ × ℕ}
    (h : ∀ i j, i ≠ j → SpanApart (f i) (f j)) (hspan : ∀ i, i ≠ k → SpanApart span (f i)) :
    ∀ i j, i ≠ j → SpanApart (update f k span i) (update f k span j) := by
  intro i j hij
  by_cases hi : i = k <;> by_cases hj : j = k
  · exact absurd (hi.trans hj.symm) hij
  · rw [hi, update_self, update_of_ne hj]
    exact hspan j hj
  · rw [hj, update_self, update_of_ne hi]
    exact (hspan i hi).symm
  · rw [update_of_ne hi, update_of_ne hj]
    exact h i j hij

/-- **Carving**: the lower part of a hole becomes a block. -/
theorem Tight.carve (h : T.Tight) {k : η} {x y z : ℕ} (hk : T.hole k = (x, z)) (hxy : x < y)
    (hyz : y ≤ z) :
    Tight { T.setHole k (y, z) with blocks := insert (x, y) T.blocks } := by
  have hupper : ∀ i, i ≠ k → SpanApart (y, z) (T.hole i) := fun i hi =>
    (hk ▸ h.holes k i (Ne.symm hi)).mono (by dsimp only; omega) le_rfl
  have hlower : ∀ i, i ≠ k → SpanApart (x, y) (T.hole i) := fun i hi =>
    (hk ▸ h.holes k i (Ne.symm hi)).mono le_rfl hyz
  have hblock : ∀ b ∈ T.blocks, SpanApart b (x, z) := fun b hb => hk ▸ h.apart b hb k
  obtain ⟨a, ha⟩ : ∃ a, (T.space a).1 ≤ x ∧ z ≤ (T.space a).2 := by
    rcases h.hole_inside k with hzero | hinside
    · obtain ⟨rfl, rfl⟩ := Prod.mk.inj (hk.symm.trans hzero)
      omega
    · rwa [hk] at hinside
  refine ⟨h.spaces, ?_, ?_, apart_update h.holes hupper, ?_, ?_, ?_, ?_⟩
  · rintro b (rfl | hb)
    · exact hxy
    · exact h.pos b hb
  · rintro b (rfl | hb) c (rfl | hc) hbc
    · exact absurd rfl hbc
    · exact ((hblock c hc).symm).mono le_rfl hyz
    · exact (((hblock b hb).symm).mono (r := (x, y)) le_rfl hyz).symm
    · exact h.blocks b hb c hc hbc
  · intro b hb
    refine (forall_update_iff T.hole fun _ => SpanApart b).mpr ?_
    rcases hb with rfl | hb
    · exact ⟨.inl le_rfl, hlower⟩
    · refine ⟨((hblock b hb).symm.mono (r := (y, z)) hxy.le le_rfl).symm, fun i _ => ?_⟩
      exact h.apart b hb i
  · rintro b (rfl | hb)
    · exact ⟨a, ha.1, hyz.trans ha.2⟩
    · exact h.block_inside b hb
  · exact (forall_update_iff T.hole fun _ => T.HoleInside).mpr
      ⟨.inr ⟨a, ha.1.trans hxy.le, ha.2⟩, fun i _ => h.hole_inside i⟩
  · intro a' w hlo hhi
    change (∃ b ∈ insert (x, y) T.blocks, _) ∨ ∃ i, (update T.hole k (y, z) i).1 ≤ w ∧
      w < (update T.hole k (y, z) i).2
    rcases h.cover a' w hlo hhi with ⟨b, hb, hw⟩ | ⟨i, hw⟩
    · exact .inl ⟨b, .inr hb, hw⟩
    · by_cases hi : i = k
      · rw [hi, hk] at hw
        -- the address is in the block or in what remains of the hole
        by_cases hwy : w < y
        · exact .inl ⟨(x, y), .inl rfl, hw.1, hwy⟩
        · exact .inr ⟨k, by rw [update_self]; exact ⟨not_lt.mp hwy, hw.2⟩⟩
      · exact .inr ⟨i, by rwa [update_of_ne hi]⟩

/-- **Giving up** a hole that is empty. -/
theorem Tight.reset (h : T.Tight) {k : η} (hk : (T.hole k).2 ≤ (T.hole k).1) :
    (T.setHole k (0, 0)).Tight := by
  have hzero : ∀ q : ℕ × ℕ, SpanApart (0, 0) q := fun q => .inl (Nat.zero_le _)
  refine ⟨h.spaces, h.pos, h.blocks, apart_update h.holes fun i _ => hzero _, ?_, h.block_inside,
    ?_, ?_⟩
  · exact fun b hb => (forall_update_iff T.hole fun _ => SpanApart b).mpr
      ⟨(hzero b).symm, fun i _ => h.apart b hb i⟩
  · exact (forall_update_iff T.hole fun _ => T.HoleInside).mpr
      ⟨.inl rfl, fun i _ => h.hole_inside i⟩
  · intro a w hlo hhi
    change (∃ b ∈ T.blocks, _) ∨ ∃ i, (update T.hole k (0, 0) i).1 ≤ w ∧
      w < (update T.hole k (0, 0) i).2
    rcases h.cover a w hlo hhi with hw | ⟨i, hw⟩
    · exact .inl hw
    · have hi : i ≠ k := by
        rintro rfl
        omega
      exact .inr ⟨i, by rwa [update_of_ne hi]⟩

/-- **Reserving** a hole at the top of a space. -/
theorem Tight.grow [DecidableEq σ] (h : T.Tight) {k : η} {a : σ} {start top n : ℕ}
    (ha : T.space a = (start, top)) (hle : start ≤ top) (hk : (T.hole k).2 ≤ (T.hole k).1)
    (hfree : ∀ b, b ≠ a → SpanApart (T.space b) (start, top + n)) :
    Tight { T.setHole k (top, top + n) with
      space := update T.space a (start, top + n) } := by
  -- everything there is lies inside of a space, and hence apart from the new hole
  have hinside : ∀ q : ℕ × ℕ, (∃ b, (T.space b).1 ≤ q.1 ∧ q.2 ≤ (T.space b).2) →
      SpanApart q (top, top + n) := by
    rintro q ⟨b, hlo, hhi⟩
    by_cases hb : b = a
    · rw [hb, ha] at hhi
      exact .inl hhi
    · have hapart := hfree b hb
      unfold SpanApart at hapart ⊢
      omega
  have hhole : ∀ i, i ≠ k → SpanApart (top, top + n) (T.hole i) := by
    intro i hi
    rcases h.hole_inside i with hzero | hin
    · rw [hzero]
      exact .inr (Nat.zero_le _)
    · exact (hinside _ hin).symm
  have hgrown : ∀ b, (T.space b).1 = (update T.space a (start, top + n) b).1 ∧
      (T.space b).2 ≤ (update T.space a (start, top + n) b).2 := by
    intro b
    by_cases hb : b = a
    · rw [hb, update_self, ha]
      exact ⟨rfl, Nat.le_add_right _ _⟩
    · rw [update_of_ne hb]
      exact ⟨rfl, le_rfl⟩
  refine ⟨apart_update h.spaces fun b hb => (hfree b hb).symm, h.pos, h.blocks,
    apart_update h.holes hhole, ?_, ?_, ?_, ?_⟩
  · exact fun b hb => (forall_update_iff T.hole fun _ => SpanApart b).mpr
      ⟨hinside b (h.block_inside b hb), fun i _ => h.apart b hb i⟩
  · intro b hb
    obtain ⟨c, hlo, hhi⟩ := h.block_inside b hb
    exact ⟨c, (hgrown c).1 ▸ hlo, hhi.trans (hgrown c).2⟩
  · have hself : update T.space a (start, top + n) a = (start, top + n) := update_self ..
    refine (forall_update_iff T.hole fun _ => HoleInside _).mpr
      ⟨.inr ⟨a, (congrArg Prod.fst hself).trans_le hle, (congrArg Prod.snd hself).ge⟩,
        fun i _ => ?_⟩
    refine (h.hole_inside i).imp_right ?_
    rintro ⟨c, hlo, hhi⟩
    exact ⟨c, (hgrown c).1 ▸ hlo, hhi.trans (hgrown c).2⟩
  · intro b w hlo hhi
    change (∃ c ∈ T.blocks, _) ∨ ∃ i, (update T.hole k (top, top + n) i).1 ≤ w ∧
      w < (update T.hole k (top, top + n) i).2
    change w < (update T.space a (start, top + n) b).2 at hhi
    by_cases hnew : b = a ∧ top ≤ w
    · refine .inr ⟨k, ?_⟩
      rw [hnew.1, update_self] at hhi
      rw [update_self]
      exact ⟨hnew.2, hhi⟩
    · have hold : w < (T.space b).2 := by
        by_cases hb : b = a
        · rw [hb, ha]
          exact not_le.mp fun hle => hnew ⟨hb, hle⟩
        · rwa [update_of_ne hb] at hhi
      rcases h.cover b w ((hgrown b).1 ▸ hlo) hold with hw | ⟨i, hw⟩
      · exact .inl hw
      · have hi : i ≠ k := by
          rintro rfl
          omega
        exact .inr ⟨i, by rwa [update_of_ne hi]⟩

end Holes

/-- **Walking**: without holes, the blocks lead from the start of a space to its top. -/
theorem Tight.walk (h : T.Tight) (hholes : ∀ k, (T.hole k).2 ≤ (T.hole k).1) {a : σ}
    (hle : (T.space a).1 ≤ (T.space a).2) :
    ReflTransGen (fun x y => (x, y) ∈ T.blocks) (T.space a).1 (T.space a).2 := by
  have hblock : ∀ x, (T.space a).1 ≤ x → x < (T.space a).2 → ∃ b ∈ T.blocks, b.1 ≤ x ∧ x < b.2 := by
    intro x hlo hhi
    refine (h.cover a x hlo hhi).resolve_right ?_
    rintro ⟨k, hk⟩
    have hempty := hholes k
    omega
  have hsame : ∀ b ∈ T.blocks, ∀ x, b.1 ≤ x → x < b.2 → (T.space a).1 ≤ x → x < (T.space a).2 →
      (T.space a).1 ≤ b.1 ∧ b.2 ≤ (T.space a).2 := by
    intro b hb x hbx hxb hlo hhi
    obtain ⟨c, hclo, hchi⟩ := h.block_inside b hb
    by_cases hca : c = a
    · exact hca ▸ ⟨hclo, hchi⟩
    · have hapart := h.spaces c a hca
      unfold SpanApart at hapart
      omega
  -- a block starts where another one or the space ends, until the top is reached
  suffices hfrom : ∀ n x, (T.space a).2 - x = n → (T.space a).1 ≤ x → x ≤ (T.space a).2 →
      (x = (T.space a).1 ∨ ∃ b ∈ T.blocks, b.2 = x) →
      ReflTransGen (fun x y => (x, y) ∈ T.blocks) x (T.space a).2 from
    hfrom _ _ rfl le_rfl hle (.inl rfl)
  intro n
  induction n using Nat.strong_induction_on with
  | _ n ih =>
    intro x hn hlo hhi hx
    by_cases htop : x = (T.space a).2
    · rw [htop]
    have hlt : x < (T.space a).2 := by omega
    obtain ⟨b, hb, hbx, hxb⟩ := hblock x hlo hlt
    obtain ⟨hblo, hbhi⟩ := hsame b hb x hbx hxb hlo hlt
    have hstart : b.1 = x := by
      rcases hx with rfl | ⟨c, hc, rfl⟩
      · omega
      · have hne : b ≠ c := by
          rintro rfl
          exact lt_irrefl _ hxb
        have hapart := h.blocks b hb c hc hne
        have hpos := h.pos c hc
        unfold SpanApart at hapart
        omega
    refine ReflTransGen.head ?_ (ih _ ?_ b.2 rfl (by omega) hbhi (.inr ⟨b, hb, rfl⟩))
    · rw [← hstart]
      exact hb
    · omega

/-! ## Paths -/

section Paths

variable {r : ℕ → ℕ → Prop} {x y : ℕ}

/-- The steps of a path from `x` to `y`. -/
def pathBlocks (r : ℕ → ℕ → Prop) (x y : ℕ) : Set (ℕ × ℕ) :=
  {b | ReflTransGen r x b.1 ∧ r b.1 b.2 ∧ ReflTransGen r b.2 y}

theorem path_le (hlt : ∀ x y, r x y → x < y) (h : ReflTransGen r x y) : x ≤ y := by
  induction h with
  | refl => exact le_rfl
  | tail _ hstep ih => exact ih.trans (hlt _ _ hstep).le

theorem path_total (hfun : ∀ x y z, r x y → r x z → y = z) {a b : ℕ}
    (ha : ReflTransGen r x a) (hb : ReflTransGen r x b) :
    ReflTransGen r a b ∨ ReflTransGen r b a := by
  induction ha with
  | refl => exact .inl hb
  | tail _ hstep ih =>
    rcases ih with hab | hba
    · rcases hab.cases_head with rfl | ⟨c, hac, hcb⟩
      · exact .inr (.single hstep)
      · obtain rfl := hfun _ _ _ hstep hac
        exact .inl hcb
    · exact .inr (hba.tail hstep)

theorem pathBlocks_apart (hlt : ∀ x y, r x y → x < y) (hfun : ∀ x y z, r x y → r x z → y = z)
    {b c : ℕ × ℕ} (hb : b ∈ pathBlocks r x y) (hc : c ∈ pathBlocks r x y) (hne : b ≠ c) :
    SpanApart b c := by
  -- of two steps from different points, one starts where the other has come to, or behind
  have hstep : ∀ b c : ℕ × ℕ, b ≠ c → r b.1 b.2 → r c.1 c.2 → ReflTransGen r b.1 c.1 →
      b.2 ≤ c.1 := by
    intro b c hne hb hc hbc
    rcases hbc.cases_head with heq | ⟨d, hbd, hdc⟩
    · exact absurd (Prod.ext heq (hfun _ _ _ hb (heq ▸ hc))) hne
    · obtain rfl := hfun _ _ _ hb hbd
      exact path_le hlt hdc
  rcases path_total hfun hb.1 hc.1 with hbc | hcb
  · exact .inl (hstep b c hne hb.2.1 hc.2.1 hbc)
  · exact .inr (hstep c b hne.symm hc.2.1 hb.2.1 hcb)

theorem pathBlocks_cover (h : ReflTransGen r x y) {w : ℕ} (hxw : x ≤ w) (hwy : w < y) :
    ∃ b ∈ pathBlocks r x y, b.1 ≤ w ∧ w < b.2 := by
  induction h with
  | refl => omega
  | @tail a c hxa hac ih =>
    by_cases hwa : w < a
    · obtain ⟨b, ⟨hxb, hb, hba⟩, hw⟩ := ih hwa
      exact ⟨b, ⟨hxb, hb, hba.tail hac⟩, hw⟩
    · exact ⟨(a, c), ⟨hxa, hac, .refl⟩, not_lt.mp hwa, hwy⟩

/-- **Spaces that are walked** from their starts to their tops are filled by the steps. -/
theorem tight_of_paths (hlt : ∀ x y, r x y → x < y) (hfun : ∀ x y z, r x y → r x z → y = z)
    {space : σ → ℕ × ℕ} (hspaces : ∀ a b, a ≠ b → SpanApart (space a) (space b))
    (hpath : ∀ a, ReflTransGen r (space a).1 (space a).2) :
    Tight (⟨space, fun _ => (0, 0), ⋃ a, pathBlocks r (space a).1 (space a).2⟩ :
      Territory σ η) := by
  have hinside : ∀ a, ∀ b ∈ pathBlocks r (space a).1 (space a).2,
      (space a).1 ≤ b.1 ∧ b.1 < b.2 ∧ b.2 ≤ (space a).2 := fun a b hb =>
    ⟨path_le hlt hb.1, hlt _ _ hb.2.1, path_le hlt hb.2.2⟩
  have hzero : ∀ q : ℕ × ℕ, SpanApart (0, 0) q := fun q => .inl (Nat.zero_le _)
  refine ⟨hspaces, ?_, ?_, fun _ _ _ => hzero _, fun b _ _ => (hzero b).symm, ?_, fun _ => .inl rfl,
    fun a w hlo hhi => .inl ?_⟩
  · rintro b hb
    obtain ⟨a, ha⟩ := Set.mem_iUnion.mp hb
    exact (hinside a b ha).2.1
  · rintro b hb c hc hbc
    obtain ⟨a, ha⟩ := Set.mem_iUnion.mp hb
    obtain ⟨a', ha'⟩ := Set.mem_iUnion.mp hc
    by_cases haa : a = a'
    · subst haa
      exact pathBlocks_apart hlt hfun ha ha' hbc
    · have hapart := hspaces a a' haa
      have hb := hinside a b ha
      have hc := hinside a' c ha'
      unfold SpanApart at hapart ⊢
      omega
  · rintro b hb
    obtain ⟨a, ha⟩ := Set.mem_iUnion.mp hb
    exact ⟨a, (hinside a b ha).1, (hinside a b ha).2.2⟩
  · obtain ⟨b, hb, hw⟩ := pathBlocks_cover (hpath a) hlo hhi
    exact ⟨b, Set.mem_iUnion.mpr ⟨a, hb⟩, hw⟩

end Paths

end Territory
