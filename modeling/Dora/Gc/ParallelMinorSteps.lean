import Dora.Gc.ParallelMinorInvariant

/-!
# The steps of the parallel minor collection

The steps of a task come down to a few moves that keep `CopyInv`.

## Main results

* `CopyInv.move`, `CopyInv.settle`: a task goes on, and sets its slot to the address of a copy
* `CopyInv.reserve`, `CopyInv.makeCopy`: it reserves memory, and makes a copy there
* `CopyInv.forwardWon`, `CopyInv.forwardLost`: the memory becomes a block or is taken back
-/

namespace Dora.Gc

open Function (update update_eq_self update_eq_self_iff update_idem update_of_ne update_self)
open List CopyTask CopyTasks CopyTask

attribute [local simp] CopyTask.slots setPc CopyPc.slot CopyPc.small

variable {ι : Type} {n : ℕ} {E : MinorHeap} {H : Heap} {s s' : CopyTasks ι n}
  {blocks : Set (ℕ × ℕ)} {gray : List (ℕ × ℕ)} {strict : Prop} {i : ι} {c : Claim}
  {slot obj vtblptr : ℕ}

/-- Not a copy of medium size, or one of an object whose header is the vtable. -/
def CopyPc.Timely (m : Memory) : CopyPc → Prop
  | .copyTo c => c.size < clabObjectSize ∨ m c.obj = c.vtblptr
  | _ => True

instance (m : Memory) : (pc : CopyPc) → Decidable (pc.Timely m)
  | .copyTo c => inferInstanceAs (Decidable (c.size < clabObjectSize ∨ m c.obj = c.vtblptr))
  | .idle | .load .. | .allocYoung .. | .promote .. | .forward .. | .fail .. | .done =>
    .isTrue trivial

/-- **No late copy**: an object of medium size is copied while its header is the vtable. -/
def Timely (s : CopyTasks ι n) : CopyAction ι → Prop
  | .run i => (s.tasks i).pc.Timely s.memory
  | _ => True

instance (s : CopyTasks ι n) : (a : CopyAction ι) → Decidable (Timely s a)
  | .run i => inferInstanceAs (Decidable ((s.tasks i).pc.Timely s.memory))
  | .take .. | .finish .. => .isTrue trivial

namespace CopyInv

variable [Fintype ι]

theorem next_slot (h : CopyInv E H strict s blocks gray) (i : ι)
    (hslot : slot ∈ (s.tasks i).slots) :
    ∃ x0, H.IsSlot s.forwarded slot x0 ∧ s.memory slot = H.memory x0 := by
  have hpending : slot ∈ s.pending H gray := mem_pending hslot
  obtain ⟨x0, hx0⟩ := h.graph.slots slot hpending
  exact ⟨x0, hx0, h.graph.read hpending hx0⟩

variable [DecidableEq ι]

/-! ## Moves -/

/-- **A step that keeps the holes**: the task goes on as `t`, some pending slots are done with, and
only slots and the holes of the task are written to. -/
theorem of_keep (hE : IsMinorHeap E H) (h : CopyInv E H strict s blocks gray) {m : Memory}
    {t : CopyTask} {objects : List ℕ} {gray' : List (ℕ × ℕ)} (settled : Multiset ℕ)
    (hhole : t.hole = (s.tasks i).hole)
    (hslots : ((s.tasks i).slots : Multiset ℕ) + (gray.flatMap H.fieldsOf : List ℕ) =
      settled + (t.slots + (gray'.flatMap H.fieldsOf : List ℕ)))
    (hmemory : ∀ x, m x ≠ s.memory x → (∃ x0, H.IsSlot s.forwarded x x0) ∨
      ∃ k, ((s.tasks i).hole k).1 ≤ x ∧ x < ((s.tasks i).hole k).2)
    (hgraph : ∀ pending, s.pending H gray = settled + pending → Evacuating H m s.forwarded pending)
    (hgray : objects = gray'.map Prod.snd) (hgrayMem : ∀ p ∈ gray', p ∈ s.forwarded)
    (ht : TaskInv H strict m s.forwarded t) :
    CopyInv E H strict ⟨m, s.tops, objects, s.forwarded, update s.tasks i t⟩ blocks gray' := by
  have hi : update s.tasks i t i = t := update_self ..
  have hothers : ∀ j, j ≠ i → update s.tasks i t j = s.tasks j := fun j hj => update_of_ne hj ..
  refine h.of_step hE [] (append_nil _).symm hothers
    (fun x hne => (hmemory x hne).imp_right .inr) rfl h.tops subset_rfl ?_ (by simp)
    (hgraph _ (pending_eq hothers ?_)) hgray hgrayMem
    (fun _ b hb hnot => absurd hb hnot) ?_
  · have hsame : territory E ⟨m, s.tops, objects, s.forwarded, update s.tasks i t⟩ blocks =
        s.territory E blocks :=
      territory_congr hothers ((congrArg hole hi).trans hhole) rfl
    exact hsame ▸ h.tight
  · dsimp only
    rw [hi, hslots]
  · dsimp only
    rwa [hi]

omit [DecidableEq ι] in
theorem graph_of_pending (h : CopyInv E H strict s blocks gray) {pending : Multiset ℕ}
    (hpending : s.pending H gray = 0 + pending) : Evacuating H s.memory s.forwarded pending := by
  rw [zero_add] at hpending
  exact hpending ▸ h.graph

section

variable (hE : IsMinorHeap E H) (h : CopyInv E H strict s blocks gray)
include hE h

/-- **A task moves** without doing anything to memory. -/
theorem move {t : CopyTask} (hslots : t.slots = (s.tasks i).slots)
    (hhole : t.hole = (s.tasks i).hole) (ht : TaskInv H strict s.memory s.forwarded t) :
    CopyInv E H strict (s.setTask i t) blocks gray :=
  h.of_keep hE 0 hhole (by rw [hslots, zero_add]) (fun _ hne => absurd rfl hne)
    (fun _ => h.graph_of_pending) h.gray_eq h.gray_mem ht

/-- **The slot of a task is done with**, and refers to where its target is now. -/
theorem settleSlot (i : ι) (slot x0 : ℕ) (t : CopyTask)
    (hslots : (s.tasks i).slots = slot :: t.slots) (hclaim : t.pc.claim = (s.tasks i).pc.claim)
    (hlab : ∀ b, t.lab b = (s.tasks i).lab b) (hpc : t.pc = .idle)
    (hslot : H.IsSlot s.forwarded slot x0)
    (htarget : H.movable (H.memory x0) = true → H.memory x0 ∈ s.forwarded.map Prod.fst) :
    CopyInv E H strict ⟨update s.memory slot (H.redirect (Copies.target s.forwarded) (H.memory x0)),
      s.tops, s.gray, s.forwarded, update s.tasks i t⟩ blocks gray := by
  refine h.of_keep hE {slot} (hole_congr hclaim hlab) ?_ (fun x hne => ?_)
    (fun pending hpending => ?_) h.gray_eq h.gray_mem ⟨fun b => hlab b ▸ (h.tasks i).labs b, ?_⟩
  · rw [hslots, ← Multiset.cons_coe, ← Multiset.singleton_add, add_assoc]
  · obtain rfl : x = slot := by
      by_contra hx
      exact hne (update_of_ne hx ..)
    exact .inl ⟨x0, hslot⟩
  · rw [Multiset.singleton_add] at hpending
    exact (hpending ▸ h.graph).settle hslot htarget
  · rw [hpc]
    trivial

/-- **The slot is set** to the address of the copy. -/
theorem settle {a : ℕ} (hpc : (s.tasks i).pc = .load slot obj) (ha : (obj, a) ∈ s.forwarded) :
    CopyInv E H strict (s.setSlot i (s.tasks i) s.memory slot a) blocks gray := by
  have hinv := (h.tasks i).pc
  rw [hpc] at hinv
  obtain ⟨x0, hslot, hobj, hmov⟩ := hinv
  have hdone := h.settleSlot hE i slot x0 ((s.tasks i).setPc .idle)
    (by simp [hpc]) (by rw [hpc]; rfl)
    (setPc_lab _ _) rfl hslot fun _ => hobj ▸ mem_map_of_mem ha
  rwa [H.redirect_of_movable (by rw [hobj]; exact hmov), hobj,
    Copies.target_eq h.graph.copies_nodup ha] at hdone

end

theorem settle_setTask (hE : IsMinorHeap E H) {t : CopyTask} {a : ℕ}
    (h : CopyInv E H strict (s.setTask i (t.setPc (.load slot obj))) blocks gray)
    (ha : (obj, a) ∈ s.forwarded) :
    CopyInv E H strict (s.setSlot i t s.memory slot a) blocks gray := by
  have hi : (s.setTask i (t.setPc (.load slot obj))).tasks i = t.setPc (.load slot obj) :=
    update_self ..
  have hdone := h.settle hE (by rw [hi]; rfl) ha
  rw [hi] at hdone
  unfold setSlot setTask at hdone
  rw [update_idem] at hdone
  exact hdone

/-! ## Memory for a copy -/

section

variable (hE : IsMinorHeap E H) (h : CopyInv E H strict s blocks gray)
include hE h

/-- **A buffer is filled or replaced**: only the rest of it is written to, and if that is a block,
the block is new. -/
theorem rebuffer {promote : Bool} {blocks' : Set (ℕ × ℕ)} (hclaim : (s.tasks i).pc.claim = none)
    (hsub : blocks ⊆ blocks')
    (hnew : ∀ b ∈ blocks', b ∉ blocks →
      b = (((s.tasks i).lab promote).top, ((s.tasks i).lab promote).limit) ∧
        WalkStep E.classes s'.memory b.1 b.2)
    (hmemory : ∀ x, x < ((s.tasks i).lab promote).top ∨ ((s.tasks i).lab promote).limit ≤ x →
      s'.memory x = s.memory x) (hbounds : s'.tops.bounds E = s.tops.bounds E)
    (htops : s'.tops.Valid E) (htight : (s'.territory E blocks').Tight)
    (hforwarded : s'.forwarded = s.forwarded) (hgray : s'.gray = s.gray)
    (hothers : ∀ j, j ≠ i → s'.tasks j = s.tasks j) (hlab : ((s'.tasks i).lab promote).Valid)
    (hlab' : (s'.tasks i).lab (!promote) = (s.tasks i).lab (!promote))
    (hslots : (s'.tasks i).slots = (s.tasks i).slots)
    (hpc : PcInv H strict s'.memory s'.forwarded (s'.tasks i) (s'.tasks i).pc) :
    CopyInv E H strict s' blocks' gray := by
  have hhole : (s.tasks i).hole (some promote) =
      (((s.tasks i).lab promote).top, ((s.tasks i).lab promote).limit) :=
    hole_of_claim_none hclaim promote
  have hchange : ∀ x, s'.memory x ≠ s.memory x →
      ((s.tasks i).hole (some promote)).1 ≤ x ∧ x < ((s.tasks i).hole (some promote)).2 := by
    intro x hne
    by_contra hout
    rw [hhole] at hout
    exact hne (hmemory x (by dsimp only at hout; omega))
  refine h.of_step hE [] (by rw [hforwarded, append_nil]) hothers
    (fun x hne => .inr (.inr ⟨_, hchange x hne⟩)) hbounds htops hsub htight (by simp) ?_
    (hgray.trans h.gray_eq) (hforwarded ▸ h.gray_mem) ?_ ⟨fun b => ?_, hpc⟩
  · have hpending : s.pending H gray = 0 + s'.pending H gray :=
      pending_eq hothers (by rw [hslots, zero_add])
    rw [zero_add] at hpending
    rw [hforwarded]
    exact (hpending ▸ h.graph).write fun _ => h.relevant_eq hchange
  · -- there are no slots in the rest of a buffer
    intro _ b hb hnot
    obtain ⟨rfl, hstep⟩ := hnew b hb hnot
    refine ⟨hstep, fun x x0 hslot hlo hhi => ?_⟩
    rw [hforwarded] at hslot
    have hout := h.not_in_hole (hslot.relevant h.graph.mem_objects) i (some promote)
    rw [hhole] at hout
    omega
  · by_cases hb : b = promote
    · rw [hb]
      exact hlab
    · obtain rfl : b = !promote := Bool.eq_not_of_ne hb
      rw [hlab']
      exact (h.tasks i).labs _

/-- **Memory is reserved** for a copy, or there is none. -/
theorem reserve {promote failed : Bool} {bump : Tops n → ℕ → Option ℕ × Tops n}
    (hbump : BumpSpec E bump) {size : ℕ} (hsize : 8 ∣ size) (hclaim : (s.tasks i).pc.claim = none)
    {addr : Option ℕ} {st : Allocation n}
    (halloc : allocObject E.fillers bump ⟨(s.tasks i).lab promote, failed, s.memory, s.tops⟩ size =
      (addr, st)) (hmemory : s'.memory = st.memory) (htops : s'.tops = st.tops)
    (hforwarded : s'.forwarded = s.forwarded) (hgray : s'.gray = s.gray)
    (hothers : ∀ j, j ≠ i → s'.tasks j = s.tasks j) (hlab : (s'.tasks i).lab promote = st.lab)
    (hlab' : (s'.tasks i).lab (!promote) = (s.tasks i).lab (!promote))
    (hslots : (s'.tasks i).slots = (s.tasks i).slots)
    (hclaim' : (s'.tasks i).pc.claim =
      addr.map fun dest => ⟨slot, obj, vtblptr, size, promote, dest⟩)
    (hpc : (∀ dest ∈ addr, 8 ∣ dest ∧
        (size < clabObjectSize → dest + size = ((s'.tasks i).lab promote).top)) →
      PcInv H strict s'.memory s'.forwarded (s'.tasks i) (s'.tasks i).pc) :
    ∃ blocks', CopyInv E H strict s' blocks' gray := by
  have hhole : ∀ b, (s.tasks i).hole (some b) =
    (((s.tasks i).lab b).top, ((s.tasks i).lab b).limit) := hole_of_claim_none hclaim
  obtain ⟨st0, hst0⟩ : ∃ st0 : Allocation n,
      st0 = ⟨(s.tasks i).lab promote, failed, s.memory, s.tops⟩ := ⟨_, rfl⟩
  have hspec : Allocated E (s.territory E blocks).hole blocks (i, some promote) (i, none) st0
      (allocObject E.fillers bump st0 size).2 size (allocObject E.fillers bump st0 size).1 := by
    subst hst0
    exact allocObject_spec hbump h.tight h.tops ((h.tasks i).labs promote) (hhole promote) (by simp)
      (hole_none_of_claim_none hclaim) hsize hE.fillers
  rw [hst0, halloc] at hspec
  obtain ⟨blocks', hsub, hnew, htight⟩ := hspec.territory
  refine ⟨blocks', h.rebuffer hE hclaim hsub (hmemory ▸ hnew) (hmemory ▸ hspec.memory)
    (htops ▸ hspec.bounds) (htops ▸ hspec.tops) ?_ hforwarded hgray hothers (hlab ▸ hspec.lab) hlab'
    hslots (hpc (hlab ▸ hspec.dest))⟩
  have hother : (s'.tasks i).hole (some !promote) = (s.tasks i).hole (some !promote) := by
    have hsmall : (s'.tasks i).pc.small (!promote) = 0 := by
      rw [CopyPc.small, hclaim']
      cases addr <;> simp
    rw [hhole, hole, hlab', hsmall, Nat.sub_zero]
  have hsome : (s'.tasks i).hole (some promote) =
      (st.lab.top - (if addr.isSome ∧ size < clabObjectSize then size else 0), st.lab.limit) := by
    rw [hole, hlab, CopyPc.small, hclaim']
    cases addr <;> simp
  have hnone : (s'.tasks i).hole none = addr.elim (0, 0) fun addr =>
      if size < clabObjectSize then (0, 0) else (addr, addr + size) := by
    rw [hole, CopyPc.medium, hclaim']
    cases addr <;> simp
  unfold territory
  rw [hole_update promote hothers hother, htops, hsome, hnone]
  exact htight

/-- **A buffer is made iterable** and given up. -/
theorem fill (promote : Bool) (hclaim : (s.tasks i).pc.claim = none)
    (hmemory : s'.memory = fillRegion E.fillers s.memory ((s.tasks i).lab promote).top
      ((s.tasks i).lab promote).limit) (htops : s'.tops = s.tops)
    (hforwarded : s'.forwarded = s.forwarded) (hgray : s'.gray = s.gray)
    (hothers : ∀ j, j ≠ i → s'.tasks j = s.tasks j) (hlab : (s'.tasks i).lab promote = .new)
    (hlab' : (s'.tasks i).lab (!promote) = (s.tasks i).lab (!promote))
    (hslots : (s'.tasks i).slots = (s.tasks i).slots) (hclaim' : (s'.tasks i).pc.claim = none)
    (hpc : PcInv H strict s'.memory s'.forwarded (s'.tasks i) (s'.tasks i).pc) :
    ∃ blocks', CopyInv E H strict s' blocks' gray := by
  have hhole : ∀ b, (s.tasks i).hole (some b) =
    (((s.tasks i).lab b).top, ((s.tasks i).lab b).limit) := hole_of_claim_none hclaim
  obtain ⟨blocks', hsub, htight, hnew, houtside⟩ := fillLab_spec hE.fillers h.tight
    ((h.tasks i).labs promote) (k := (i, some promote)) (hhole promote)
  rw [← hmemory] at hnew houtside
  refine ⟨blocks', h.rebuffer hE hclaim hsub hnew houtside (by rw [htops]) (htops ▸ h.tops) ?_
    hforwarded hgray hothers (hlab ▸ Lab.valid_new) hlab' hslots hpc⟩
  have hother : (s'.tasks i).hole (some !promote) = (s.tasks i).hole (some !promote) := by
    rw [hhole, hole_of_claim_none hclaim', hlab']
  have hsome : (s'.tasks i).hole (some promote) = (0, 0) := by
    rw [hole_of_claim_none hclaim', hlab]
    rfl
  unfold territory
  rw [hole_update promote hothers hother, htops, hsome, hole_none_of_claim_none hclaim',
    update_eq_self_iff.mpr]
  · exact htight
  · rw [update_of_ne (by simp)]
    exact (hole_none_of_claim_none hclaim).symm

/-- **The copy is made**. -/
theorem makeCopy (hpc : (s.tasks i).pc = .copyTo c)
    (htimely : strict → c.size < clabObjectSize ∨ s.memory c.obj = c.vtblptr) :
    CopyInv E H strict
      ({ s with memory := copyTo s.memory c.obj c.dest c.size }.goto i (.forward c))
        blocks gray := by
  have hc : (s.tasks i).pc.claim = some c := by rw [hpc]; rfl
  have hclaim := (h.tasks i).claim hc
  have hobj := h.mem_objects hclaim.visits
  obtain ⟨k, hlo, hhi⟩ := h.claim_hole hc
  have hchange : ∀ x, s.memory.move c.obj c.dest c.size x ≠ s.memory x →
      ((s.tasks i).hole k).1 ≤ x ∧ x < ((s.tasks i).hole k).2 := by
    intro x hne
    by_contra hout
    exact hne (Memory.move_outside (by omega))
  refine h.of_keep hE (m := s.memory.move c.obj c.dest c.size) 0
    (t := (s.tasks i).setPc (.forward c)) ?_ ?_ (fun x hne => .inr ⟨k, hchange x hne⟩)
    (fun _ hpending => (h.graph_of_pending hpending).write fun _ => h.relevant_eq hchange)
    h.gray_eq h.gray_mem
    ⟨fun b => setPc_lab _ _ b ▸ (h.tasks i).labs b, ?_, ?_, ?_⟩
  · exact hole_congr (by rw [hc]; rfl) (setPc_lab _ _)
  · rw [zero_add]
    simp [hpc]
  · refine ⟨hclaim.visits, hclaim.vtblptr, hclaim.size, hclaim.aligned, fun hsmall => ?_⟩
    rw [hclaim.small hsmall, setPc_lab]
  · intro l hl hpos
    rw [Memory.move_dest hl]
    exact h.graph.body hobj (hclaim.size ▸ hl) hpos
  · -- the header is the vtable, unless another task was faster
    have hpos := (h.claim_size hE hc).2
    have hhead : s.memory.move c.obj c.dest c.size c.dest = s.memory c.obj :=
      Memory.move_dest (k := 0) (by omega)
    rw [hhead]
    by_cases hmem : c.obj ∈ s.forwarded.map Prod.fst
    · by_cases hvtbl : s.memory c.obj = c.vtblptr
      · exact .inl (hvtbl.trans hclaim.vtblptr)
      · exact .inr ⟨hmem, fun hstrict => (htimely hstrict).resolve_right hvtbl⟩
    · exact .inl (h.graph.header.2 c.obj hobj hmem)

end

/-! ## The end of a copy -/

/-- **The memory of a copy becomes a block**. -/
theorem tight_block (h : CopyInv E H strict s blocks gray) (hc : (s.tasks i).pc.claim = some c)
    (hpos : 0 < c.size) (hothers : ∀ j, j ≠ i → s'.tasks j = s.tasks j)
    (hclaim' : (s'.tasks i).pc.claim = none) (hlab : ∀ b, (s'.tasks i).lab b = (s.tasks i).lab b)
    (htops : s'.tops = s.tops) :
    (s'.territory E (insert (c.dest, c.dest + c.size) blocks)).Tight := by
  have hclaim := (h.tasks i).claim hc
  have hnone : (s'.tasks i).hole none = (0, 0) := hole_none_of_claim_none hclaim'
  have hsome : ∀ b, (s'.tasks i).hole (some b) =
      (((s.tasks i).lab b).top, ((s.tasks i).lab b).limit) := fun b => by
    rw [hole_of_claim_none hclaim', hlab]
  by_cases hsmall : c.size < clabObjectSize
  · -- the buffer begins behind the copy
    have htop := hclaim.small hsmall
    have hother : (s'.tasks i).hole (some !c.promote) = (s.tasks i).hole (some !c.promote) := by
      rw [hsome]
      simp [hc]
    have hmedium : (s.tasks i).hole none = (0, 0) := by
      simp [hc, hsmall]
    have hcarve := h.tight.carve (k := (i, some c.promote)) (x := c.dest) (y := c.dest + c.size)
      (z := ((s.tasks i).lab c.promote).limit) ?_ (by omega) ?_
    · unfold territory
      rw [hole_update c.promote hothers hother, htops, hsome, hnone, ← htop, update_eq_self_iff.mpr]
      · exact hcarve
      · rw [update_of_ne (by simp)]
        exact hmedium.symm
    · change (s.tasks i).hole (some c.promote) = _
      rw [hole_small hc hsmall, ← htop, Nat.add_sub_cancel]
    · rw [htop]
      exact ((h.tasks i).labs c.promote).le
  · have hsame : ∀ b, (s'.tasks i).hole (some b) = (s.tasks i).hole (some b) := by
      intro b
      rw [hsome]
      simp [hc, hsmall]
    have hcarve := h.tight.carve (k := (i, none)) (hole_medium hc hsmall) (by omega) le_rfl
    have hreset := hcarve.reset (k := (i, none)) (by simp [Territory.setHole])
    simp only [Territory.setHole, update_idem] at hreset
    unfold territory
    rw [hole_update true hothers (hsame _), htops, hnone, hsame true, update_eq_self]
    exact hreset

section

variable (hE : IsMinorHeap E H) (h : CopyInv E H strict s blocks gray)
include hE h

omit [DecidableEq ι] in
theorem solid_block (hc : (s.tasks i).pc.claim = some c) {m : Memory} {more : Copies}
    (hmore : ∀ p ∈ more, p = (c.obj, c.dest))
    (hcopy : ∀ k < c.size, m (c.dest + k) = H.memory (c.obj + k)) :
    Solid E.classes H m (s.forwarded ++ more) (c.dest, c.dest + c.size) := by
  have hclaim := (h.tasks i).claim hc
  rw [hclaim.size] at hcopy ⊢
  refine solid_of_copy hE (h.mem_objects hclaim.visits) hcopy fun x x0 hslot hlo hhi => ?_
  obtain ⟨k, hklo, hkhi⟩ := h.claim_hole hc
  have hold : ∀ x1, ¬H.IsSlot s.forwarded x x1 := by
    intro x1 hslot'
    have hout := h.not_in_hole (hslot'.relevant h.graph.mem_objects) i k
    have hsize := hclaim.size
    omega
  rcases hslot with hslot | ⟨p, hp, l, hl, hx, hx0⟩
  · exact absurd (.inl hslot) (hold x0)
  rcases mem_append.mp hp with hp | hp
  · exact absurd (.inr ⟨p, hp, l, hl, hx, hx0⟩) (hold x0)
  · obtain rfl := hmore p hp
    exact ⟨l, hl, hx⟩

/-- **The address of the copy goes into the header**. -/
theorem forwardWon (hpc : (s.tasks i).pc = .forward c) (hheader : s.memory c.obj = c.vtblptr) :
    CopyInv E H strict
      ({ s with
        memory := update s.memory c.obj (c.dest ||| 1)
        gray := c.dest :: s.gray
        forwarded := s.forwarded ++ [(c.obj, c.dest)] }.setTask i
          ((s.tasks i).setPc (.load c.slot c.obj)))
      (insert (c.dest, c.dest + c.size) blocks) ((c.obj, c.dest) :: gray) := by
  generalize hs' : setTask _ i _ = s'
  have hmemory : s'.memory = update s.memory c.obj (c.dest ||| 1) := by rw [← hs']; rfl
  have hforwarded : s'.forwarded = s.forwarded ++ [(c.obj, c.dest)] := by rw [← hs']; rfl
  have htops : s'.tops = s.tops := by rw [← hs']; rfl
  have hgray : s'.gray = c.dest :: s.gray := by rw [← hs']; rfl
  have hi : s'.tasks i = (s.tasks i).setPc (.load c.slot c.obj) := by
    rw [← hs']
    exact update_self ..
  have hothers : ∀ j, j ≠ i → s'.tasks j = s.tasks j := by
    intro j hj
    rw [← hs']
    exact update_of_ne hj ..
  have hc : (s.tasks i).pc.claim = some c := by rw [hpc]; rfl
  have hclaim := (h.tasks i).claim hc
  have hobj := h.mem_objects hclaim.visits
  have hpos := (h.claim_size hE hc).2
  have hmade := (h.tasks i).pc
  rw [hpc] at hmade
  obtain ⟨k, hlo, hhi⟩ := h.claim_hole hc
  -- a vtable is no forwarding address
  have hnew : c.obj ∉ s.forwarded.map Prod.fst := by
    intro hmem
    obtain ⟨p, hp, hfst⟩ := mem_map.mp hmem
    have hword := h.graph.header.1 p hp
    rw [hfst, hheader, hclaim.vtblptr, hE.forward] at hword
    have haligned := hE.vtbl_aligned c.obj hobj
    have hodd := or_one_eq (a := p.2) (by have := (h.copies p hp).2; omega)
    have hdvd := (h.copies p hp).2
    omega
  have hout : ∀ x, H.Relevant s.forwarded x → x < c.dest ∨ c.dest + c.size ≤ x := by
    intro x hx
    have := h.not_in_hole hx i k
    omega
  have happart : ∀ a k, 0 < k → (∀ l < k, H.Relevant s.forwarded (a + l)) →
      Apart a k c.dest (H.size c.obj) := fun a k hk hrel =>
    apart_of_forall hk (by rw [← hclaim.size]; omega) fun l hl => hclaim.size ▸ hout _ (hrel l hl)
  have hfresh : Fresh H s.forwarded c.obj c.dest := by
    refine ⟨fun o ho => (happart o _ (H.size_pos o ho) fun l hl => ?_).symm, fun x hx => ?_,
      fun p hp => happart p.2 _ (H.size_pos _ (h.graph.mem_objects p hp)) fun l hl => ?_⟩
    · exact .inr (.inl ⟨o, ho, Nat.le_add_right _ _, by omega⟩)
    · refine happart x 1 Nat.one_pos fun l hl => ?_
      obtain rfl : l = 0 := by omega
      exact .inl hx
    · exact .inr (.inr ⟨p, hp, Nat.le_add_right _ _, by omega⟩)
  have hcopy := hmade.2.copy (hmade.2.header.resolve_right fun hor => hnew hor.1)
  have hcopy' : ∀ l < c.size, s'.memory (c.dest + l) = H.memory (c.obj + l) := by
    intro l hl
    have hrel := hout c.obj (.inr (.inl ⟨c.obj, hobj, le_rfl,
      Nat.lt_add_of_pos_right (H.size_pos _ hobj)⟩))
    rw [hmemory, update_of_ne (by omega)]
    exact hcopy l hl
  refine h.of_step hE _ hforwarded hothers ?_ (by rw [htops]) (htops ▸ h.tops)
    (Set.subset_insert _ _) ?_ ?_ ?_ ?_ ?_ ?_ ?_
  · intro x hne
    rw [hmemory] at hne
    obtain rfl : x = c.obj := by
      by_contra hx
      exact hne (update_of_ne hx ..)
    exact .inr (.inl hobj)
  · refine h.tight_block hc (by omega) hothers (by rw [hi]; rfl) (fun b => ?_) htops
    rw [hi, setPc_lab]
  · intro p hp
    obtain rfl := mem_singleton.mp hp
    rw [← hclaim.size]
    refine ⟨Set.mem_insert _ _, fun hmem => ?_, hclaim.aligned⟩
    have hapart := h.tight.apart _ hmem (i, k)
    change SpanApart _ ((s.tasks i).hole k) at hapart
    unfold SpanApart at hapart
    omega
  · have hpending : s'.pending H ((c.obj, c.dest) :: gray) =
        (H.fieldsOf (c.obj, c.dest)) + s.pending H gray := by
      refine pending_eq (fun j hj => (hothers j hj).symm) ?_
      rw [hi, flatMap_cons, ← Multiset.coe_add]
      simp only [CopyTask.slots, hpc]
      exact add_left_comm ..
    rw [hpending, hmemory, hforwarded, add_comm, ← hE.forward]
    exact h.graph.evacuate (hclaim.visits.reaches h.graph) hnew hfresh (hE.nodup_offsets hobj)
      fun l hl => hcopy l (hclaim.size ▸ hl)
  · rw [hgray, h.gray_eq]
    rfl
  · intro p hp
    rw [hforwarded]
    rcases mem_cons.mp hp with rfl | hp
    · simp
    · exact mem_append_left _ (h.gray_mem p hp)
  · rintro - b (rfl | hb) hnot
    · rw [hforwarded]
      exact h.solid_block hE hc (fun p hp => mem_singleton.mp hp) hcopy'
    · exact absurd hb hnot
  · rw [hi, hforwarded]
    refine ⟨fun b => setPc_lab _ _ b ▸ (h.tasks i).labs b, ?_⟩
    exact hclaim.visits.append _

/-- **The copy is given up**: a small one is taken back, one of medium size becomes a block. -/
theorem forwardLost (hpc : (s.tasks i).pc = .forward c) :
    ∃ blocks', CopyInv E H strict
      (s.setTask i ((undoAlloc (s.tasks i) c).setPc (.load c.slot c.obj))) blocks' gray := by
  have hc : (s.tasks i).pc.claim = some c := by rw [hpc]; rfl
  have hclaim := (h.tasks i).claim hc
  have hsize := h.claim_size hE hc
  have hmade := (h.tasks i).pc
  rw [hpc] at hmade
  by_cases hsmall : c.size < clabObjectSize
  · -- the buffer begins where the copy was
    generalize ht : undoAlloc (s.tasks i) c = t
    obtain ⟨hlab, hlab', htodo⟩ : t.lab c.promote = ((s.tasks i).lab c.promote).undoAlloc c.size ∧
          t.lab (!c.promote) = (s.tasks i).lab (!c.promote) ∧ t.todo = (s.tasks i).todo := by
      rw [← ht, undoAlloc, if_pos hsmall]
      cases c.promote <;> exact ⟨rfl, rfl, rfl⟩
    refine ⟨blocks, h.move hE ?_ ?_ ⟨fun b => ?_, hclaim.visits⟩⟩
    · simp [hpc, htodo]
    · have hnew : (t.setPc (.load c.slot c.obj)).pc.claim = none := rfl
      funext k
      cases k with
      | none =>
        rw [hole_none_of_claim_none hnew]
        simp [hc, hsmall]
      | some b =>
        rw [hole_of_claim_none hnew, setPc_lab]
        by_cases hb : b = c.promote
        · rw [hb, hlab, hole_small hc hsmall]
          rfl
        · obtain rfl : b = !c.promote := Bool.eq_not_of_ne hb
          rw [hlab']
          simp [hc]
    · rw [setPc_lab]
      have hvalid := (h.tasks i).labs b
      by_cases hb : b = c.promote
      · subst hb
        rw [hlab]
        refine ⟨Nat.dvd_sub hvalid.top_aligned hsize.1, hvalid.limit_aligned, ?_⟩
        exact (Nat.sub_le _ _).trans hvalid.le
      · obtain rfl : b = !c.promote := Bool.eq_not_of_ne hb
        rw [hlab']
        exact hvalid
  · have hundo : undoAlloc (s.tasks i) c = s.tasks i := if_neg hsmall
    rw [hundo]
    generalize ht : (s.tasks i).setPc (.load c.slot c.obj) = t
    have hi : update s.tasks i t i = (s.tasks i).setPc (.load c.slot c.obj) := by
      rw [update_self, ht]
    have hothers : ∀ j, j ≠ i → update s.tasks i t j = s.tasks j := fun j hj => update_of_ne hj ..
    refine ⟨insert (c.dest, c.dest + c.size) blocks, h.of_step hE []
      (append_nil _).symm hothers (fun x hne => absurd rfl hne) rfl h.tops
      (Set.subset_insert _ _) ?_ (by simp)
      (h.graph_of_pending (pending_eq hothers ?_)) h.gray_eq h.gray_mem ?_ ?_⟩
    · refine h.tight_block hc (by omega) hothers (congrArg (·.pc.claim) hi) (fun b => ?_) rfl
      exact (congrArg (·.lab b) hi).trans (setPc_lab ..)
    · dsimp only [setTask]
      rw [hi, zero_add]
      simp [hpc]
    · -- a copy that was not late has the header of the original
      rintro hstrict b (rfl | hb) hnot
      · have hcopy := hmade.2.copy (hmade.2.header.resolve_right fun hor => hsmall (hor.2 hstrict))
        have hnil : ∀ p ∈ [], p = (c.obj, c.dest) := by simp
        have hsolid := h.solid_block hE hc hnil hcopy
        rwa [append_nil] at hsolid
      · exact absurd hb hnot
    · change TaskInv H strict _ _ (update s.tasks i t i)
      rw [hi]
      exact ⟨fun b => setPc_lab _ _ b ▸ (h.tasks i).labs b, hclaim.visits⟩

end

end CopyInv

end Dora.Gc
