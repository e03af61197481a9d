import Dora.Gc.Controller
import Dora.Lib.Program
import Dora.Lib.System
import Mathlib.Tactic.NormNum

/-!
# Keeping to the heap budget

The sizes that the controller gives out never exceed the maximum heap size, and the survivors of a
collection fit into the new to-space as long as the young generation is still large enough.

## Main definitions

* `HeapState.Budget`, `HeapState.Valid`: the sizes fit, and the blocks keep their bounds
* `Roomy`: the new young generation has room for the survivors
* `heap`: the system of the collections and of the growth in between

## Main results

* `stop_spec`, `HeapState.Valid.heapStep_spec`: what the end of a collection and a step do
* `budget_iff`: every state of every run is within the budget, and exactly the collections without
  room for their survivors panic
-/

namespace Dora.Gc

open Block

attribute [local simp] Region.size

/-! ## Alignment -/

theorem genSize_eq : genSize = 131072 := by
  norm_num [genSize, genAlignmentBits, Nat.shiftLeft_eq]

variable (v : ℕ)

theorem alignGen_eq : alignGen v = (v + 131071) / 131072 * 131072 := by
  have hpow : 2 ^ genAlignmentBits = 131072 := by norm_num [genAlignmentBits]
  have hsub : v + 131072 - 1 = v + 131071 := by omega
  rw [alignGen, Nat.shiftLeft_eq, Nat.shiftLeft_eq, Nat.shiftRight_eq_div_pow, hpow, Nat.one_mul,
    hsub]

theorem alignGenDown_eq : alignGenDown v = v / 131072 * 131072 := by
  have hand : v &&& (2 ^ 17 - 1) = v % 2 ^ 17 := Nat.and_two_pow_sub_one_eq_mod v 17
  simp only [alignGenDown, clearBits, genSize_eq]
  norm_num at hand ⊢
  omega

theorem genAligned_iff : genAligned v = true ↔ genSize ∣ v := by
  have hand : v &&& (2 ^ 17 - 1) = v % 2 ^ 17 := Nat.and_two_pow_sub_one_eq_mod v 17
  norm_num at hand
  simp [genAligned, genSize_eq, hand, Nat.dvd_iff_mod_eq_zero]

theorem dvd_alignGen : genSize ∣ alignGen v := by
  rw [genSize_eq, alignGen_eq]
  exact Nat.dvd_mul_left _ _

theorem le_alignGen : v ≤ alignGen v := by
  rw [alignGen_eq]
  omega

theorem alignGen_le_iff {v bound : ℕ} (h : genSize ∣ bound) : alignGen v ≤ bound ↔ v ≤ bound := by
  refine ⟨(le_alignGen v).trans, fun hle => ?_⟩
  rw [genSize_eq] at h
  rw [alignGen_eq]
  omega

variable (args : Args) {pageBits : ℕ}

theorem dvd_targetYoungSize (rest : ℕ) : genSize ∣ targetYoungSize args rest := by
  have hdown : genSize ∣ alignGenDown (rest / 2) := by
    rw [genSize_eq, alignGenDown_eq]
    exact Nat.dvd_mul_left _ _
  refine max_rec' (genSize ∣ ·) ?_ (dvd_refl _)
  cases args.youngSize with
  | none => exact hdown
  | some youngSize => exact min_rec' (genSize ∣ ·) hdown (dvd_alignGen youngSize)

theorem genSize_le_targetYoungSize (rest : ℕ) : genSize ≤ targetYoungSize args rest :=
  le_max_right _ _

theorem targetYoungSize_le {rest bound : ℕ} (hrest : rest ≤ bound) (hbound : 2 * genSize ≤ bound) :
    targetYoungSize args rest ≤ bound / 2 := by
  have hdown := alignGenDown_eq (rest / 2)
  have hle : alignGenDown (rest / 2) ≤ bound / 2 := by omega
  refine max_le ?_ (by omega)
  cases args.youngSize with
  | none => exact hle
  | some youngSize => exact (min_le_left _ _).trans hle

theorem pageAlign_eq (pageBits v : ℕ) :
    pageAlign pageBits v = (v + 2 ^ pageBits - 1) / 2 ^ pageBits * 2 ^ pageBits := by
  simp [pageAlign, Nat.shiftRight_eq_div_pow, Nat.shiftLeft_eq]

theorem le_pageAlign (pageBits v : ℕ) : v ≤ pageAlign pageBits v := by
  rw [pageAlign_eq]
  have hdiv := Nat.div_add_mod (v + 2 ^ pageBits - 1) (2 ^ pageBits)
  rw [Nat.mul_comm] at hdiv
  omega

theorem isPageAligned_of_dvd {v : ℕ} (hpage : pageBits ≤ 16) (h : 65536 ∣ v) :
    isPageAligned pageBits v = true := by
  have hdvd : 2 ^ pageBits ∣ v := (pow_dvd_pow 2 hpage).trans h
  simp [isPageAligned, Nat.shiftRight_eq_div_pow, Nat.shiftLeft_eq, Nat.div_mul_cancel hdvd]

/-! ## Floating-point numbers -/

theorem roundF64_le (n : ℕ) : roundF64 n * 2 ^ 53 ≤ n * (2 ^ 53 + 1) := by
  unfold roundF64
  by_cases he : n.log2 + 1 - 53 = 0
  · simp only [he, if_true]
    omega
  · -- the last place is worth `2 ^ e`, and the number has `53 + e` bits
    obtain ⟨e, hlog⟩ : ∃ e, n.log2 + 1 - 53 = e + 1 := ⟨n.log2 + 1 - 53 - 1, by omega⟩
    have hn : n ≠ 0 := by
      rintro rfl
      simp at he
    have hbits : 2 ^ 53 * 2 ^ e ≤ n := by
      rw [← Nat.pow_add]
      refine le_trans (Nat.pow_le_pow_right (by decide) ?_) (Nat.log2_self_le hn)
      omega
    have hdiv := Nat.div_add_mod n (2 ^ (e + 1))
    have hround : ∀ q', q' * 2 ^ (e + 1) ≤ n + 2 ^ e →
        q' * 2 ^ (e + 1) * 2 ^ 53 ≤ n * (2 ^ 53 + 1) := by
      intro q' hq'
      calc q' * 2 ^ (e + 1) * 2 ^ 53 ≤ (n + 2 ^ e) * 2 ^ 53 := Nat.mul_le_mul_right _ hq'
        _ = n * 2 ^ 53 + 2 ^ 53 * 2 ^ e := by rw [Nat.add_mul, Nat.mul_comm (2 ^ e)]
        _ ≤ n * 2 ^ 53 + n := Nat.add_le_add_left hbits _
        _ = n * (2 ^ 53 + 1) := by rw [Nat.mul_add, Nat.mul_one]
    rw [Nat.mul_comm] at hdiv
    simp only [hlog, Nat.add_eq_zero_iff, one_ne_zero, and_false, if_false]
    split_ifs with hlt hgt
    · exact hround _ (by omega)
    · refine hround _ ?_
      rw [Nat.add_mul, Nat.one_mul]
      omega
    · refine hround _ ?_
      have hparity : n / 2 ^ (e + 1) % 2 * 2 ^ (e + 1) ≤ 1 * 2 ^ (e + 1) :=
        Nat.mul_le_mul_right _ (by omega)
      rw [Nat.add_mul]
      omega

theorem timesNineTenths_le (n : ℕ) : timesNineTenths n ≤ n := by
  have hfirst := roundF64_le n
  have hsecond := roundF64_le (roundF64 n * nineTenths)
  unfold timesNineTenths
  generalize roundF64 (roundF64 n * nineTenths) = r at hsecond ⊢
  have hle : r ≤ n * 2 ^ 53 := by
    norm_num [nineTenths] at hfirst hsecond ⊢
    omega
  exact Nat.div_le_of_le_mul (by rwa [Nat.mul_comm])

/-! ## The functions -/

section Checks

variable {p : Prop} [Decidable p] {a b : ℕ}

theorem assert_pos (h : p) : assert p = .ok () := if_pos h

theorem checkedSub_of_le (h : b ≤ a) : checkedSub a b = .ok (a - b) := if_pos h

theorem checkedSub_of_lt (h : a < b) : checkedSub a b = .error .panic := if_neg (by omega)

end Checks

/-- **What the end of a collection does**: without room it panics, and with it what it returns is
`P`, unless the heap is too small. -/
structure Ends {α : Type} (room : Prop) (P : α → Prop) (x : Except Stop α) : Prop where
  panics : ¬room → x = .error .panic
  returns : room → x = .error .oom ∨ ∃ a, x = .ok a ∧ P a

theorem Ends.bind {α β : Type} {room : Prop} {P : α → Prop} {Q : β → Prop} {x : Except Stop α}
    (h : Ends room P x) {f : α → β} (hf : ∀ a, P a → Q (f a)) :
    Ends room Q (x >>= fun a => .ok (f a)) where
  panics hroom := by
    rw [h.panics hroom]
    rfl
  returns hroom := by
    rcases h.returns hroom with hoom | ⟨a, hok, ha⟩
    · rw [hoom]
      exact .inl rfl
    · rw [hok]
      exact .inr ⟨f a, rfl, hf a ha⟩

/-- **The spec of `calculate_young_size`**: it underflows exactly if the young generation is
smaller than the semi-spaces have to be. -/
theorem calculateYoungSize_spec {youngSize minSemiSize : ℕ} (hyoung : genSize ∣ youngSize)
    (hle : genSize ≤ youngSize) (hmin : genSize ∣ minSemiSize) :
    (minSemiSize ≤ youngSize → ∃ semiSize,
        calculateYoungSize args youngSize minSemiSize = .ok (youngSize - semiSize, semiSize) ∧
        semiSize ≤ youngSize ∧ minSemiSize ≤ semiSize ∧ genSize ∣ semiSize) ∧
      (youngSize < minSemiSize →
        calculateYoungSize args youngSize minSemiSize = .error .panic) := by
  have hratio : ∀ ratio, (if ratio = 0 then 0 else alignGen (youngSize / ratio)) ≤ youngSize ∧
      genSize ∣ if ratio = 0 then 0 else alignGen (youngSize / ratio) := by
    intro ratio
    split_ifs
    · exact ⟨Nat.zero_le _, dvd_zero _⟩
    · exact ⟨(alignGen_le_iff hyoung).mpr (Nat.div_le_self _ _), dvd_alignGen _⟩
  have hsize := hratio (args.semiRatio.getD initSemiRatio)
  unfold calculateYoungSize
  dsimp only
  generalize (if args.semiRatio.getD initSemiRatio = 0 then 0
    else alignGen (youngSize / args.semiRatio.getD initSemiRatio)) = size at hsize ⊢
  refine ⟨fun hroom => ?_, fun hroom => ?_⟩
  · have hsemi : max (max size minSemiSize) genSize ≤ youngSize := max_le (max_le hsize.1 hroom) hle
    refine ⟨max (max size minSemiSize) genSize, ?_, hsemi, ?_, ?_⟩
    · rw [checkedSub_of_le hsemi]
      rfl
    · exact (le_max_right _ _).trans (le_max_left _ _)
    · exact max_rec' (genSize ∣ ·) (max_rec' (genSize ∣ ·) hsize.2 hmin) (dvd_refl _)
  · have hsemi : youngSize < max (max size minSemiSize) genSize :=
      hroom.trans_le ((le_max_right _ _).trans (le_max_left _ _))
    rw [checkedSub_of_lt hsemi]
    rfl

/-- **The spec of `Block::set_limit`**: the new size is aligned, fits into the block, and holds
what has been allocated. -/
theorem Block.setLimit_spec (hpage : pageBits ≤ 16) (block : Block) (size : ℕ) (hdvd : 65536 ∣ size)
    (hstop : block.start + size ≤ block.stop) (htop : block.top ≤ block.start + size) :
    block.setLimit pageBits size = .ok { block with committed := block.start + size } := by
  simp only [setLimit, assert_pos (isPageAligned_of_dvd hpage hdvd), assert_pos hstop,
    assert_pos htop]
  rfl

namespace YoungGen

variable {young : YoungGen} (b : Block)

@[simp] theorem fromBlock_setFrom : (young.setFrom b).fromBlock = b := by
  cases h : young.fromFirst <;> simp [setFrom, fromBlock, h]

@[simp] theorem toBlock_setFrom : (young.setFrom b).toBlock = young.toBlock := by
  cases h : young.fromFirst <;> simp [setFrom, toBlock, h]

@[simp] theorem eden_setFrom : (young.setFrom b).eden = young.eden := by
  cases h : young.fromFirst <;> simp [setFrom, h]

@[simp] theorem fromBlock_setTo : (young.setTo b).fromBlock = young.fromBlock := by
  cases h : young.fromFirst <;> simp [setTo, fromBlock, h]

@[simp] theorem toBlock_setTo : (young.setTo b).toBlock = b := by
  cases h : young.fromFirst <;> simp [setTo, toBlock, h]

@[simp] theorem eden_setTo : (young.setTo b).eden = young.eden := by
  cases h : young.fromFirst <;> simp [setTo, h]

@[simp] theorem fromBlock_eden :
    ({ young with eden := b } : YoungGen).fromBlock = young.fromBlock := rfl

@[simp] theorem toBlock_eden : ({ young with eden := b } : YoungGen).toBlock = young.toBlock := rfl

@[simp] theorem fromBlock_swapSemi : young.swapSemi.fromBlock = young.toBlock := by
  cases h : young.fromFirst <;> simp [swapSemi, fromBlock, toBlock, h]

@[simp] theorem toBlock_swapSemi : young.swapSemi.toBlock = young.fromBlock := by
  cases h : young.fromFirst <;> simp [swapSemi, fromBlock, toBlock, h]

@[simp] theorem eden_swapSemi : young.swapSemi.eden = young.eden := rfl

/-- **The bounds of the young generation** of a heap of size `maxHeapSize`: eden takes one half,
the semi-spaces a quarter each, and both semi-spaces have the same committed size. -/
structure Bounds (maxHeapSize : ℕ) (young : YoungGen) : Prop where
  eden : young.eden.stop = young.eden.start + maxHeapSize / 2
  fromBlock : young.fromBlock.stop = young.fromBlock.start + maxHeapSize / 4
  toBlock : young.toBlock.stop = young.toBlock.start + maxHeapSize / 4
  eden_committed : young.eden.start ≤ young.eden.committed
  from_committed : young.fromBlock.start ≤ young.fromBlock.committed
  to_committed : young.toBlock.start ≤ young.toBlock.committed
  same : young.fromBlock.committedSize = young.toBlock.committedSize

variable {maxHeapSize : ℕ}

theorem Bounds.swapSemi (h : young.Bounds maxHeapSize) : young.swapSemi.Bounds maxHeapSize where
  eden := h.eden
  fromBlock := by simpa using h.toBlock
  toBlock := by simpa using h.fromBlock
  eden_committed := h.eden_committed
  from_committed := by simpa using h.to_committed
  to_committed := by simpa using h.from_committed
  same := by simpa using h.same.symm

/-- The young generation behind a collection: empty but for the survivors in to-space. -/
@[simp]
def collected (young : YoungGen) (survivors : ℕ) : YoungGen :=
  (({ young with eden := young.eden.resetTop } : YoungGen).setFrom young.fromBlock.resetTop).setTo
    { young.toBlock with top := young.toBlock.start + survivors }

theorem clear_eq : young.clear = young.collected 0 := by
  simp [clear, resetTop]

theorem minorSuccess_eq {survivors : ℕ} (hcommitted : young.toBlock.start ≤ young.toBlock.committed)
    (h : survivors ≤ young.toBlock.committedSize) :
    young.minorSuccess (young.toBlock.start + survivors) = .ok (young.collected survivors) := by
  have htop : young.toBlock.start ≤ young.toBlock.start + survivors ∧
      young.toBlock.start + survivors ≤ young.toBlock.committed := by
    unfold Block.committedSize at h
    omega
  simp only [minorSuccess, toBlock_setFrom, toBlock_eden, Block.setTop, assert_pos htop]
  rfl

theorem Bounds.collected (h : young.Bounds maxHeapSize) (survivors : ℕ) :
    (young.collected survivors).Bounds maxHeapSize := by
  obtain ⟨heden, hfrom, hto, hedenCommitted, hfromCommitted, htoCommitted, hsame⟩ := h
  constructor <;>
    simpa only [YoungGen.collected, eden_setTo, eden_setFrom, fromBlock_setTo, fromBlock_setFrom,
      toBlock_setTo]

/-- **The spec of `YoungGen::set_limit`.** -/
theorem Bounds.setLimit_spec {pageBits : ℕ} (hpage : pageBits ≤ 16) (h : young.Bounds maxHeapSize)
    (haligned : genSize ∣ maxHeapSize) {edenSize semiSize : ℕ} (heden : genSize ∣ edenSize)
    (hsemi : genSize ∣ semiSize) (hle : edenSize + semiSize ≤ maxHeapSize / 2)
    (hedenTop : young.eden.top = young.eden.start)
    (hfromTop : young.fromBlock.top = young.fromBlock.start)
    (htoTop : young.toBlock.top ≤ young.toBlock.start + semiSize / 2) :
    ∃ young', young.setLimit pageBits edenSize semiSize = .ok young' ∧
      young'.Bounds maxHeapSize ∧ young'.committedSize = (edenSize, semiSize) ∧
      young'.toBlock.start = young.toBlock.start ∧ young'.toBlock.top = young.toBlock.top := by
  rw [genSize_eq] at haligned heden hsemi
  have hedenLimit := Block.setLimit_spec hpage young.eden edenSize
    (by omega) (by rw [h.eden]; omega) (by omega)
  have hfromLimit := Block.setLimit_spec hpage young.fromBlock (semiSize / 2)
    (by omega) (by rw [h.fromBlock]; omega) (by omega)
  have htoLimit := Block.setLimit_spec hpage young.toBlock (semiSize / 2)
    (by omega) (by rw [h.toBlock]; omega) htoTop
  have hedenAligned : genAligned edenSize = true := (genAligned_iff _).mpr heden
  have hsemiAligned : genAligned semiSize = true := (genAligned_iff _).mpr hsemi
  have hrun : young.setLimit pageBits edenSize semiSize = .ok
      ((({ young with
            eden := { young.eden with committed := young.eden.start + edenSize } }).setFrom
          { young.fromBlock with committed := young.fromBlock.start + semiSize / 2 }).setTo
        { young.toBlock with committed := young.toBlock.start + semiSize / 2 }) := by
    simp only [setLimit, assert_pos hedenAligned, assert_pos hsemiAligned, hedenLimit,
      fromBlock_eden, hfromLimit, toBlock_setFrom, toBlock_eden, htoLimit]
    rfl
  refine ⟨_, hrun, ?_, ?_, by simp, by simp⟩
  · constructor <;> simp [Block.committedSize, h.eden, h.fromBlock, h.toBlock]
  · simp only [committedSize, Block.committedSize, fromBlock_setTo, fromBlock_setFrom,
      toBlock_setTo, eden_setTo, eden_setFrom, Prod.mk.injEq]
    omega

end YoungGen

/-- **The sizes fit**: eden, the semi-spaces and what the old generation may grow to are no more
than the maximum, the old generation is within its limit, and the survivors fit into half of the
semi-spaces. -/
structure HeapState.Budget (s : HeapState) : Prop where
  sizes : s.young.committedSize.1 + s.young.committedSize.2 + s.config.oldLimit ≤
    s.config.maxHeapSize
  old : s.config.oldSize ≤ s.config.oldLimit
  survivors : s.young.toBlock.active.size ≤ s.young.committedSize.2 / 2

/-- What every state of a run is: within the budget and the bounds. -/
structure HeapState.Valid (maxHeapSize : ℕ) (s : HeapState) : Prop extends s.Budget where
  max_eq : s.config.maxHeapSize = maxHeapSize
  bounds : s.young.Bounds maxHeapSize

/-- The survivors, as whole pages, take no more than half of the new young generation. -/
def Roomy (pageBits : ℕ) (args : Args) (maxHeapSize oldSize survivors : ℕ) : Prop :=
  2 * pageAlign pageBits survivors ≤ targetYoungSize args (maxHeapSize - oldSize)

instance (pageBits : ℕ) (args : Args) (maxHeapSize oldSize survivors : ℕ) :
    Decidable (Roomy pageBits args maxHeapSize oldSize survivors) :=
  inferInstanceAs (Decidable (_ ≤ _))

/-! ## The start -/

/-- The young generation starts aligned, with at least one unit and with room for another. -/
theorem initYoungSize_spec (config : HeapConfig) (haligned : genSize ∣ config.maxHeapSize)
    (hmax : 2 * genSize ≤ config.maxHeapSize) :
    ∃ youngSize, initYoungSize config args = .ok youngSize ∧ genSize ∣ youngSize ∧
      youngSize ≤ config.maxHeapSize := by
  have hgen : genSize ≤ config.maxHeapSize := by omega
  unfold initYoungSize
  cases args.youngSize with
  | some youngSize =>
    refine ⟨min (alignGen youngSize) (config.maxHeapSize - genSize), ?_, ?_, ?_⟩
    · simp only [checkedSub_of_le hgen]
      rfl
    · exact min_rec' (genSize ∣ ·) (dvd_alignGen _) (Nat.dvd_sub haligned (dvd_refl _))
    · exact (min_le_right _ _).trans (Nat.sub_le _ _)
  | none =>
    refine ⟨_, rfl, dvd_alignGen _, ?_⟩
    rw [alignGen_le_iff haligned]
    exact (Nat.div_le_self _ _).trans (timesNineTenths_le _)

/-- **The spec of `init`**: nothing fails, and the sizes are within the budget. -/
theorem initConfig_spec (config : HeapConfig) (hmin : config.minHeapSize ≤ config.maxHeapSize)
    (haligned : genSize ∣ config.maxHeapSize) (hmax : 2 * genSize ≤ config.maxHeapSize) :
    ∃ config', initConfig config args = .ok config' ∧
      config'.maxHeapSize = config.maxHeapSize ∧ config'.oldSize = 0 ∧
      genSize ∣ config'.semiSize ∧
      config'.edenSize + config'.semiSize + config'.oldLimit ≤ config'.maxHeapSize := by
  obtain ⟨size, hinit, hdvd, hle⟩ := initYoungSize_spec args config haligned hmax
  have hdvdYoung : genSize ∣ max size genSize := max_rec' (genSize ∣ ·) hdvd (dvd_refl _)
  have hleYoung : max size genSize ≤ config.maxHeapSize := max_le hle (by omega)
  obtain ⟨semiSize, hcalc, hsemi, -, hdvdSemi⟩ :=
    (calculateYoungSize_spec args hdvdYoung (le_max_right _ _) (dvd_zero _)).1 (Nat.zero_le _)
  generalize hyoung : max size genSize = youngSize at *
  have hminOld : initMinOldLimit config youngSize = .ok (config.minHeapSize - youngSize) := by
    unfold initMinOldLimit
    split_ifs with hlt
    · exact checkedSub_of_le hlt.le
    · rw [Nat.sub_eq_zero_of_le (Nat.le_of_not_lt hlt)]
  refine ⟨{ config with
      edenSize := youngSize - semiSize, semiSize, oldSize := 0,
      oldLimit := max (min (alignGen (config.maxHeapSize / initHeapSizeRatio))
        (config.maxHeapSize - youngSize)) (config.minHeapSize - youngSize) },
    ?_, rfl, rfl, hdvdSemi, ?_⟩
  · simp only [initConfig, assert_pos hmin, hinit, Except.ok_bind, hyoung, hcalc,
      checkedSub_of_le hleYoung, hminOld]
    rfl
  · have hlimit : max (min (alignGen (config.maxHeapSize / initHeapSizeRatio))
        (config.maxHeapSize - youngSize)) (config.minHeapSize - youngSize) ≤
        config.maxHeapSize - youngSize :=
      max_le (min_le_right _ _) (Nat.sub_le_sub_right hmin _)
    rw [Nat.sub_add_cancel hsemi]
    exact (Nat.add_le_add_left hlimit _).trans (Nat.add_sub_of_le hleYoung).le

theorem Block.eq_of_new {region : Region} {committedSize : ℕ} {block : Block}
    (h : new region committedSize = .ok block) :
    ⟨region.start, region.stop, region.start + committedSize, region.start⟩ = block := by
  obtain ⟨-, -, h⟩ := Except.bind_eq_ok.mp h
  exact Except.ok.inj h

theorem YoungGen.new_spec {maxHeapSize heapStart edenSize semiSize : ℕ} {young : YoungGen}
    (haligned : genSize ∣ maxHeapSize) (hsemi : genSize ∣ semiSize)
    (h : YoungGen.new ⟨heapStart, heapStart + maxHeapSize⟩ edenSize semiSize = .ok young) :
    young.Bounds maxHeapSize ∧ young.committedSize = (edenSize, semiSize) ∧
      young.toBlock.active.size = 0 := by
  rw [genSize_eq] at haligned hsemi
  obtain ⟨eden, heden, h⟩ := Except.bind_eq_ok.mp h
  obtain ⟨-, -, h⟩ := Except.bind_eq_ok.mp h
  obtain ⟨-, -, h⟩ := Except.bind_eq_ok.mp h
  obtain ⟨-, -, h⟩ := Except.bind_eq_ok.mp h
  obtain ⟨first, hfirst, h⟩ := Except.bind_eq_ok.mp h
  obtain ⟨second, hsecond, h⟩ := Except.bind_eq_ok.mp h
  obtain rfl := Except.ok.inj h
  obtain rfl := Block.eq_of_new heden
  obtain rfl := Block.eq_of_new hfirst
  obtain rfl := Block.eq_of_new hsecond
  refine ⟨⟨?_, ?_, ?_, ?_, ?_, ?_, ?_⟩, ?_, ?_⟩ <;>
    simp [fromBlock, toBlock, committedSize, Block.committedSize, Block.active] <;>
    omega

/-! ## Runs -/

/-- What may happen in a state: the survivors of a minor collection fit into to-space, and what the
old generation and the large objects have committed has been granted by `grow_old`. -/
def Allowed (s : HeapState) : HeapOp → Prop
  | .growOld _ => True
  | .minor survivors oldCommitted largeCommitted =>
    survivors ≤ s.young.swapSemi.toBlock.committedSize ∧
      oldCommitted + largeCommitted ≤ s.config.oldSize
  | .full _ oldCommitted largeCommitted => oldCommitted + largeCommitted ≤ s.config.oldSize

instance (s : HeapState) : (op : HeapOp) → Decidable (Allowed s op)
  | .growOld _ => inferInstanceAs (Decidable True)
  | .minor .. => inferInstanceAs (Decidable (_ ∧ _))
  | .full .. => inferInstanceAs (Decidable (_ ≤ _))

/-- There is room for the survivors of a minor collection in what the young generation gets. -/
def HeapOp.Roomy (pageBits : ℕ) (args : Args) (s : HeapState) : HeapOp → Prop
  | .minor survivors oldCommitted largeCommitted =>
    Gc.Roomy pageBits args s.config.maxHeapSize (oldCommitted + largeCommitted) survivors
  | _ => True

/-- The heap as a system: a step that stops the runtime fails. -/
def heap (pageBits : ℕ) (args : Args) (start : HeapState) : System HeapState HeapOp where
  start := start
  step s op :=
    match heapStep pageBits args s op with
    | .ok s' => .next s'
    | .error _ => .fails

theorem HeapState.Valid.growOld {maxHeapSize : ℕ} {s : HeapState} (h : s.Valid maxHeapSize)
    (size : ℕ) : HeapState.Valid maxHeapSize { s with config := (s.config.growOld size).1 } := by
  unfold HeapConfig.growOld
  split_ifs with hle
  · exact ⟨⟨h.sizes, hle, h.survivors⟩, h.max_eq, h.bounds⟩
  · exact h

/-- A full collection leaves no survivors, for which there is always room. -/
theorem roomy_zero (pageBits : ℕ) (args : Args) (maxHeapSize oldSize : ℕ) :
    Roomy pageBits args maxHeapSize oldSize 0 := by
  have hpos : 0 < 2 ^ pageBits := Nat.two_pow_pos pageBits
  have hzero : pageAlign pageBits 0 = 0 := by
    rw [pageAlign_eq, Nat.div_eq_of_lt (by omega), Nat.zero_mul]
  unfold Roomy
  rw [hzero]
  exact Nat.zero_le _

section Heap

variable {pageBits maxHeapSize : ℕ} {config : HeapConfig} {young : YoungGen}
  {oldCommitted largeCommitted : ℕ} {s : HeapState} (hpage : pageBits ≤ 16)
  (haligned : genSize ∣ maxHeapSize) (hmax : 2 * genSize ≤ maxHeapSize)

include hpage haligned hmax

/-- **The spec of `stop`.** -/
theorem stop_spec (hconfig : config.maxHeapSize = maxHeapSize)
    (hbounds : young.Bounds maxHeapSize) (hold : oldCommitted + largeCommitted ≤ maxHeapSize)
    (hedenTop : young.eden.top = young.eden.start)
    (hfromTop : young.fromBlock.top = young.fromBlock.start) :
    Ends (Roomy pageBits args maxHeapSize (oldCommitted + largeCommitted)
        young.toBlock.active.size)
      (fun r => HeapState.Valid maxHeapSize ⟨r.1, r.2⟩)
      (stop pageBits args config young oldCommitted largeCommitted) := by
  have hdvdTarget := dvd_targetYoungSize args (maxHeapSize - (oldCommitted + largeCommitted))
  have hleTarget := genSize_le_targetYoungSize args (maxHeapSize - (oldCommitted + largeCommitted))
  have htargetLe : targetYoungSize args (maxHeapSize - (oldCommitted + largeCommitted)) ≤
      maxHeapSize / 2 := targetYoungSize_le args (by omega) hmax
  have hroomIff : Roomy pageBits args maxHeapSize (oldCommitted + largeCommitted)
      young.toBlock.active.size ↔
      alignGen (pageAlign pageBits young.toBlock.active.size * 2) ≤
        targetYoungSize args (maxHeapSize - (oldCommitted + largeCommitted)) := by
    rw [alignGen_le_iff hdvdTarget, Nat.mul_comm]
    exact Iff.rfl
  have hedenEmpty : young.eden.active.size = 0 := by
    simp [active, hedenTop]
  have hfromEmpty : young.fromBlock.active.size = 0 := by
    simp [active, hfromTop]
  have hcalc := calculateYoungSize_spec args hdvdTarget hleTarget
    (dvd_alignGen (pageAlign pageBits young.toBlock.active.size * 2))
  generalize htarget : targetYoungSize args (maxHeapSize - (oldCommitted + largeCommitted)) =
    target at *
  -- up to the calculation of the sizes nothing fails
  simp only [stop, hconfig, assert_pos hedenEmpty, assert_pos hfromEmpty, checkedSub_of_le hold,
    Except.ok_bind, htarget]
  refine ⟨fun hroom => ?_, fun hroom => ?_⟩
  · rw [hcalc.2 (Nat.lt_of_not_le (mt hroomIff.mpr hroom))]
    rfl
  · obtain ⟨semiSize, hok, hsemiLe, hminLe, hdvdSemi⟩ := hcalc.1 (hroomIff.mp hroom)
    rw [hok]
    simp only [Except.ok_bind, Nat.sub_add_cancel hsemiLe]
    by_cases hoom : maxHeapSize < oldCommitted + largeCommitted + target
    · left
      rw [if_pos hoom]
      rfl
    · right
      -- the survivors take at most half of the semi-spaces
      have hsurvivors : young.toBlock.active.size ≤ semiSize / 2 := by
        have hpages := le_pageAlign pageBits young.toBlock.active.size
        have halign := le_alignGen (pageAlign pageBits young.toBlock.active.size * 2)
        omega
      have hsum : target - semiSize + semiSize ≤ maxHeapSize / 2 :=
        (Nat.sub_add_cancel hsemiLe).le.trans htargetLe
      have hroomTop : young.toBlock.top ≤ young.toBlock.start + semiSize / 2 :=
        tsub_le_iff_left.mp hsurvivors
      obtain ⟨young', hlimit, hbounds', hcommitted, hstart, htop⟩ :=
        YoungGen.Bounds.setLimit_spec hpage hbounds haligned (Nat.dvd_sub hdvdTarget hdvdSemi)
          hdvdSemi hsum hedenTop hfromTop hroomTop
      rw [if_neg hoom]
      have htargetMax : target ≤ maxHeapSize := htargetLe.trans (Nat.div_le_self _ _)
      have hlimitOld : oldCommitted + largeCommitted ≤ maxHeapSize - target :=
        Nat.le_sub_of_add_le (Nat.le_of_not_lt hoom)
      have htotal : target + (maxHeapSize - target) ≤ maxHeapSize :=
        (Nat.add_sub_of_le htargetMax).le
      refine ⟨({ config with
          oldSize := oldCommitted + largeCommitted, oldLimit := maxHeapSize - target }, young'),
        ?_, ⟨⟨?_, hlimitOld, ?_⟩, hconfig, hbounds'⟩⟩
      · simp only [hlimit, checkedSub_of_le htargetMax, assert_pos hlimitOld, assert_pos htotal,
          Except.ok_bind, pure, Except.pure, hconfig]
      · rw [hcommitted, Nat.sub_add_cancel hsemiLe, hconfig]
        exact htotal
      · rw [hcommitted]
        simp only [active, hstart, htop] at hsurvivors ⊢
        exact hsurvivors

/-- The end of a collection that leaves `survivors` in to-space. -/
theorem HeapState.Valid.stop_collected (h : s.Valid maxHeapSize)
    (hbounds : young.Bounds maxHeapSize) (survivors : ℕ)
    (hold : oldCommitted + largeCommitted ≤ s.config.oldSize) :
    Ends (Roomy pageBits args maxHeapSize (oldCommitted + largeCommitted) survivors)
      (fun r => HeapState.Valid maxHeapSize ⟨r.1, r.2⟩)
      (stop pageBits args s.config (young.collected survivors) oldCommitted largeCommitted) := by
  have holdMax : oldCommitted + largeCommitted ≤ maxHeapSize := by
    have hsizes := h.sizes
    have hlimit := h.old
    rw [h.max_eq] at hsizes
    omega
  have hsurvivors : (young.collected survivors).toBlock.active.size = survivors := by
    simp [active]
  have hspec := stop_spec args hpage haligned hmax h.max_eq (hbounds.collected survivors)
    holdMax (by simp [resetTop]) (by simp [resetTop])
  rwa [hsurvivors] at hspec

/-- **One step**: a collection panics exactly if there is no room for its survivors; otherwise the
new state is valid, unless the heap is too small. -/
theorem HeapState.Valid.heapStep_spec (h : s.Valid maxHeapSize) {op : HeapOp}
    (hallowed : Allowed s op) :
    Ends (op.Roomy pageBits args s) (HeapState.Valid maxHeapSize)
      (heapStep pageBits args s op) := by
  cases op with
  | growOld size =>
    exact ⟨fun hroom => absurd trivial hroom, fun _ => .inr ⟨_, rfl, h.growOld size⟩⟩
  | minor survivors oldCommitted largeCommitted =>
    obtain ⟨hfits, hold⟩ := hallowed
    have hbounds := h.bounds.swapSemi
    simp only [heapStep, HeapOp.Roomy, h.max_eq,
      YoungGen.minorSuccess_eq hbounds.to_committed hfits, Except.ok_bind]
    exact (h.stop_collected args hpage haligned hmax hbounds survivors hold).bind fun _ => id
  | full promotionFailed oldCommitted largeCommitted =>
    have hbounds : (if promotionFailed then s.young.swapSemi else s.young).Bounds maxHeapSize := by
      split_ifs
      · exact h.bounds.swapSemi
      · exact h.bounds
    have hspec := h.stop_collected args hpage haligned hmax hbounds 0 hallowed
    simp only [heapStep, YoungGen.clear_eq]
    exact ⟨fun hroom => absurd trivial hroom,
      fun _ => (hspec.bind fun _ => id).returns (roomy_zero ..)⟩

/-- **Every run** keeps the state valid. -/
theorem HeapState.Valid.run {start : HeapState} (hstart : start.Valid maxHeapSize)
    (h : (heap pageBits args start).ReachableUnder Allowed s) : s.Valid maxHeapSize := by
  induction h with
  | start => exact hstart
  | @next s s' _ op hallowed hstep ih =>
    have hspec := ih.heapStep_spec args hpage haligned hmax hallowed
    simp only [heap] at hstep
    by_cases hroom : op.Roomy pageBits args s
    · rcases hspec.returns hroom with hoom | ⟨s1, hok, hvalid⟩
      · rw [hoom] at hstep
        cases hstep
      · rw [hok] at hstep
        cases hstep
        exact hvalid
    · rw [hspec.panics hroom] at hstep
      cases hstep

end Heap

/-- **Runs of the heap.** The first division of the heap never fails and is within the budget; so
is every state of every run, and in every state a step panics exactly if it is a minor collection
without room for its survivors. -/
theorem budget_iff {pageBits minHeapSize maxHeapSize : ℕ} (hpage : pageBits ≤ 16)
    (hmin : minHeapSize ≤ maxHeapSize) (haligned : genAligned maxHeapSize = true)
    (hmax : 2 * genSize ≤ maxHeapSize) (args : Args) :
    ∃ config, initConfig ⟨minHeapSize, maxHeapSize, 0, 0, 0, 0⟩ args = .ok config ∧
      config.edenSize + config.semiSize + config.oldLimit ≤ maxHeapSize ∧
      config.oldSize ≤ config.oldLimit ∧
      ∀ heapStart young, YoungGen.new ⟨heapStart, heapStart + maxHeapSize⟩ config.edenSize
          config.semiSize = .ok young →
        ∀ s, (heap pageBits args ⟨config, young⟩).ReachableUnder Allowed s → s.Budget ∧
          ∀ op, Allowed s op →
            (heapStep pageBits args s op ≠ .error .panic ↔ op.Roomy pageBits args s) := by
  rw [genAligned_iff] at haligned
  obtain ⟨config, hinit, hmaxEq, hold, hdvd, hsizes⟩ :=
    initConfig_spec args ⟨minHeapSize, maxHeapSize, 0, 0, 0, 0⟩ hmin haligned hmax
  rw [hmaxEq] at hsizes
  refine ⟨config, hinit, hsizes, by rw [hold]; exact Nat.zero_le _, ?_⟩
  intro heapStart young hyoung s hs
  obtain ⟨hbounds, hcommitted, hempty⟩ := YoungGen.new_spec haligned hdvd hyoung
  have hstart : HeapState.Valid maxHeapSize ⟨config, young⟩ := by
    refine ⟨⟨?_, ?_, ?_⟩, hmaxEq, hbounds⟩
    · rw [hcommitted, hmaxEq]
      exact hsizes
    · rw [hold]
      exact Nat.zero_le _
    · rw [hempty]
      exact Nat.zero_le _
  have hvalid := hstart.run args hpage haligned hmax hs
  refine ⟨hvalid.toBudget, fun op hallowed => ?_⟩
  have hspec := hvalid.heapStep_spec args hpage haligned hmax hallowed
  constructor
  · intro hno
    by_contra hroom
    exact hno (hspec.panics hroom)
  · intro hroom
    rcases hspec.returns hroom with hoom | ⟨s', hok, -⟩
    · rw [hoom]
      exact fun he => Stop.noConfusion (Except.error.inj he)
    · rw [hok]
      exact fun he => by cases he

theorem budget_iff_default :
    ∃ config, initConfig ⟨33554432, 134217728, 0, 0, 0, 0⟩ ⟨none, none⟩ = .ok config ∧
      config.edenSize + config.semiSize + config.oldLimit ≤ 134217728 ∧
      config.oldSize ≤ config.oldLimit ∧
      ∀ heapStart young, YoungGen.new ⟨heapStart, heapStart + 134217728⟩ config.edenSize
          config.semiSize = .ok young →
        ∀ s, (heap 12 ⟨none, none⟩ ⟨config, young⟩).ReachableUnder Allowed s → s.Budget ∧
          ∀ op, Allowed s op →
            (heapStep 12 ⟨none, none⟩ s op ≠ .error .panic ↔ op.Roomy 12 ⟨none, none⟩ s) :=
  budget_iff (by decide) (by decide) (by decide) (by decide) ⟨none, none⟩

/-- The states of a run with the default sizes. -/
def defaultState (oldSize oldLimit edenCommitted secondTop : ℕ) (fromFirst : Bool) : HeapState where
  config := ⟨33554432, 134217728, 40239104, 20185088, oldSize, oldLimit⟩
  young := ⟨⟨0, 67108864, edenCommitted, 0⟩, ⟨67108864, 100663296, 77201408, 67108864⟩,
    ⟨100663296, 134217728, 110755840, secondTop⟩, fromFirst⟩

/-- With the default sizes: large objects fill the old generation up to its limit, a minor
collection leaves to-space full, the old generation grows to its new limit, and the next minor
collection leaves to-space full again. Then half of what is left is less than the semi-spaces need,
and `calculate_young_size` underflows. -/
theorem not_budget_default :
    ∃ config young s, initConfig ⟨33554432, 134217728, 0, 0, 0, 0⟩ ⟨none, none⟩ = .ok config ∧
      YoungGen.new ⟨0, 134217728⟩ config.edenSize config.semiSize = .ok young ∧
      (heap 12 ⟨none, none⟩ ⟨config, young⟩).ReachableUnder Allowed s ∧
      Allowed s (.minor 10092544 100663296 0) ∧
      heapStep 12 ⟨none, none⟩ s (.minor 10092544 100663296 0) = .error .panic := by
  have hrun : (heap 12 ⟨none, none⟩ (defaultState 0 67108864 40239104 100663296 false)).runUnder
      Allowed (defaultState 0 67108864 40239104 100663296 false)
      [.growOld 67108864, .minor 10092544 67108864 0, .growOld 33554432] =
      some (defaultState 100663296 100663296 13369344 110755840 true) := by decide +kernel
  exact ⟨_, _, _, by decide +kernel, by decide +kernel, System.ReachableUnder.run .start hrun,
    by decide +kernel, by decide +kernel⟩

end Dora.Gc
