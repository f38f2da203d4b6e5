import RknpuDriver.Job.Device
import Mathlib.Data.List.Perm.Subperm
import Mathlib.Data.List.Range
import Mathlib.Data.Nat.Bitwise
import Mathlib.Tactic.SplitIfs

/-! # Core masks

`coresOf` are the cores of a mask; `use_core_num` counts them, whatever the mask.
-/

namespace RknpuDriver.Job
set_option autoImplicit false

/-- The cores `i` below `num_irqs` with `core_mask & rknpu_core_mask(i)`. -/
def coresOf (cfg : Config) (coreMask : UInt32) : List ℕ :=
  (List.range cfg.numIrqs).filter (onCore coreMask)

theorem mem_coresOf {cfg : Config} {coreMask : UInt32} {c : ℕ} :
    c ∈ coresOf cfg coreMask ↔ c < cfg.numIrqs ∧ onCore coreMask c = true := by
  rw [coresOf, List.mem_filter, List.mem_range]

theorem nodup_coresOf (cfg : Config) (coreMask : UInt32) : (coresOf cfg coreMask).Nodup :=
  List.nodup_range.filter _

theorem and_rknpuCoreMask (m : UInt32) {i : ℕ} (hi : i < rknpuMaxCores) :
    m &&& rknpuCoreMask i = if onCore m i then rknpuCoreMask i else 0 := by
  have hpow : (rknpuCoreMask i).toNat = 2 ^ i := by
    match i, hi with
    | 0, _ | 1, _ | 2, _ => rfl
  have h : (m &&& rknpuCoreMask i).toNat = (m.toNat.testBit i).toNat * 2 ^ i := by
    rw [UInt32.toNat_and, hpow, Nat.and_two_pow]
  have hcases : m &&& rknpuCoreMask i = 0 ∨ m &&& rknpuCoreMask i = rknpuCoreMask i := by
    cases hbit : m.toNat.testBit i with
    | false => exact Or.inl (UInt32.toNat.inj (by simpa [hbit] using h))
    | true => exact Or.inr (UInt32.toNat.inj (by simpa [hbit, hpow] using h))
  unfold onCore
  split_ifs with hon
  · exact hcases.resolve_left (bne_iff_ne.mp hon)
  · simpa using hon

theorem onCore_lt {m : UInt32} {i : ℕ} (h : onCore m i = true) : i < rknpuMaxCores := by
  by_contra hi
  match i, hi with
  | 0, hi | 1, hi | 2, hi => exact hi (by decide)
  | n + 3, _ =>
    have hzero : rknpuCoreMask (n + 3) = 0 := rfl
    simp [onCore, hzero] at h

theorem length_filter_onCore (m : UInt32) :
    ([0, 1, 2].filter (onCore m)).length = useCoreNum m := by
  have h0 : m &&& rknpuCore0Mask = if onCore m 0 then 1 else 0 :=
    and_rknpuCoreMask m (i := 0) (by decide)
  have h1 : m &&& rknpuCore1Mask = if onCore m 1 then 2 else 0 :=
    and_rknpuCoreMask m (i := 1) (by decide)
  have h2 : m &&& rknpuCore2Mask = if onCore m 2 then 4 else 0 :=
    and_rknpuCoreMask m (i := 2) (by decide)
  unfold useCoreNum
  rw [h0, h1, h2, List.filter_cons, List.filter_cons, List.filter_cons, List.filter_nil]
  cases onCore m 0 <;> cases onCore m 1 <;> cases onCore m 2 <;> rfl

theorem coresOf_length_le (cfg : Config) (coreMask : UInt32) :
    (coresOf cfg coreMask).length ≤ useCoreNum coreMask := by
  rw [← length_filter_onCore]
  refine (List.subperm_of_subset (nodup_coresOf cfg coreMask) fun c hc => ?_).length_le
  obtain ⟨-, hon⟩ := mem_coresOf.mp hc
  refine List.mem_filter.mpr ⟨?_, hon⟩
  match c, onCore_lt hon with
  | 0, _ | 1, _ | 2, _ => decide

theorem coresOf_rknpuCoreMask_length_le (cfg : Config) (i : ℕ) :
    (coresOf cfg (rknpuCoreMask i)).length ≤ 1 := by
  refine (coresOf_length_le cfg _).trans ?_
  match i with
  | 0 | 1 | 2 => decide
  | n + 3 =>
    have hzero : rknpuCoreMask (n + 3) = 0 := rfl
    rw [hzero]
    decide

/-! ## Masks that `rknpu_job_commit` knows -/

theorem commitCores_cases {m : UInt32} (h : commitCores m ≠ []) :
    m = 1 ∨ m = 2 ∨ m = 4 ∨ m = 3 ∨ m = 7 := by
  unfold commitCores at h
  split_ifs at h with h0 h1 h2 h3 h4
  · exact Or.inl h0
  · exact Or.inr (Or.inl h1)
  · exact Or.inr (Or.inr (Or.inl h2))
  · exact Or.inr (Or.inr (Or.inr (Or.inl h3)))
  · exact Or.inr (Or.inr (Or.inr (Or.inr h4)))
  · exact (h rfl).elim

/-- `rknpu_job_commit` starts the cores of the mask. -/
theorem commitCores_eq {m : UInt32} (h : commitCores m ≠ []) :
    commitCores m = [0, 1, 2].filter (onCore m) := by
  rcases commitCores_cases h with rfl | rfl | rfl | rfl | rfl <;> decide

theorem length_commitCores {m : UInt32} (h : commitCores m ≠ []) :
    (commitCores m).length = useCoreNum m := by
  rw [commitCores_eq h, length_filter_onCore]

theorem nodup_commitCores (m : UInt32) : (commitCores m).Nodup := by
  by_cases h : commitCores m = []
  · rw [h]
    exact List.nodup_nil
  · rcases commitCores_cases h with rfl | rfl | rfl | rfl | rfl <;> decide

theorem mem_commitCores {m : UInt32} (h : commitCores m ≠ []) {c : ℕ} :
    c ∈ commitCores m ↔ onCore m c = true := by
  rw [commitCores_eq h, List.mem_filter]
  refine and_iff_right_of_imp fun hon => ?_
  match c, onCore_lt hon with
  | 0, _ | 1, _ | 2, _ => decide

/-! ## The device tables -/

/-- What the job code needs of a table: the cores of an accepted mask have interrupts. -/
structure Config.Sound (cfg : Config) : Prop where
  numIrqs_pos : 0 < cfg.numIrqs
  numIrqs_le : cfg.numIrqs ≤ rknpuMaxCores
  maxSubmitNumber_pos : 0 < cfg.maxSubmitNumber
  masked : ∀ m ≤ cfg.coreMask, ∀ c, onCore m c = true → c < cfg.numIrqs
  single : ∀ c < cfg.numIrqs, rknpuCoreMask c ≤ cfg.coreMask

theorem lt_of_onCore {m : UInt32} {n k : ℕ} (hm : m.toNat < 2 ^ n) (hk : n ≤ k) (c : ℕ)
    (hon : onCore m c = true) : c < k := by
  by_contra hc
  have hlt := onCore_lt hon
  have hpow : (rknpuCoreMask c).toNat = 2 ^ c := by
    match c, hlt with
    | 0, _ | 1, _ | 2, _ => rfl
  have hbit : m.toNat.testBit c = false :=
    Nat.testBit_lt_two_pow (hm.trans_le (Nat.pow_le_pow_right (by decide) (by omega)))
  have hzero : m &&& rknpuCoreMask c = 0 := by
    apply UInt32.toNat.inj
    rw [UInt32.toNat_and, hpow, Nat.and_two_pow, hbit]
    exact Nat.zero_mul _
  simp [onCore, hzero] at hon

theorem rknpuConfigs_sound {cfg : Config} (h : cfg ∈ rknpuConfigs) : cfg.Sound := by
  have hmask : ∀ {n : ℕ} {m k : UInt32}, m ≤ k → k.toNat < 2 ^ n → m.toNat < 2 ^ n :=
    fun hm hk => (UInt32.le_iff_toNat_le.mp hm).trans_lt hk
  simp only [rknpuConfigs, List.mem_cons, List.not_mem_nil, or_false] at h
  rcases h with rfl | rfl | rfl | rfl | rfl | rfl | rfl
  · exact ⟨by decide, by decide, by decide,
      fun m hm => lt_of_onCore (n := 1) (hmask hm (by decide)) (by decide), by decide⟩
  · exact ⟨by decide, by decide, by decide,
      fun m hm => lt_of_onCore (n := 3) (hmask hm (by decide)) (by decide), by decide⟩
  · exact ⟨by decide, by decide, by decide,
      fun m hm => lt_of_onCore (n := 2) (hmask hm (by decide)) (by decide), by decide⟩
  · exact ⟨by decide, by decide, by decide,
      fun m hm => lt_of_onCore (n := 1) (hmask hm (by decide)) (by decide), by decide⟩
  · exact ⟨by decide, by decide, by decide,
      fun m hm => lt_of_onCore (n := 1) (hmask hm (by decide)) (by decide), by decide⟩
  · exact ⟨by decide, by decide, by decide,
      fun m hm => lt_of_onCore (n := 2) (hmask hm (by decide)) (by decide), by decide⟩
  · exact ⟨by decide, by decide, by decide,
      fun m hm => lt_of_onCore (n := 1) (hmask hm (by decide)) (by decide), by decide⟩

/-- The cores of an accepted mask are counted by `use_core_num`. -/
theorem length_coresOf {cfg : Config} (hcfg : cfg.Sound) {m : UInt32} (hm : m ≤ cfg.coreMask) :
    (coresOf cfg m).length = useCoreNum m := by
  rw [← length_filter_onCore]
  have hnodup : [0, 1, 2].Nodup := by decide
  apply List.Perm.length_eq
  apply (List.perm_ext_iff_of_nodup (nodup_coresOf cfg m) (hnodup.filter _)).mpr
  intro c
  rw [mem_coresOf, List.mem_filter]
  refine and_congr_left fun hon => ⟨fun _ => ?_, fun _ => hcfg.masked m hm c hon⟩
  match c, onCore_lt hon with
  | 0, _ | 1, _ | 2, _ => decide

theorem useCoreNum_rknpuCoreMask {c : ℕ} (hc : c < rknpuMaxCores) :
    useCoreNum (rknpuCoreMask c) = 1 := by
  match c, hc with
  | 0, _ | 1, _ | 2, _ => decide

theorem commitCores_rknpuCoreMask {c : ℕ} (hc : c < rknpuMaxCores) :
    commitCores (rknpuCoreMask c) = [c] := by
  match c, hc with
  | 0, _ | 1, _ | 2, _ => decide

/-! ## Task counts -/

/-- A task count for which the number of batches does not overflow. -/
def countOk (cfg : Config) (args : Submit) (useCores coreIndex : ℕ) : Bool :=
  1 ≤ taskNumber cfg args useCores coreIndex ∧
    taskNumber cfg args useCores coreIndex ≤ 2 ^ 31 - 1 - cfg.maxSubmitNumber

theorem one_le_batches {cfg : Config} (hcfg : 0 < cfg.maxSubmitNumber) {job : RknpuJob} {c : ℕ}
    (h : countOk cfg job.args job.useCoreNum c = true) : 1 ≤ batches cfg job c := by
  simp only [countOk, decide_eq_true_eq] at h
  unfold batches rknpuGetTaskNumber
  rw [toInt32_of_lt (by omega) (by omega), Int.tdiv_eq_ediv_of_nonneg (by omega)]
  exact Int.le_ediv_of_mul_le hcfg (by omega)

end RknpuDriver.Job
