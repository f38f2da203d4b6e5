import RknpuDriver.Job.Device
import RknpuDriver.Lib.Transfers
import RknpuDriver.Mm.Create
import RknpuDriver.Power.Hardware

/-! # What `rknpu_probe` and `rknpu_remove` acquire and release

What devres manages is released when a probe fails or the driver is unbound, whatever the driver
does. The rest is the ledger of this file: a call lists what it takes and gives back, in its order,
beside the power counts of `Power.Hardware`.

* `RknpuConfig`: the device tables, with the fields that `rknpu_probe` reads.
* `ProbeOutcome`: what the functions of the kernel return inside `rknpu_probe`.
* `rknpuProbe`, `rknpuRemove`: the calls.
* `rknpuProbe_bound_iff`: the driver is bound exactly when `rknpu_probe` returns `0`.
-/

namespace RknpuDriver.Probe
open RknpuDriver.Lib RknpuDriver.Power RknpuDriver.Mm
set_option autoImplicit false

abbrev enxio : ℤ := 6
abbrev ebusy : ℤ := 16
abbrev enodev : ℤ := 19

/-! ## Device tables -/

abbrev rknpuCacheSgTableNum : ℕ := 2

/-- `struct rknpu_config`: `irqNames` is the length of `irqs`, `cacheSgtInit` tells whether the
table has that function. -/
structure RknpuConfig extends Job.Config where
  irqNames : ℕ
  nbufSize : ℕ
  cacheSgtInit : Bool
  deriving DecidableEq

def rk356xRknpuConfig : RknpuConfig := ⟨Job.rk356xRknpuConfig, 1, 0, false⟩
def rk3588RknpuConfig : RknpuConfig := ⟨Job.rk3588RknpuConfig, 3, 0, false⟩
def rk3583RknpuConfig : RknpuConfig := ⟨Job.rk3583RknpuConfig, 3, 0, false⟩
def rv1106RknpuConfig : RknpuConfig := ⟨Job.rv1106RknpuConfig, 1, 0, false⟩
def rk3562RknpuConfig : RknpuConfig := ⟨Job.rk3562RknpuConfig, 1, 256 * 1024, false⟩
def rk3576RknpuConfig : RknpuConfig := ⟨Job.rk3576RknpuConfig, 2, 1024 * 1024, true⟩
def rv1126bRknpuConfig : RknpuConfig := ⟨Job.rv1126bRknpuConfig, 1, 512 * 1024, false⟩

def rknpuOfMatch : List (String × RknpuConfig) :=
  [("rockchip,rknpu", rk356xRknpuConfig), ("rockchip,rk3568-rknpu", rk356xRknpuConfig),
    ("rockchip,rk3588-rknpu", rk3588RknpuConfig), ("rockchip,rv1106-rknpu", rv1106RknpuConfig),
    ("rockchip,rk3562-rknpu", rk3562RknpuConfig), ("rockchip,rk3576-rknpu", rk3576RknpuConfig),
    ("rockchip,rv1126b-rknpu", rv1126bRknpuConfig)]

/-- `of_match_device`: the entry of the first `compatible` string that has one. -/
def ofMatchDevice (compatible : List String) : Option RknpuConfig :=
  compatible.findSome? fun name => (rknpuOfMatch.find? fun entry => entry.1 = name).map (·.2)

/-- `rockchip_nvmem_cell_read_u8`, of which the driver has a stub: the value and the return. -/
def rockchipNvmemCellReadU8 : UInt32 × ℤ := (0, 0)

/-- `rknpu_get_invalid_core_mask`; `coresCell` tells whether `nvmem-cell-names` has `"cores"`. A
failed read returns the mask as well. -/
def rknpuGetInvalidCoreMask (coresCell : Bool) : UInt32 :=
  if coresCell then rockchipNvmemCellReadU8.1 ||| Job.rknpuCore2Mask else 0

/-- The table that `rknpu_probe` uses for the entry it has matched. -/
def selectConfig (config : RknpuConfig) (coresCell : Bool) : Except ℤ RknpuConfig :=
  if config = rk3588RknpuConfig then
    let mask := rknpuGetInvalidCoreMask coresCell
    if mask &&& Job.rknpuCore2Mask ≠ 0 then
      if mask &&& Job.rknpuCore0Mask ≠ 0 ∨ mask &&& Job.rknpuCore1Mask ≠ 0 then .error (-enodev)
      else .ok rk3583RknpuConfig
    else .ok config
  else .ok config

/-! ## Resources and outcomes -/

/-- What a driver takes that devres does not give back. -/
inductive Resource where
  | iommuGroup
  | reservedMem
  | drmDev
  | drmRegistration
  | fakeDev
  | miscdev
  | runtimePm
  | genpdDev (i : Fin 3)
  | devfreqCooling
  | powerOffWq
  | sram (ptr : MmPtr)
  | cacheSgt (core : ℕ)
  | cacheSgl (core : ℕ)
  | timer
  deriving DecidableEq, Repr

/-- `platform_device_register_full` returns an error pointer, or a device that
`of_dma_configure` is called for. -/
inductive FakeDevice where
  | errPtr
  | registered (ofDmaConfigure : ℤ)
  deriving DecidableEq

/-- The register resource of one core and what mapping it returns: `0` or an error of
`devm_ioremap_resource`, and whether `devm_ioremap` gives an address. -/
structure RegisterMap where
  start : ℕ
  ioremapResource : ℤ
  ioremap : Bool

/-- What the kernel returns inside `rknpu_probe`. Pointers that may be error pointers are their
`PTR_ERR`, which is `0` for a valid one. -/
structure ProbeOutcome where
  ofNode : Bool
  compatible : List String
  coresCell : Bool
  rknpuDev : Bool
  dmaMask : ℤ
  iommuEnable : Bool
  iommuGroup : Bool
  reservedMem : ℤ
  numClks : ℤ
  vdd : ℤ
  mem : ℤ
  registers : ℕ → Option RegisterMap
  irqByName : ℕ → ℤ
  irq : ℕ → ℤ
  requestIrq : ℕ → ℤ
  drmDev : ℤ
  drmRegister : ℤ
  fakeDev : FakeDevice
  miscRegister : ℤ
  fenceCtx : Bool
  powerDomains : ℤ
  genpdDev : Fin 3 → Bool
  powerOn : PowerOutcome
  devfreq : Bool
  devfreqCooling : Bool
  powerOffWq : Bool
  sram : Option UInt32
  sramMm : Bool
  sramBitmap : Bool
  noGki : Bool
  sgt : ℕ → Bool
  sgl : ℕ → ℤ
  powerOff : PowerOutcome

/-- The fields of `struct rknpu_device` that `rknpu_remove` reads. -/
structure RknpuDevice where
  config : RknpuConfig
  iommuEn : Bool
  fakeDev : Bool
  domains : PowerDomains
  devfreqCooling : Bool
  sramMm : Option RknpuMm
  cacheSgt : List ℕ

/-- A call of `rknpu_probe`: what it returns, or `none` when it dereferences an error pointer; what
it takes and gives back; the power counts after it; and the device when it returns `0`. -/
structure Probing where
  ret : Option ℤ
  log : List (Transfer Resource)
  hw : PowerHw
  dev : Option RknpuDevice

/-! ## The calls -/

/-- `rknpu_probe` up to `dma_set_mask_and_coherent`. -/
def probeConfig (k : ProbeOutcome) : Except ℤ RknpuConfig :=
  if !k.ofNode then .error (-enodev)
  else
    match ofMatchDevice k.compatible with
    | none => .error (-enodev)
    | some config =>
      if !k.rknpuDev then .error (-enomem)
      else
        match selectConfig config k.coresCell with
        | .error ret => .error ret
        | .ok config => if k.dmaMask ≠ 0 then .error k.dmaMask else .ok config

/-- The IOMMU group or the reserved memory. -/
def probeMemory (k : ProbeOutcome) : List Resource :=
  if k.iommuEnable then [.iommuGroup]
  else if k.reservedMem = 0 then [.reservedMem] else []

/-- `devm_regulator_get_optional`: a supply that is not there is no error. -/
def regulatorError (err : ℤ) : Option ℤ :=
  if err ≠ 0 ∧ err ≠ -enodev then some err else none

/-- The registers of one core. The NPU of the RK3568 overlaps its IOMMU, so its region is not
requested. -/
def mapRegisters : Option RegisterMap → Option ℤ
  | none => some (-enxio)
  | some res =>
    let ok :=
      if res.start = 0xfde40000 ∨ res.ioremapResource = -ebusy then res.ioremap
      else res.ioremapResource = 0
    if ok then none else some (-enomem)

/-- One round of the loop of `rknpu_register_irq`. -/
def requestLine (k : ProbeOutcome) (i : ℕ) : Option ℤ :=
  if k.irqByName i < 0 ∧ k.irq i < 0 then some (k.irq i)
  else if k.requestIrq i < 0 then some (k.requestIrq i) else none

/-- `rknpu_probe` from the clocks to the interrupts, all of it managed: the error it returns. -/
def probeManaged (config : RknpuConfig) (k : ProbeOutcome) : Option ℤ :=
  if k.numClks < 1 then some (-enodev)
  else
    (regulatorError k.vdd).orElse fun _ =>
    (regulatorError k.mem).orElse fun _ =>
    ((List.range config.numIrqs).findSome? fun i => mapRegisters (k.registers i)).orElse fun _ =>
    (List.range config.numIrqs).findSome? fun i => requestLine k i

/-- `rknpu_drm_probe`: what it returns, its ledger, and whether `fake_dev` is set. What
`drm_fake_dev_register` returns is ignored. -/
def rknpuDrmProbe (k : ProbeOutcome) : Option ℤ × List (Transfer Resource) × Bool :=
  if k.drmDev ≠ 0 then (some k.drmDev, [], false)
  else if k.drmRegister < 0 then (some k.drmRegister, [.take .drmDev, .give .drmDev], false)
  else
    match k.fakeDev with
    | .errPtr => (none, [.take .drmDev, .take .drmRegistration], false)
    | .registered err =>
      if err ≠ 0 then
        (some 0, [.take .drmDev, .take .drmRegistration, .take .fakeDev, .give .fakeDev], false)
      else (some 0, [.take .drmDev, .take .drmRegistration, .take .fakeDev], true)

/-- What `rknpu_drm_remove` gives back. -/
def rknpuDrmRemove (fakeDev : Bool) : List Resource :=
  (if fakeDev then [.fakeDev] else []) ++ [.drmRegistration, .drmDev]

/-- The domains that are attached. -/
def probeDomains (config : RknpuConfig) (k : ProbeOutcome) : PowerDomains where
  multipleDomains := decide (1 < k.powerDomains)
  genpdDev i := decide (1 < k.powerDomains) && k.genpdDev i &&
    (i.val ≠ 2 || decide (2 < config.numIrqs))

/-- The `genpd_dev_npu0..2` that are set, in order. -/
def attached (domains : PowerDomains) : List Resource :=
  ((List.finRange 3).filter domains.genpdDev).map .genpdDev

/-- Whether `rknpu_devfreq_init` leaves a cooling device. -/
def devfreqInit (k : ProbeOutcome) : Bool := k.devfreq && k.devfreqCooling

/-- The pool over the SRAM, where the device tree has one: what `rknpu_mm_create` returns. -/
def probeSram (k : ProbeOutcome) : MmCreate :=
  if k.iommuEnable then
    match k.sram with
    | none => ⟨0, none, [], []⟩
    | some size => rknpuMmCreateCall size 4096 k.sramMm k.sramBitmap
  else ⟨0, none, [], []⟩

/-- The loop of `rk3576_cache_sgt_init` over the cores from `i` on: its ledger, and the tables that
are set after it, given those that are. A failure frees the tables that are set. -/
def cacheSgtInit (k : ProbeOutcome) :
    List ℕ → List ℕ → List (Transfer Resource) × List ℕ
  | set, [] => ([], set)
  | set, i :: cores =>
    if !k.sgt i then (set.flatMap fun c => [.give (.cacheSgl c), .give (.cacheSgt c)], [])
    else if k.sgl i ≠ 0 then
      ([.take (.cacheSgt i), .give (.cacheSgt i)] ++
        set.flatMap fun c => [.give (.cacheSgl c), .give (.cacheSgt c)], [])
    else
      let (log, sets) := cacheSgtInit k (set ++ [i]) cores
      ([.take (.cacheSgt i), .take (.cacheSgl i)] ++ log, sets)

/-- The cache tables of a device with NBUF. -/
def probeCache (config : RknpuConfig) (k : ProbeOutcome) : List (Transfer Resource) × List ℕ :=
  if k.noGki && k.iommuEnable && decide (0 < config.nbufSize) && config.cacheSgtInit then
    cacheSgtInit k [] (List.range config.numIrqs)
  else ([], [])

/-- The label `err_remove_drv`. -/
def errRemoveDrv (fakeDev : Bool) : List (Transfer Resource) :=
  (rknpuDrmRemove fakeDev ++ [Resource.miscdev]).map .give

/-- The label `err_devfreq_remove`. -/
def errDevfreqRemove (cooling fakeDev : Bool) : List (Transfer Resource) :=
  (if cooling then [.give .devfreqCooling] else []) ++ errRemoveDrv fakeDev

/-- `rknpu_probe` from `pm_runtime_enable` on, where `fake_dev` is set or not. The reset in it
returns an error that is only reported. -/
def probePower (config : RknpuConfig) (k : ProbeOutcome) (fakeDev : Bool) (hw : PowerHw) :
    Probing :=
  let domains := probeDomains config k
  let attach := (Resource.runtimePm :: attached domains).map .take
  let (hw, ret) := rknpuPowerOn domains k.powerOn hw
  if ret ≠ 0 then ⟨some ret, attach ++ errRemoveDrv fakeDev, hw, none⟩
  else
    let cooling := devfreqInit k
    let devfreq := if cooling then [.take .devfreqCooling] else []
    if !k.powerOffWq then
      ⟨some (-enomem), attach ++ devfreq ++ errDevfreqRemove cooling fakeDev, hw, none⟩
    else
      let sram := probeSram k
      let pool := sram.allocated.map fun ptr => .take (.sram ptr)
      let queue := attach ++ devfreq ++ .take .powerOffWq :: pool
      if sram.ret ≠ 0 then
        ⟨some sram.ret, queue ++ sram.freed.map (fun ptr => .give (.sram ptr)) ++
          .give .powerOffWq :: errDevfreqRemove cooling fakeDev, hw, none⟩
      else
        let (cache, sgts) := probeCache config k
        ⟨some 0, queue ++ cache ++ [.take .timer], (rknpuPowerOff domains k.powerOff hw).1,
          some ⟨config, k.iommuEnable, fakeDev, domains, cooling, sram.pool, sgts⟩⟩

/-- `rknpu_probe`. A `misc_register` that fails is only reported. -/
def rknpuProbe (k : ProbeOutcome) (hw : PowerHw) : Probing :=
  match probeConfig k with
  | .error ret => ⟨some ret, [], hw, none⟩
  | .ok config =>
    if k.iommuEnable && !k.iommuGroup then ⟨some (-einval), [], hw, none⟩
    else
      let memory := (probeMemory k).map .take
      match probeManaged config k with
      | some ret => ⟨some ret, memory, hw, none⟩
      | none =>
        match rknpuDrmProbe k with
        | (none, drm, _) => ⟨none, memory ++ drm, hw, none⟩
        | (some ret, drm, fakeDev) =>
          if ret ≠ 0 then ⟨some ret, memory ++ drm, hw, none⟩
          else
            let misc := if k.miscRegister = 0 then [.take .miscdev] else []
            let nodes := memory ++ drm ++ misc
            if !k.fenceCtx then ⟨some (-enomem), nodes ++ errRemoveDrv fakeDev, hw, none⟩
            else
              let rest := probePower config k fakeDev hw
              { rest with log := nodes ++ rest.log }

/-- The tables of the cores `set`, in the order in which they are freed. -/
def cacheTables (set : List ℕ) : List Resource :=
  set.flatMap fun c => [.cacheSgl c, .cacheSgt c]

/-- The memory of a pool, if there is one. -/
def poolMemory : Option RknpuMm → List MmPtr
  | some mm => rknpuMmDestroy mm
  | none => []

/-- What `rknpu_remove` gives back, in order. -/
def removed (dev : RknpuDevice) : List Resource :=
  [.powerOffWq, .timer] ++
  (if dev.config.cacheSgtInit then
    cacheTables ((List.range rknpuCacheSgTableNum).filter (· ∈ dev.cacheSgt)) else []) ++
  (poolMemory dev.sramMm).map .sram ++
  (if dev.iommuEn then [.iommuGroup] else []) ++
  rknpuDrmRemove dev.fakeDev ++ [.miscdev] ++
  (if dev.devfreqCooling then [.devfreqCooling] else []) ++
  (if dev.domains.multipleDomains then attached dev.domains else []) ++ [.runtimePm]

/-- The `-ENODEV` of the cores that the fuses switch off is never returned: the mask is that of
core 2, and an RK3588 with such a cell is an RK3583. -/
theorem selectConfig_eq (config : RknpuConfig) (coresCell : Bool) :
    selectConfig config coresCell =
      .ok (if config = rk3588RknpuConfig ∧ coresCell = true then rk3583RknpuConfig
        else config) := by
  unfold selectConfig
  by_cases h : config = rk3588RknpuConfig
  · rw [if_pos h]
    cases coresCell with
    | true =>
      have hcore2 : rknpuGetInvalidCoreMask true &&& Job.rknpuCore2Mask ≠ 0 := by decide
      have hothers : ¬(rknpuGetInvalidCoreMask true &&& Job.rknpuCore0Mask ≠ 0 ∨
          rknpuGetInvalidCoreMask true &&& Job.rknpuCore1Mask ≠ 0) := by decide
      rw [if_pos hcore2, if_neg hothers, if_pos ⟨h, rfl⟩]
    | false =>
      have hnone : ¬rknpuGetInvalidCoreMask false &&& Job.rknpuCore2Mask ≠ 0 := by decide
      rw [if_neg hnone, if_neg fun hand => Bool.false_ne_true hand.2]
  · rw [if_neg h, if_neg fun hand => h hand.1]

theorem ofMatchDevice_mem {compatible : List String} {config : RknpuConfig}
    (h : ofMatchDevice compatible = some config) : config ∈ rknpuOfMatch.map (·.2) := by
  unfold ofMatchDevice at h
  obtain ⟨name, -, hname⟩ := List.exists_of_findSome?_eq_some h
  obtain ⟨entry, hentry, rfl⟩ := Option.map_eq_some_iff.mp hname
  exact List.mem_map_of_mem (List.mem_of_find?_eq_some hentry)

/-- The loops over the cores stay inside the tables and the arrays of the device. -/
structure RknpuConfig.Bounded (config : RknpuConfig) : Prop where
  irqs : config.numIrqs ≤ config.irqNames
  cores : config.numIrqs ≤ Job.rknpuMaxCores
  cache : config.cacheSgtInit = true → config.numIrqs ≤ rknpuCacheSgTableNum

theorem rknpuOfMatch_bounded {config : RknpuConfig} (h : config ∈ rknpuOfMatch.map (·.2)) :
    config.Bounded := by
  simp only [rknpuOfMatch, List.map_cons, List.map_nil, List.mem_cons, List.not_mem_nil,
    or_false] at h
  obtain rfl | rfl | rfl | rfl | rfl | rfl | rfl := h <;> exact ⟨by decide, by decide, by decide⟩

/-- The table is one of the driver's, or the probe is refused. -/
theorem probeConfig_cases (k : ProbeOutcome) :
    (∃ ret, probeConfig k = .error ret ∧ ret ≠ 0) ∨
      ∃ config, probeConfig k = .ok config ∧ config.Bounded := by
  unfold probeConfig
  cases hmatch : ofMatchDevice k.compatible with
  | none =>
    refine Or.inl ⟨-enodev, ?_, by decide⟩
    split_ifs <;> rfl
  | some entry =>
    have hentry := rknpuOfMatch_bounded (ofMatchDevice_mem hmatch)
    simp only [selectConfig_eq]
    have hselected : (if entry = rk3588RknpuConfig ∧ k.coresCell = true then rk3583RknpuConfig
        else entry).Bounded := by
      split_ifs
      · exact ⟨by decide, by decide, by decide⟩
      · exact hentry
    by_cases hmask : k.dmaMask = 0
    · rw [if_neg (not_not_intro hmask)]
      cases k.ofNode with
      | false => exact Or.inl ⟨_, rfl, by decide⟩
      | true =>
        cases k.rknpuDev with
        | false => exact Or.inl ⟨_, rfl, by decide⟩
        | true => exact Or.inr ⟨_, rfl, hselected⟩
    · rw [if_pos hmask]
      cases k.ofNode with
      | false => exact Or.inl ⟨_, rfl, by decide⟩
      | true =>
        cases k.rknpuDev with
        | false => exact Or.inl ⟨_, rfl, by decide⟩
        | true => exact Or.inl ⟨_, rfl, hmask⟩

/-! ## Parts of the ledger -/

section
variable {k : ProbeOutcome} {config : RknpuConfig}

theorem regulatorError_ne {err ret : ℤ} (h : regulatorError err = some ret) : ret ≠ 0 := by
  unfold regulatorError at h
  split_ifs at h with herr
  cases h
  exact herr.1

theorem mapRegisters_ne {res : Option RegisterMap} {ret : ℤ} (h : mapRegisters res = some ret) :
    ret ≠ 0 := by
  cases res with
  | none =>
    cases h
    decide
  | some res =>
    simp only [mapRegisters] at h
    split_ifs at h <;> cases h <;> decide

theorem requestLine_ne {i : ℕ} {ret : ℤ} (h : requestLine k i = some ret) : ret ≠ 0 := by
  unfold requestLine at h
  split_ifs at h with hirq hreq
  · cases h
    exact ne_of_lt hirq.2
  · cases h
    exact ne_of_lt hreq

theorem orElse_cases {α : Type} {o : Option α} {f : Unit → Option α} {a : α}
    (h : o.orElse f = some a) : o = some a ∨ f () = some a := by
  cases o with
  | none => exact Or.inr h
  | some b => exact Or.inl h

theorem probeManaged_ne {ret : ℤ} (h : probeManaged config k = some ret) : ret ≠ 0 := by
  unfold probeManaged at h
  split_ifs at h
  · cases h
    decide
  · obtain h | h := orElse_cases h
    · exact regulatorError_ne h
    obtain h | h := orElse_cases h
    · exact regulatorError_ne h
    obtain h | h := orElse_cases h
    · obtain ⟨i, -, hi⟩ := List.exists_of_findSome?_eq_some h
      exact mapRegisters_ne hi
    · obtain ⟨i, -, hi⟩ := List.exists_of_findSome?_eq_some h
      exact requestLine_ne hi

/-- What `rknpu_drm_probe` takes: nothing when it fails, and else what `rknpu_drm_remove` gives
back. -/
theorem rknpuDrmProbe_cases (k : ProbeOutcome) (held : List Resource) :
    (∃ drm fakeDev, rknpuDrmProbe k = (none, drm, fakeDev)) ∨
    (∃ ret drm fakeDev, rknpuDrmProbe k = (some ret, drm, fakeDev) ∧ ret ≠ 0 ∧
      Leaves held drm held) ∨
    ∃ drm fakeDev, rknpuDrmProbe k = (some 0, drm, fakeDev) ∧
      Leaves held drm (held ++ rknpuDrmRemove fakeDev) := by
  unfold rknpuDrmProbe
  by_cases hdev : k.drmDev = 0
  · rw [if_neg (not_not_intro hdev)]
    by_cases hreg : k.drmRegister < 0
    · rw [if_pos hreg]
      refine Or.inr (Or.inl ⟨_, _, _, rfl, ne_of_lt hreg, ?_⟩)
      apply Leaves.take_cons
      exact (Leaves.give [Resource.drmDev] held).perm_left List.perm_append_comm
    · rw [if_neg hreg]
      cases k.fakeDev with
      | errPtr => exact Or.inl ⟨_, _, rfl⟩
      | registered err =>
        refine Or.inr (Or.inr ?_)
        have htake := Leaves.take held [Resource.drmDev, .drmRegistration, .fakeDev]
        by_cases herr : err = 0
        · refine ⟨_, true, if_neg (not_not_intro herr), htake.perm_right ?_⟩
          exact (List.reverse_perm [Resource.fakeDev, .drmRegistration, .drmDev]).append_left held
        · refine ⟨_, false, if_pos herr, ?_⟩
          have hgive := Leaves.give [Resource.fakeDev] (held ++ [.drmDev, .drmRegistration])
          refine (htake.append (hgive.perm_left ?_)).perm_right ?_
          · exact (@List.perm_append_comm _ [Resource.fakeDev] _).trans
              (List.Perm.of_eq (by simp))
          · exact (List.Perm.swap _ _ []).append_left held
  · rw [if_pos hdev]
    exact Or.inr (Or.inl ⟨_, _, _, rfl, hdev, Leaves.nil held⟩)

theorem probePower_bound_iff (fakeDev : Bool) (hw : PowerHw) :
    (probePower config k fakeDev hw).dev ≠ none ↔
      (probePower config k fakeDev hw).ret = some 0 := by
  unfold probePower
  by_cases hon : (rknpuPowerOn (probeDomains config k) k.powerOn hw).2 = 0
  · simp only [hon, ne_eq, not_true, if_false]
    cases k.powerOffWq with
    | false => exact iff_of_false (not_not_intro rfl) fun h => nomatch (Option.some.inj h)
    | true =>
      by_cases hsram : (probeSram k).ret = 0
      · simp [hsram]
      · simp [hsram]
  · simp [hon]

/-- The driver is bound exactly when `rknpu_probe` returns `0`. -/
theorem rknpuProbe_bound_iff (k : ProbeOutcome) (hw : PowerHw) :
    (rknpuProbe k hw).dev ≠ none ↔ (rknpuProbe k hw).ret = some 0 := by
  have hfailed : ∀ {ret : ℤ}, ret ≠ 0 →
      ((none : Option RknpuDevice) ≠ none ↔ some ret = some 0) :=
    fun hret => iff_of_false (not_not_intro rfl) fun h => hret (Option.some.inj h)
  unfold rknpuProbe
  obtain ⟨ret, hconfig, hret⟩ | ⟨config, hconfig, -⟩ := probeConfig_cases k
  · rw [hconfig]
    exact hfailed hret
  rw [hconfig]
  by_cases hgroup : (k.iommuEnable && !k.iommuGroup) = true
  · simp only [hgroup, if_true]
    exact hfailed (by decide)
  simp only [hgroup]
  cases hmanaged : probeManaged config k with
  | some ret => exact hfailed (probeManaged_ne hmanaged)
  | none =>
    obtain ⟨drm, fakeDev, hdrm⟩ | ⟨ret, drm, fakeDev, hdrm, hret, -⟩ |
      ⟨drm, fakeDev, hdrm, -⟩ := rknpuDrmProbe_cases k []
    · rw [hdrm]
      exact iff_of_false (not_not_intro rfl) nofun
    · rw [hdrm]
      simp only [hret, ne_eq, not_false_eq_true, if_true]
      exact hfailed hret
    · rw [hdrm]
      cases k.fenceCtx with
      | false => exact hfailed (by decide)
      | true => exact probePower_bound_iff fakeDev hw

end

end RknpuDriver.Probe
