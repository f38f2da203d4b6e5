import RknpuDriver.Buffer.Sync
import RknpuDriver.Lib.Coherence

/-! # What MEM_SYNC makes visible

The CPU and the NPU take turns with the bytes of a cacheable object: `RKNPU_MEM_SYNC_TO_DEVICE`
gives a range to the NPU, `RKNPU_MEM_SYNC_FROM_DEVICE` gives it back to the CPU. The ranges that
`rknpu_gem_sync_ioctl` visits are those of `Buffer.Sync`, the cache is that of `Lib.Coherence`, and
the operations of the kernel for a range are a parameter.

* `RangeSync.Promised`: what the kernel promises of them.
* `sync_reads_iff`: CPU and NPU read what was written last exactly when no request discards writes
  of the CPU that the memory does not have yet.
* `quiet_window_keeps`: without `RKNPU_DKMS` only the writes in the range of a request matter.
* `dkms_discards`: with `RKNPU_DKMS` a request for one page discards what was written to another.
-/

namespace RknpuDriver.Buffer
open RknpuDriver.Lib RknpuDriver.Mm
set_option autoImplicit false

/-! ## The cache -/

/-- Line `l` of `c` bytes has a byte of the segment, or the place of an empty one. -/
def meets (c : ℕ) (s : Segment) (l : ℕ) : Bool :=
  l * c < s.start + s.length ∧ s.start < (l + 1) * c

def inside (c : ℕ) (s : Segment) (l : ℕ) : Bool :=
  s.start ≤ l * c ∧ (l + 1) * c ≤ s.start + s.length

/-- The operations with which the kernel syncs a range of the DDR in one direction. -/
abbrev RangeSync := Direction → Segment → List (Maintenance ℕ)

/-- What the kernel promises of them: a sync to the device cleans the lines of the range, one from
the device discards them, but a line that is only partly in the range is written back first. -/
structure RangeSync.Promised (c : ℕ) (sync : RangeSync) : Prop where
  toDevice : ∀ s l, reaching (sync .toDevice s) l = if meets c s l then [.clean] else []
  fromDevice : ∀ s l, reaching (sync .fromDevice s) l =
    if inside c s l then [.discard] else if meets c s l then [.flush] else []

/-- What a call does to the lines of the DDR. -/
def SyncCall.maintenance (sync : RangeSync) : SyncCall → List (Maintenance ℕ)
  | .range .ddr dir s => sync dir s
  | .range _ _ _ => []
  | .table dir sgl => sgl.flatMap (sync dir)

/-- The lines of the bytes that a request names. -/
def asked (c : ℕ) (obj : RknpuGemObject) (args : SyncArgs) (l : ℕ) : Bool :=
  (((Segment.bytes (obj.sgt.getD [])).drop args.offset.toNat).take args.size.toNat).any fun x =>
    x / c = l

variable {dev : RknpuDevice}

/-- What a request does; `domainRet` is what `rknpu_iommu_domain_get_and_switch` returns in it. A
request that fails does nothing. -/
def syncHandover (c : ℕ) (sync : RangeSync) (io : IoMap dev) (mm : Option RknpuMm)
    (obj : RknpuGemObject) (request : SyncArgs × ℤ) : Handover ℕ :=
  match rknpuGemSyncIoctl io mm obj request.1 request.2 with
  | some (0, calls) => {
      ops := calls.flatMap (SyncCall.maintenance sync)
      toDevice := fun l => .toDevice ∈ directions request.1.flags && asked c obj request.1 l
      toCpu := fun l => .fromDevice ∈ directions request.1.flags && asked c obj request.1 l }
  | _ => ⟨[], fun _ => false, fun _ => false⟩

/-- CPU, cache, NPU and requests for one object. -/
def syncSystem (c : ℕ) (sync : RangeSync) (io : IoMap dev) (mm : Option RknpuMm)
    (obj : RknpuGemObject) (V : Type) :
    System (SharedMemory ℕ ℕ V) (SharedLabel ℕ ℕ V (SyncArgs × ℤ)) :=
  sharedSystem (fun x => x / c) (syncHandover c sync io mm obj) (Coherent fun x => x / c)

/-- The segments that a request goes through: `RKNPU_DKMS` adds the whole table. -/
def visited (io : IoMap dev) (obj : RknpuGemObject) (args : SyncArgs) : List Segment :=
  (if io.dkms then obj.sgt.getD [] else []) ++
    Segment.window args.offset.toNat args.size.toNat (obj.sgt.getD [])

/-- A request from the device alone discards no line with unsaved writes: the first segment with a
byte of such a line does not have all of it. -/
def KeepsWrites (c : ℕ) (io : IoMap dev) (obj : RknpuGemObject) {V : Type}
    (s : SharedMemory ℕ ℕ V) : SharedLabel ℕ ℕ V (SyncArgs × ℤ) → Prop
  | .request (args, domainRet) => domainRet = 0 → directions args.flags = [.fromDevice] →
      ∀ l, s.cached.Unsaved (fun x => x / c) l →
        ∀ sg, (visited io obj args).find? (fun sg => meets c sg l) = some sg →
          inside c sg l = false
  | _ => True

/-! ## The first operation that reaches a line -/

section
variable {c l : ℕ} {sync : RangeSync} {s : Segment} {segs : List Segment}

theorem meets_of_inside (hc : 0 < c) (h : inside c s l = true) : meets c s l = true := by
  unfold inside at h
  unfold meets
  simp only [decide_eq_true_eq, Nat.succ_mul] at h ⊢
  omega

theorem not_inside (hc : 0 < c) (h : ¬ meets c s l = true) : inside c s l = false := by
  by_contra hne
  exact h (meets_of_inside hc ((Bool.not_eq_false _).mp hne))

theorem meets_of_mem (hc : 0 < c) {x : ℕ} (hx : x ∈ s.addrs) : meets c s (x / c) = true := by
  rw [Segment.mem_addrs] at hx
  have hlow := Nat.div_mul_le_self x c
  have hhigh := Nat.lt_mul_div_succ x hc
  rw [Nat.mul_comm] at hhigh
  unfold meets
  rw [decide_eq_true_eq]
  omega

theorem head_reaching (hc : 0 < c) (hsync : sync.Promised c) (dir : Direction) :
    (reaching (segs.flatMap (sync dir)) l).head? =
      (segs.find? fun s => meets c s l).map fun s =>
        match dir with
        | .toDevice => .clean
        | .fromDevice => if inside c s l then .discard else .flush := by
  induction segs with
  | nil => rfl
  | cons s segs ih =>
    rw [List.flatMap_cons, reaching_append, List.head?_append, List.find?_cons, ih]
    by_cases hmeets : meets c s l = true
    · rw [hmeets]
      cases dir with
      | toDevice =>
        rw [hsync.toDevice, if_pos hmeets]
        rfl
      | fromDevice =>
        rw [hsync.fromDevice]
        by_cases hinside : inside c s l = true
        · simp [hinside]
        · simp [hmeets, hinside]
    · have hinside := not_inside hc hmeets
      rw [(Bool.not_eq_true _).mp hmeets]
      cases dir with
      | toDevice => simp [hsync.toDevice, hmeets]
      | fromDevice => simp [hsync.fromDevice, hmeets, hinside]

theorem head_reaching_both (hc : 0 < c) (hsync : sync.Promised c) :
    (reaching (segs.flatMap fun s => sync .toDevice s ++ sync .fromDevice s) l).head? =
      (segs.find? fun s => meets c s l).map fun _ => .clean := by
  induction segs with
  | nil => rfl
  | cons s segs ih =>
    rw [List.flatMap_cons, reaching_append, List.head?_append, List.find?_cons, ih,
      reaching_append, hsync.toDevice, hsync.fromDevice]
    by_cases hmeets : meets c s l = true
    · rw [hmeets]
      simp
    · have hinside := not_inside hc hmeets
      simp [hmeets, hinside]

end

/-! ## A request -/

section
variable {c : ℕ} {sync : RangeSync} {io : IoMap dev} {mm : Option RknpuMm} {obj : RknpuGemObject}
  {t : SgTable} {args : SyncArgs}

theorem sync_calls (args : SyncArgs) (hcacheable : obj.flags &&& rknpuMemCacheable ≠ 0)
    (hscattered : obj.flags &&& rknpuMemNonContiguous ≠ 0) (hsram : obj.sramSize = 0)
    (hnbuf : obj.nbufSize = 0) (hsgt : obj.sgt = some t.segs) :
    rknpuGemSyncIoctl io mm obj args 0 = some (0, syncTable io obj args.flags ++
      (Segment.window args.offset.toNat args.size.toNat t.segs).flatMap
        (syncRange args.flags .ddr)) := by
  have hlt : 0 + Segment.total t.segs < 2 ^ 64 := by
    rw [Nat.zero_add]
    exact SgTable.total_lt t
  have hcache : syncCache io mm obj args.size.toNat args.offset.toNat =
      some ⟨[], args.size.toNat, args.offset.toNat⟩ := by
    unfold syncCache
    rw [hsram, hnbuf, if_neg (by simp), if_neg (by simp)]
  have hranges := syncLoop_ranges t.segs (Nat.zero_le args.offset.toNat) hlt args.size.toNat_lt
  rw [Nat.sub_zero] at hranges
  unfold rknpuGemSyncIoctl
  rw [if_neg hcacheable, if_neg (by decide), if_neg hscattered, hcache, hsgt]
  show some (0, syncTable io obj args.flags ++ [] ++ _) = _
  rw [hranges, List.append_nil]

theorem maintenance_calls (segs : List Segment) (hsgt : obj.sgt = some t.segs) :
    (syncTable io obj args.flags ++ segs.flatMap (syncRange args.flags .ddr)).flatMap
        (SyncCall.maintenance sync) =
      ((directions args.flags).flatMap fun dir =>
        (if io.dkms then t.segs else []).flatMap (sync dir)) ++
      segs.flatMap fun s => (directions args.flags).flatMap fun dir => sync dir s := by
  have htable : (syncTable io obj args.flags).flatMap (SyncCall.maintenance sync) =
      (directions args.flags).flatMap fun dir =>
        (if io.dkms then t.segs else []).flatMap (sync dir) := by
    unfold syncTable
    rw [hsgt]
    cases io.dkms with
    | true => exact List.flatMap_map ..
    | false => simp
  have hranges : (segs.flatMap (syncRange args.flags .ddr)).flatMap (SyncCall.maintenance sync) =
      segs.flatMap fun s => (directions args.flags).flatMap fun dir => sync dir s := by
    rw [List.flatMap_assoc]
    congr 1
    funext s
    exact List.flatMap_map ..
  rw [List.flatMap_append, htable, hranges]

theorem head_calls (hc : 0 < c) (hsync : sync.Promised c) (hsgt : obj.sgt = some t.segs) {l : ℕ} :
    (reaching ((syncTable io obj args.flags ++
        (Segment.window args.offset.toNat args.size.toNat t.segs).flatMap
          (syncRange args.flags .ddr)).flatMap (SyncCall.maintenance sync)) l).head? =
        some .discard ↔
      directions args.flags = [.fromDevice] ∧
        ∃ sg, (visited io obj args).find? (fun sg => meets c sg l) = some sg ∧
          inside c sg l = true := by
  rw [maintenance_calls _ hsgt]
  obtain h | h | h | h := directions_cases args.flags
  · have hnone : ∀ segs : List Segment, (segs.flatMap fun s =>
        ([] : List Direction).flatMap fun dir => sync dir s) = [] :=
      fun segs => List.flatMap_eq_nil_iff.mpr fun _ _ => rfl
    rw [h, hnone]
    exact iff_of_false nofun (by simp)
  · simp only [h, List.flatMap_cons, List.flatMap_nil, List.append_nil]
    rw [← List.flatMap_append, head_reaching hc hsync]
    refine iff_of_false ?_ (by simp)
    simp
  · simp only [h, List.flatMap_cons, List.flatMap_nil, List.append_nil]
    rw [← List.flatMap_append, head_reaching hc hsync, visited, hsgt, Option.getD_some,
      Option.map_eq_some_iff, true_and]
    refine exists_congr fun sg => and_congr_right fun _ => ?_
    by_cases hinside : inside c sg l = true
    · simp [hinside]
    · simp [hinside]
  · simp only [h, List.flatMap_cons, List.flatMap_nil, List.append_nil]
    refine iff_of_false ?_ (by simp)
    rw [reaching_append, reaching_append, List.head?_append, List.head?_append,
      head_reaching hc hsync, head_reaching hc hsync, head_reaching_both hc hsync]
    cases hfind : (if io.dkms then t.segs else []).find? fun s => meets c s l with
    | some sg => simp
    | none => simp

theorem asked_reached (hc : 0 < c) (hsync : sync.Promised c) (hsgt : obj.sgt = some t.segs)
    {calls : List SyncCall} {l : ℕ} {dir : Direction} (hasked : asked c obj args l = true)
    (hcalls : ∀ s ∈ Segment.window args.offset.toNat args.size.toNat t.segs,
      SyncCall.range .ddr dir s ∈ calls) :
    ∃ op ∈ reaching (calls.flatMap (SyncCall.maintenance sync)) l,
      dir = .fromDevice → op ≠ .clean := by
  unfold asked at hasked
  rw [hsgt, Option.getD_some, ← Segment.bytes_window] at hasked
  obtain ⟨x, hx, hline⟩ := List.any_eq_true.mp hasked
  obtain rfl := of_decide_eq_true hline
  obtain ⟨s, hs, hlow, hhigh⟩ := Segment.mem_bytes.mp hx
  have hmeets := meets_of_mem hc (Segment.mem_addrs.mpr ⟨hlow, hhigh⟩)
  have hmem : ∀ op ∈ reaching (sync dir s) (x / c),
      op ∈ reaching (calls.flatMap (SyncCall.maintenance sync)) (x / c) := by
    intro op hop
    obtain ⟨m, hm, hon⟩ := mem_reaching.mp hop
    exact mem_reaching.mpr ⟨m, List.mem_flatMap.mpr ⟨_, hcalls s hs, hm⟩, hon⟩
  cases dir with
  | toDevice =>
    refine ⟨.clean, hmem _ ?_, nofun⟩
    rw [hsync.toDevice, if_pos hmeets]
    exact List.mem_singleton_self _
  | fromDevice =>
    have hreach := hsync.fromDevice s (x / c)
    by_cases hinside : inside c s (x / c) = true
    · rw [if_pos hinside] at hreach
      refine ⟨.discard, hmem _ ?_, fun _ => nofun⟩
      rw [hreach]
      exact List.mem_singleton_self _
    · rw [if_neg hinside, if_pos hmeets] at hreach
      refine ⟨.flush, hmem _ ?_, fun _ => nofun⟩
      rw [hreach]
      exact List.mem_singleton_self _

theorem syncHandover_sound (hc : 0 < c) (hsync : sync.Promised c)
    (hcacheable : obj.flags &&& rknpuMemCacheable ≠ 0)
    (hscattered : obj.flags &&& rknpuMemNonContiguous ≠ 0) (hsram : obj.sramSize = 0)
    (hnbuf : obj.nbufSize = 0) (hsgt : obj.sgt = some t.segs) (request : SyncArgs × ℤ) :
    (syncHandover c sync io mm obj request).Sound := by
  obtain ⟨args, domainRet⟩ := request
  by_cases hdomain : domainRet = 0
  · subst hdomain
    have hcalls : rknpuGemSyncIoctl io mm obj args 0 = some (0, _) :=
      sync_calls args hcacheable hscattered hsram hnbuf hsgt
    have hvisits : ∀ dir ∈ directions args.flags,
        ∀ s ∈ Segment.window args.offset.toNat args.size.toNat t.segs,
          SyncCall.range .ddr dir s ∈ syncTable io obj args.flags ++
            (Segment.window args.offset.toNat args.size.toNat t.segs).flatMap
              (syncRange args.flags .ddr) := by
      intro dir hdir s hs
      apply List.mem_append_right
      exact List.mem_flatMap.mpr ⟨s, hs, List.mem_map.mpr ⟨dir, hdir, rfl⟩⟩
    unfold syncHandover
    simp only [hcalls]
    refine ⟨fun l hto _ => ?_, fun l hfrom => ?_⟩
    · simp only [Bool.and_eq_true, decide_eq_true_eq] at hto
      obtain ⟨op, hop, -⟩ := asked_reached hc hsync hsgt hto.2 (hvisits _ hto.1)
      exact List.ne_nil_of_mem hop
    · simp only [Bool.and_eq_true, decide_eq_true_eq] at hfrom
      obtain ⟨op, hop, hne⟩ := asked_reached hc hsync hsgt hfrom.2 (hvisits _ hfrom.1)
      exact ⟨op, hop, hne rfl⟩
  · have hfail : rknpuGemSyncIoctl io mm obj args domainRet = some (-einval, []) := by
      unfold rknpuGemSyncIoctl
      rw [if_neg hcacheable, if_pos hdomain]
    unfold syncHandover
    simp only [hfail]
    exact ⟨fun _ h => (Bool.false_ne_true h).elim, fun _ h => (Bool.false_ne_true h).elim⟩

theorem saves_iff (hc : 0 < c) (hsync : sync.Promised c)
    (hcacheable : obj.flags &&& rknpuMemCacheable ≠ 0)
    (hscattered : obj.flags &&& rknpuMemNonContiguous ≠ 0) (hsram : obj.sramSize = 0)
    (hnbuf : obj.nbufSize = 0) (hsgt : obj.sgt = some t.segs) {V : Type} (s : SharedMemory ℕ ℕ V)
    (label : SharedLabel ℕ ℕ V (SyncArgs × ℤ)) :
    Saves (fun x => x / c) (syncHandover c sync io mm obj) s label ↔
      KeepsWrites c io obj s label := by
  cases label with
  | request r =>
    obtain ⟨args, domainRet⟩ := r
    by_cases hdomain : domainRet = 0
    · subst hdomain
      have hcalls : rknpuGemSyncIoctl io mm obj args 0 = some (0, _) :=
        sync_calls args hcacheable hscattered hsram hnbuf hsgt
      simp only [Saves, KeepsWrites, syncHandover, hcalls, true_implies]
      constructor
      · intro h hdirs l hunsaved sg hfind
        refine (Bool.not_eq_true _).mp fun hinside => ?_
        exact h l hunsaved ((head_calls hc hsync hsgt).mpr ⟨hdirs, sg, hfind, hinside⟩)
      · intro h l hunsaved hhead
        obtain ⟨hdirs, sg, hfind, hinside⟩ := (head_calls hc hsync hsgt).mp hhead
        exact Bool.false_ne_true ((h hdirs l hunsaved sg hfind).symm.trans hinside)
    · have hfail : rknpuGemSyncIoctl io mm obj args domainRet = some (-einval, []) := by
        unfold rknpuGemSyncIoctl
        rw [if_neg hcacheable, if_pos hdomain]
      simp only [Saves, KeepsWrites, syncHandover, hfail]
      exact iff_of_true (fun _ _ => nofun) fun h => absurd h hdomain
  | cpuWrite a v | devWrite a v | fill l | evict l => exact Iff.rfl

/-- **What MEM_SYNC makes visible**: the CPU reads what was written last to the bytes that it has,
and so does the NPU, through a whole run from a coherent state, exactly when no request discards
writes of the CPU that the memory does not have. -/
theorem sync_reads_iff (hc : 0 < c) (hsync : sync.Promised c)
    (hcacheable : obj.flags &&& rknpuMemCacheable ≠ 0)
    (hscattered : obj.flags &&& rknpuMemNonContiguous ≠ 0) (hsram : obj.sramSize = 0)
    (hnbuf : obj.nbufSize = 0) (hsgt : obj.sgt = some t.segs) {V : Type} {s u : SharedMemory ℕ ℕ V}
    {labels : List (SharedLabel ℕ ℕ V (SyncArgs × ℤ))} (hs : Coherent (fun x => x / c) s)
    (hrun : (syncSystem c sync io mm obj V).run s labels = some u) :
    (syncSystem c sync io mm obj V).Throughout (Reads fun x => x / c) s labels ↔
      (syncSystem c sync io mm obj V).EachStep (KeepsWrites c io obj) s labels := by
  have hsaves : Saves (fun x => x / c) (syncHandover c sync io mm obj) =
      KeepsWrites c io obj (V := V) :=
    funext fun s => funext fun label =>
      propext (saves_iff hc hsync hcacheable hscattered hsram hnbuf hsgt s label)
  rw [← hsaves]
  exact reads_iff (syncHandover_sound hc hsync hcacheable hscattered hsram hnbuf hsgt) hs hrun

/-- Without `RKNPU_DKMS` a request looks at no other line than those it names. -/
theorem quiet_window_keeps (hc : 0 < c) (hsgt : obj.sgt = some t.segs) (hdkms : io.dkms = false)
    {V : Type} {s : SharedMemory ℕ ℕ V} {args : SyncArgs} {domainRet : ℤ}
    (hquiet : ∀ l, asked c obj args l = true → ¬ s.cached.Unsaved (fun x => x / c) l) :
    KeepsWrites c io obj s (.request (args, domainRet)) := by
  intro _ _ l hunsaved sg hfind
  refine (Bool.not_eq_true _).mp fun hinside => hquiet l ?_ hunsaved
  rw [visited, hdkms, hsgt, Option.getD_some] at hfind
  unfold asked
  rw [hsgt, Option.getD_some, ← Segment.bytes_window]
  refine List.any_eq_true.mpr ⟨l * c, ?_, by simp [hc]⟩
  unfold inside at hinside
  simp only [decide_eq_true_eq, Nat.succ_mul] at hinside
  exact Segment.mem_bytes.mpr ⟨sg, List.mem_of_find?_eq_some hfind, by omega, by omega⟩

end

/-! ## Two pages -/

/-- The operations of `dma_sync_single_for_device` and `dma_sync_single_for_cpu`. -/
def dmaSync (c : ℕ) : RangeSync
  | .toDevice, s => [⟨.clean, meets c s⟩]
  | .fromDevice, s => [⟨.flush, fun l => meets c s l && !inside c s l⟩, ⟨.discard, inside c s⟩]

theorem dmaSync_promised (c : ℕ) : (dmaSync c).Promised c where
  toDevice s l := reaching_cons _ [] l
  fromDevice s l := by
    by_cases hinside : inside c s l = true
    · simp [dmaSync, reaching, hinside]
    · by_cases hmeets : meets c s l = true
      · simp [dmaSync, reaching, hinside, hmeets]
      · simp [dmaSync, reaching, hinside, hmeets]

/-- Nothing is in the cache, and the CPU has all lines. -/
def zeroed : SharedMemory ℕ ℕ ℕ :=
  ⟨⟨fun _ => 0, fun _ => 0, fun _ => .absent⟩, fun _ => .cpu, fun _ => 0⟩

theorem zeroed_coherent (c : ℕ) : Coherent (fun x => x / c) zeroed :=
  ⟨fun _ => rfl, fun _ _ _ => rfl, fun _ => nofun⟩

/-- The CPU writes to the first page and gives it to the NPU, which writes to it too; the CPU gets
it back. -/
def turns : List (SharedLabel ℕ ℕ ℕ (SyncArgs × ℤ)) :=
  [.cpuWrite 0x1000 7, .request (⟨1, 0, 4096⟩, 0), .fill 64, .devWrite 0x1001 8,
    .request (⟨3, 0, 4096⟩, 0)]

theorem sync_reads_iff_turns :
    (syncSystem 64 (dmaSync 64) ioThreePages none scatteredObject ℕ).Throughout
      (Reads fun x => x / 64) zeroed turns := by
  obtain ⟨u, hu⟩ : ∃ u, (syncSystem 64 (dmaSync 64) ioThreePages none scatteredObject ℕ).run
      zeroed turns = some u := ⟨_, rfl⟩
  refine (sync_reads_iff (t := twoPages) (by decide) (dmaSync_promised 64) (by decide) (by decide)
    rfl rfl rfl (zeroed_coherent 64) hu).mpr ?_
  have hto : directions 1 ≠ [.fromDevice] := by decide
  have hboth : directions 3 ≠ [.fromDevice] := by decide
  refine ⟨trivial, fun _ _ => ⟨?_, fun _ _ => ⟨trivial, fun _ _ => ⟨trivial, fun _ _ =>
    ⟨?_, fun _ _ => trivial⟩⟩⟩⟩⟩
  · intro _ h
    exact absurd h hto
  · intro _ h
    exact absurd h hboth

/-- The registers of `ioThreePages` in a build with `RKNPU_DKMS`. -/
def ioDkms : IoMap threePages := { ioThreePages with dkms := true }

/-- With `RKNPU_DKMS` a request for the second page discards what the CPU wrote to the first. -/
theorem dkms_discards : ¬ (syncSystem 64 (dmaSync 64) ioDkms none scatteredObject ℕ).Throughout
    (Reads fun x => x / 64) zeroed [.cpuWrite 0x1000 7, .request (⟨2, 4096, 4096⟩, 0)] := by
  rintro ⟨-, hrest⟩
  obtain ⟨-, hrest⟩ := hrest _ rfl
  have hread := (hrest _ rfl).cpu 0x1000 (by decide +kernel)
  revert hread
  decide +kernel

end RknpuDriver.Buffer
