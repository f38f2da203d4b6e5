import RknpuDriver.Buffer.Sizes

/-! # What a kernel mapping of a buffer covers

`rknpu_gem_prime_vmap` maps the first `num_pages` pages of an object. The field is set where a
buffer gets a cache part, and nowhere else: a buffer of the DMA API and an imported one have a page
array and no count of it. `kernel_map_whole` says which runs have only objects that are mapped
whole.
-/

namespace RknpuDriver.Buffer
open RknpuDriver.Lib RknpuDriver.Mm
set_option autoImplicit false

/-! ## Import -/

/-- `RKNPU_MEM_CONTIGUOUS`, which is no bit at all. -/
def rknpuMemContiguous : UInt32 := 0

/-- A table that was attached: its pages, `nents`, and the DMA address of its first entry. -/
structure ImportedTable where
  sgl : List Segment
  nents : ℕ
  dmaAddr : ℕ

structure ImportOutcome where
  kzallocOk : Bool
  initRet : ℤ
  pagesOk : Bool

/-- `rknpu_gem_prime_import_sg_table`. `npages` is an `int`: one that is negative is no size for
an array. -/
def rknpuGemPrimeImportSgTable (dmabufSize : UInt64) (table : ImportedTable)
    (out : ImportOutcome) : Except ℤ RknpuGemObject :=
  match rknpuGemInit out.kzallocOk out.initRet dmabufSize.toNat with
  | .error e => .error e
  | .ok obj =>
    let obj := { obj with dmaAddr := table.dmaAddr }
    let npages := u32 (obj.size / pageSize)
    if out.pagesOk = false ∨ 2 ^ 31 ≤ npages then .error (-enomem)
    else
      match drmPrimeSgToPageArray table.sgl npages with
      | .error e => .error e
      | .ok pages =>
        .ok { obj with
          pages := some pages
          sgt := some table.sgl
          flags := obj.flags |||
            if table.nents = 1 then rknpuMemContiguous else rknpuMemNonContiguous }

/-! ## Mapping -/

/-- `vmap`: the kernel has no area of no pages. -/
def vmap (pages : List ℕ) (count : ℕ) (areaOk : Bool) : Option (List ℕ) :=
  if areaOk = true ∧ 0 < count then some (pages.take count) else none

/-- `rknpu_gem_prime_vmap`. -/
def rknpuGemPrimeVmap (obj : RknpuGemObject) (areaOk : Bool) : Except ℤ (List ℕ) :=
  match obj.pages with
  | none => .error (-einval)
  | some pages =>
    match vmap pages obj.numPages areaOk with
    | none => .error (-enomem)
    | some mapping => .ok mapping

/-- An object's page count is that of its size and of its page array, and it is mapped whole. -/
def MapsWhole (o : RknpuGemObject) : Prop :=
  ∀ pages, o.pages = some pages → o.numPages = o.size / pageSize ∧
    o.numPages = pages.length ∧
    ∀ areaOk mapping, rknpuGemPrimeVmap o areaOk = .ok mapping → mapping = pages

theorem mapsWhole_of_none {o : RknpuGemObject} (h : o.pages = none) : MapsWhole o := by
  intro pages hpages
  rw [h] at hpages
  cases hpages

theorem mapsWhole_of_count {o : RknpuGemObject} {pages : List ℕ} (hpages : o.pages = some pages)
    (hsize : o.numPages = o.size / pageSize) (hlength : o.numPages = pages.length) :
    MapsWhole o := by
  intro pages' hpages'
  cases hpages.symm.trans hpages'
  refine ⟨hsize, hlength, fun areaOk mapping hmap => ?_⟩
  unfold rknpuGemPrimeVmap vmap at hmap
  rw [hpages] at hmap
  split_ifs at hmap
  cases hmap
  rw [hlength, List.take_length]

theorem mapsWhole_uncounted {o : RknpuGemObject} {pages : List ℕ} (hpages : o.pages = some pages)
    (hcount : o.numPages = 0) (hlength : pages.length ≤ o.size / pageSize) :
    MapsWhole o ↔ o.size / pageSize = 0 := by
  constructor
  · intro h
    rw [← (h pages hpages).1, hcount]
  · intro hzero
    exact mapsWhole_of_count hpages (by omega) (by omega)

/-! ## The ways an object comes into being -/

theorem PlainResult.mapsWhole_iff {dev : RknpuDevice} {obj o : RknpuGemObject}
    {out : CreateOutcome} (h : PlainResult dev obj out (.ok o)) (hfresh : obj.dmaAddr = 0)
    (hpages : obj.pages = none) (hcount : obj.numPages = 0) (hmod : obj.size % pageSize = 0) :
    MapsWhole o ↔ obj.size = 0 := by
  obtain ⟨hpos, hbuf⟩ | ⟨hzero, hbuf⟩ := h
  · obtain ⟨flags, buffer, hlength, rfl⟩ := rknpuGemAllocBuf_filled hfresh hbuf.symm
    apply (mapsWhole_uncounted rfl _ _).trans
    · simp only [pageSize] at hmod ⊢
      omega
    · exact hcount
    · exact Nat.le_of_eq hlength
  · cases hbuf
    exact iff_of_true (mapsWhole_of_none hpages) hzero

theorem rknpuGemAllocBufWithCache_mapsWhole {dev : RknpuDevice} {mm : Option RknpuMm}
    {obj obj' : RknpuGemObject} {type : RknpuCacheType} {out : CacheOutcome}
    {domains domains' : ℕ → Translation} (hpos : 0 < obj.size)
    (h : rknpuGemAllocBufWithCache dev mm obj type out domains = some (.ok obj', domains')) :
    MapsWhole obj' := by
  obtain ⟨_, _, _, base, _, _, _, -, -, rfl, -, -, -, -, ⟨hzero, -⟩ | ⟨-, hddr⟩⟩ :=
    rknpuGemAllocBufWithCache_ok h
  · omega
  · obtain ⟨frame, pages, left, -, rfl, rfl, -⟩ := mapDdr_ok hddr
    refine mapsWhole_of_count rfl rfl ?_
    rw [List.length_map, List.length_range]

theorem created_mapsWhole_iff {dev : RknpuDevice} {args : CreateArgs} {out : CreateOutcome}
    {m m' : Memory} {o : RknpuGemObject}
    (h : rknpuGemObjectCreate dev args out m = some (.ok o, m')) :
    MapsWhole o ↔ pageAlign args.size.toNat = 0 ∨ HasCachePart dev args out m := by
  obtain ⟨hcache, mm, base, type, domains, hpos, hbuilt⟩ |
    ⟨hcache, base, hsize, hdma, hpages, hcount, hplain⟩ := rknpuGemObjectCreate_parts h
  · exact iff_of_true (rknpuGemAllocBufWithCache_mapsWhole hpos hbuilt) (Or.inr hcache)
  · have hmod : base.size % pageSize = 0 := by
      rw [hsize]
      exact pageAlign_mod _
    rw [hplain.mapsWhole_iff hdma hpages hcount hmod, hsize]
    exact (or_iff_left hcache).symm

theorem imported_mapsWhole_iff {dmabufSize : UInt64} {table : ImportedTable} {out : ImportOutcome}
    {o : RknpuGemObject} (h : rknpuGemPrimeImportSgTable dmabufSize table out = .ok o) :
    MapsWhole o ↔ dmabufSize.toNat < pageSize := by
  unfold rknpuGemPrimeImportSgTable at h
  split at h
  · cases h
  rename_i fresh hinit
  obtain ⟨hsize, -⟩ := rknpuGemInit_ok hinit
  by_cases hfails : out.pagesOk = false ∨ 2 ^ 31 ≤ u32 (fresh.size / pageSize)
  · rw [if_pos hfails] at h
    cases h
  rw [if_neg hfails] at h
  by_cases hlonger : u32 (fresh.size / pageSize) < (sgPages table.sgl).length
  · rw [drmPrimeSgToPageArray, if_pos hlonger] at h
    cases h
  rw [drmPrimeSgToPageArray, if_neg hlonger] at h
  cases h
  apply (mapsWhole_uncounted rfl _ _).trans
  · show fresh.size / pageSize = 0 ↔ _
    rw [hsize, Nat.div_eq_zero_iff_lt (by decide)]
  · exact (rknpuGemInit_pages hinit).2
  · exact Nat.le_trans (Nat.le_of_not_lt hlonger) (Nat.mod_le _ _)

/-! ## Runs -/

structure ObjectState where
  buf : BufState
  imported : List RknpuGemObject

/-- The calls of `bufSystem`, an import, and `rknpu_gem_object_destroy` of an imported object. -/
inductive ObjectLabel where
  | call (label : BufLabel)
  | importTable (dmabufSize : UInt64) (table : ImportedTable) (out : ImportOutcome)
  | release (index : ℕ)

def objectStep (dev : RknpuDevice) (s : ObjectState) : ObjectLabel → Option ObjectState
  | .call label => (bufStep dev s.buf label).map fun buf => { s with buf := buf }
  | .importTable dmabufSize table out =>
    match rknpuGemPrimeImportSgTable dmabufSize table out with
    | .error _ => some s
    | .ok obj => some { s with imported := s.imported ++ [obj] }
  | .release index =>
    if index < s.imported.length then some { s with imported := s.imported.eraseIdx index }
    else none

def objectSystem (dev : RknpuDevice) : System ObjectState ObjectLabel where
  init s := (bufSystem dev).init s.buf ∧ s.imported = []
  step := objectStep dev

def ObjectState.live (s : ObjectState) : List RknpuGemObject := s.buf.live ++ s.imported

/-- A kernel mapping of any live object covers all of it. -/
def KernelMapped (s : ObjectState) : Prop := ∀ o ∈ s.live, MapsWhole o

/-- The step gives memory to no object through `rknpu_gem_alloc_buf`, and imports no page. -/
def CountsPages (dev : RknpuDevice) (s : ObjectState) : ObjectLabel → Prop
  | .call (.create args out) => ∀ o m',
      rknpuGemObjectCreate dev args out s.buf.mem = some (.ok o, m') →
      pageAlign args.size.toNat = 0 ∨ HasCachePart dev args out s.buf.mem
  | .importTable dmabufSize table out => ∀ o,
      rknpuGemPrimeImportSgTable dmabufSize table out = .ok o → dmabufSize.toNat < pageSize
  | .call (.destroy _ _) => True
  | .release _ => True

theorem kernelMapped_push {s t : ObjectState} {o : RknpuGemObject} (hs : KernelMapped s)
    (hlive : ∀ x, x ∈ t.live ↔ x ∈ s.live ∨ x = o) : KernelMapped t ↔ MapsWhole o := by
  constructor
  · intro ht
    exact ht o ((hlive o).mpr (Or.inr rfl))
  · intro ho x hx
    obtain hx | rfl := (hlive x).mp hx
    · exact hs x hx
    · exact ho

theorem KernelMapped.drop {s t : ObjectState} (hs : KernelMapped s)
    (hlive : ∀ x ∈ t.live, x ∈ s.live) : KernelMapped t := fun x hx => hs x (hlive x hx)

theorem kernelMapped_create {dev : RknpuDevice} {s : ObjectState} {buf : BufState}
    {args : CreateArgs} {out : CreateOutcome} (hs : KernelMapped s)
    (h : bufStep dev s.buf (.create args out) = some buf) :
    KernelMapped { s with buf := buf } ↔ CountsPages dev s (.call (.create args out)) := by
  simp only [bufStep] at h
  show _ ↔ ∀ o m', rknpuGemObjectCreate dev args out s.buf.mem = some (.ok o, m') → _
  split at h
  · cases h
  · rename_i e mem hres
    cases h
    rw [hres]
    refine iff_of_true hs fun o m' ho => ?_
    cases ho
  · rename_i o mem hres
    cases h
    have hpush := @kernelMapped_push s ⟨⟨mem, s.buf.live ++ [o]⟩, s.imported⟩ o hs fun x => by
      simp only [ObjectState.live, List.mem_append, List.mem_singleton]
      exact or_right_comm
    rw [hpush, created_mapsWhole_iff hres, hres]
    constructor
    · intro hcached _ _ _
      exact hcached
    · intro hcached
      exact hcached o mem rfl

theorem kernelMapped_import {dev : RknpuDevice} {s t : ObjectState} {dmabufSize : UInt64}
    {table : ImportedTable} {out : ImportOutcome} (hs : KernelMapped s)
    (h : objectStep dev s (.importTable dmabufSize table out) = some t) :
    KernelMapped t ↔ CountsPages dev s (.importTable dmabufSize table out) := by
  simp only [objectStep] at h
  show _ ↔ ∀ o, rknpuGemPrimeImportSgTable dmabufSize table out = .ok o → _
  split at h
  · rename_i e hres
    cases h
    rw [hres]
    refine iff_of_true hs fun o ho => ?_
    cases ho
  · rename_i o hres
    cases h
    have hpush := @kernelMapped_push s ⟨s.buf, s.imported ++ [o]⟩ o hs fun x => by
      simp only [ObjectState.live, List.mem_append, List.mem_singleton, or_assoc]
    rw [hpush, imported_mapsWhole_iff hres, hres]
    constructor
    · intro hsmall _ _
      exact hsmall
    · intro hsmall
      exact hsmall o rfl

/-- What a step that builds an uncounted page array breaks, no other step does. -/
theorem kernelMapped_step {dev : RknpuDevice} {s t : ObjectState} {label : ObjectLabel}
    (hs : KernelMapped s) (h : objectStep dev s label = some t) :
    KernelMapped t ↔ CountsPages dev s label := by
  cases label with
  | call label =>
    obtain ⟨buf, hbuf, rfl⟩ := Option.map_eq_some_iff.mp h
    cases label with
    | create args out => exact kernelMapped_create hs hbuf
    | destroy index out =>
      refine iff_of_true (hs.drop fun x hx => ?_) trivial
      simp only [bufStep] at hbuf
      split at hbuf
      · cases hbuf
      split at hbuf
      · cases hbuf
        exact List.mem_append.mpr ((List.mem_append.mp hx).imp_left List.mem_of_mem_eraseIdx)
      · cases hbuf
  | importTable dmabufSize table out => exact kernelMapped_import hs h
  | release index =>
    simp only [objectStep] at h
    split_ifs at h
    cases h
    refine iff_of_true (hs.drop fun x hx => ?_) trivial
    exact List.mem_append.mpr ((List.mem_append.mp hx).imp_right List.mem_of_mem_eraseIdx)

/-- In a run, all live objects are mapped whole all along just when no step builds an object
through `rknpu_gem_alloc_buf` or by an import. -/
theorem kernel_map_whole {dev : RknpuDevice} {s t : ObjectState} {labels : List ObjectLabel}
    (h0 : (objectSystem dev).init s) (hrun : (objectSystem dev).run s labels = some t) :
    (objectSystem dev).Throughout KernelMapped s labels ↔
      (objectSystem dev).EachStep (CountsPages dev) s labels := by
  refine System.throughout_iff (fun _ _ _ hs h => kernelMapped_step hs h) hrun fun o ho => ?_
  obtain ⟨⟨-, -, -, -, -, -, -, hlive⟩, himported⟩ := h0
  rw [ObjectState.live, hlive, himported] at ho
  cases ho

def freshObjects : ObjectState := ⟨⟨freshPool, []⟩, []⟩

theorem freshObjects_init : (objectSystem threePages).init freshObjects :=
  ⟨⟨blankDevice, some (0x3ff80000, 0x3000), true, true, rfl, rfl, rfl, rfl⟩, rfl⟩

theorem kernel_map_whole_sram : (objectSystem threePages).Throughout KernelMapped freshObjects
    [.call (.create (sramArgs 5000) (noFailure 0x10000000 100))] := by
  have hrun : ((objectSystem threePages).run freshObjects
      [.call (.create (sramArgs 5000) (noFailure 0x10000000 100))]).isSome = true := by
    decide +kernel
  obtain ⟨t, ht⟩ := Option.isSome_iff_exists.mp hrun
  have halloc : (rknpuMmAlloc threeChunks (UInt32.ofNat (sramAsked (sramArgs 5000) threeChunks))
      true).map (fun res => res.toOption.isSome) = some true := by decide +kernel
  obtain ⟨res, hres, hok⟩ := Option.map_eq_some_iff.mp halloc
  refine (kernel_map_whole freshObjects_init ht).mpr ⟨fun o m' _ => Or.inr (Or.inl ?_),
    fun _ _ => trivial⟩
  cases res with
  | error e => cases hok
  | ok ret => exact ⟨by decide, threeChunks, ret.1, ret.2, rfl, hres⟩

/-- A buffer of two pages of the DMA API has a page array of two entries and no count of them. -/
theorem kernel_map_plain : ∃ s o, (objectSystem threePages).Reachable s ∧ o ∈ s.live ∧
    o.size = 8192 ∧ o.numPages = 0 ∧ o.pages = some [100, 101] ∧ ¬ MapsWhole o := by
  obtain ⟨s, hs, hp⟩ := System.Reachable.of_run_any (S := objectSystem threePages)
    (p := fun s => decide (s.live.map (fun o => (o.size, o.numPages, o.pages)) =
      [(8192, 0, some [100, 101])]))
    (l := [.call (.create ⟨0, 8192, 0, 0, 0⟩ (noFailure 0x20000000 100))]) freshObjects_init
    (by decide +kernel)
  obtain ⟨o, hlive, ho⟩ := List.map_eq_singleton_iff.mp (of_decide_eq_true hp)
  obtain ⟨hsize, hcount, hpages⟩ : o.size = 8192 ∧ o.numPages = 0 ∧ o.pages = some [100, 101] := by
    simpa using ho
  refine ⟨s, o, hs, by simp [hlive], hsize, hcount, hpages, fun h => ?_⟩
  have hnum := (h _ hpages).1
  rw [hsize, hcount] at hnum
  exact absurd hnum (by decide)

end RknpuDriver.Buffer
