import RknpuDriver.Basic
import RknpuDriver.Lib.Refs
import RknpuDriver.Lib.System

/-! # GEM objects of `rknpu_gem.c` and who holds them

An object is its number. The references are those of the handles of the DRM files,
of the jobs, of the exported dma-bufs, and of the entries of `rknpu_dkms_gem_ranges`; how the
DRM core takes and drops them is part of the model. What `rknpu_gem_object_create`,
`drm_gem_handle_create` and `kzalloc` return is chosen by the label. The build is the DKMS one,
whose `rknpu_iommu_domain_get_and_switch` returns `0`, so that the loops around it end at once
and an object whose last reference is dropped is freed.
-/

namespace RknpuDriver.Gem
open RknpuDriver.Lib
set_option autoImplicit false

/-- The fields of `struct rknpu_gem_object` that the ioctls read. -/
structure RknpuGemObject where
  size : ℕ
  sramSize : ℕ
  dmaAddr : ℕ
  deriving DecidableEq, Repr

/-- `struct rknpu_dkms_gem_range`. -/
structure RknpuDkmsGemRange where
  obj : ℕ
  base : ℕ
  size : ℕ
  deriving DecidableEq, Repr

/-- An entry of the handle table of a DRM file. -/
structure GemHandle where
  file : ℕ
  handle : ℕ
  obj : ℕ
  deriving DecidableEq, Repr

/-- `jobs` and `primes` list the objects of which a job or an exported dma-buf holds a
reference. -/
structure GemState where
  objs : ℕ → RknpuGemObject
  numObjs : ℕ
  refs : Refs ℕ
  handles : List GemHandle
  ranges : List RknpuDkmsGemRange
  jobs : List ℕ
  primes : List ℕ

namespace GemState
variable (s : GemState)

def get (o : ℕ) : GemState := { s with refs := s.refs.get o }

def put (o : ℕ) : GemState := { s with refs := s.refs.put o }

/-! ## The DRM core -/

/-- `drm_gem_object_lookup`, without the reference: its callers in this driver put it at once. -/
def find (file handle : ℕ) : Option GemHandle :=
  s.handles.find? fun h => h.file = file ∧ h.handle = handle

def drmGemHandleCreate (file o handle : ℕ) : GemState :=
  { s.get o with handles := s.handles ++ [⟨file, handle, o⟩] }

/-- The generic handle close is this function, and MEM_DESTROY calls it. -/
def drmGemHandleDelete (file handle : ℕ) : ℤ × GemState :=
  match s.find file handle with
  | none => (-einval, s)
  | some h => (0, { s.put h.obj with handles := s.handles.erase h })

/-- The close of a DRM file. -/
def drmGemRelease (file : ℕ) : GemState :=
  { s with
    handles := s.handles.filter fun h => h.file ≠ file
    refs := s.refs.putAll ((s.handles.filter fun h => h.file = file).map GemHandle.obj) }

/-- An object has one dma-buf at a time. -/
def drmGemPrimeExport (o : ℕ) : GemState :=
  if o ∈ s.primes then s else { s.get o with primes := s.primes ++ [o] }

def drmGemDmabufRelease (o : ℕ) : GemState :=
  { s.put o with primes := s.primes.erase o }

/-! ## The driver -/

/-- The object that `rknpu_gem_object_create` has built. -/
def rknpuGemInit (obj : RknpuGemObject) : GemState :=
  { s with
    objs := fun o => if o = s.numObjs then obj else s.objs o
    numObjs := s.numObjs + 1
    refs := s.refs.alloc s.numObjs }

def rknpuGemObjectDestroy (o : ℕ) : GemState := { s with refs := s.refs.destroy o }

/-- The reference of the allocation is dropped, the handle has its own. -/
def rknpuGemHandleCreate (file o handle : ℕ) : GemState :=
  (s.drmGemHandleCreate file o handle).put o

def rknpuDkmsTrackGemObj (o : ℕ) (kzallocOk : Bool) : GemState :=
  if (s.objs o).dmaAddr = 0 ∨ (s.objs o).size = 0 then s
  else if kzallocOk = false then s
  else
    let t := s.get o
    if ∃ r ∈ s.ranges, r.obj = o then t.put o
    else { t with ranges := s.ranges ++ [⟨o, (s.objs o).dmaAddr, (s.objs o).size⟩] }

def rknpuDkmsUntrackGemObj (o : ℕ) : GemState :=
  match s.ranges.find? fun r => r.obj = o with
  | none => s
  | some r => { s.put o with ranges := s.ranges.erase r }

/-- A new object that gets a handle, or is destroyed when there is none. -/
def createWithHandle (file : ℕ) (created : Except ℤ RknpuGemObject) (handle : Except ℤ ℕ) :
    Except ℤ ℕ × GemState :=
  match created, handle with
  | .error e, _ => (.error e, s)
  | .ok obj, .error e => (.error e, (s.rknpuGemInit obj).rknpuGemObjectDestroy s.numObjs)
  | .ok obj, .ok h => (.ok h, (s.rknpuGemInit obj).rknpuGemHandleCreate file s.numObjs h)

def rknpuGemDumbCreate (file : ℕ) (created : Except ℤ RknpuGemObject) (handle : Except ℤ ℕ) :
    Except ℤ ℕ × GemState :=
  s.createWithHandle file created handle

/-- The import of another driver's dma-buf: `rknpu_gem_prime_import_sg_table` builds the object,
the DRM core makes the handle and drops the reference of the import. -/
def drmGemPrimeImport (file : ℕ) (created : Except ℤ RknpuGemObject) (handle : Except ℤ ℕ) :
    Except ℤ ℕ × GemState :=
  s.createWithHandle file created handle

/-- What `rknpu_gem_create_ioctl` does once it has an object. -/
def finishCreate (args : RknpuMemCreate) (o : ℕ) (kzallocOk : Bool) :
    ℤ × RknpuMemCreate × GemState :=
  (0, { args with
    size := (s.objs o).size
    sramSize := (s.objs o).sramSize
    objAddr := o
    dmaAddr := (s.objs o).dmaAddr }, s.rknpuDkmsTrackGemObj o kzallocOk)

def rknpuGemCreateIoctl (file : ℕ) (args : RknpuMemCreate)
    (created : Except ℤ RknpuGemObject) (handle : Except ℤ ℕ) (kzallocOk : Bool) :
    ℤ × RknpuMemCreate × GemState :=
  match s.find file args.handle with
  | some h => s.finishCreate args h.obj kzallocOk
  | none =>
    match s.createWithHandle file created handle with
    | (.error e, t) => (e, args, t)
    | (.ok h, t) => t.finishCreate { args with handle := h } s.numObjs kzallocOk

def rknpuGemDestroyIoctl (file handle : ℕ) : ℤ × GemState :=
  match s.find file handle with
  | none => (-einval, s)
  | some h => (s.rknpuDkmsUntrackGemObj h.obj).drmGemHandleDelete file handle

end GemState

/-! ## Runs -/

/-- `submit o` and `jobFree o` are the get and the put of a job's task object. `primeOpen o` is
an import of the driver's own dma-buf of `o`. -/
inductive GemLabel where
  | memCreate (file : ℕ) (args : RknpuMemCreate) (created : Except ℤ RknpuGemObject)
      (handle : Except ℤ ℕ) (kzallocOk : Bool)
  | memDestroy (file handle : ℕ)
  | gemClose (file handle : ℕ)
  | fileClose (file : ℕ)
  | dumbCreate (file : ℕ) (created : Except ℤ RknpuGemObject) (handle : Except ℤ ℕ)
  | primeImport (file : ℕ) (created : Except ℤ RknpuGemObject) (handle : Except ℤ ℕ)
  | primeExport (file handle : ℕ)
  | primeOpen (o file handle : ℕ)
  | primeRelease (o : ℕ)
  | submit (o : ℕ)
  | jobFree (o : ℕ)

/-- What `drm_gem_handle_create` may return: an error, or a handle the file does not use. -/
def GemState.Unused (s : GemState) (file : ℕ) : Except ℤ ℕ → Prop
  | .error e => e < 0
  | .ok h => h ≠ 0 ∧ s.find file h = none

instance (s : GemState) (file : ℕ) (handle : Except ℤ ℕ) : Decidable (s.Unused file handle) := by
  cases handle <;> unfold GemState.Unused <;> infer_instance

def gemStep (s : GemState) : GemLabel → Option GemState
  | .memCreate file args created handle kzallocOk =>
    if s.Unused file handle then
      some (s.rknpuGemCreateIoctl file args created handle kzallocOk).2.2
    else none
  | .memDestroy file handle => some (s.rknpuGemDestroyIoctl file handle).2
  | .gemClose file handle => some (s.drmGemHandleDelete file handle).2
  | .fileClose file => some (s.drmGemRelease file)
  | .dumbCreate file created handle =>
    if s.Unused file handle then some (s.rknpuGemDumbCreate file created handle).2 else none
  | .primeImport file created handle =>
    if s.Unused file handle then some (s.drmGemPrimeImport file created handle).2 else none
  | .primeExport file handle => (s.find file handle).map fun h => s.drmGemPrimeExport h.obj
  | .primeOpen o file handle =>
    if o ∈ s.primes ∧ s.Unused file (.ok handle) then some (s.drmGemHandleCreate file o handle)
    else none
  | .primeRelease o => if o ∈ s.primes then some (s.drmGemDmabufRelease o) else none
  | .submit o =>
    if o < s.numObjs ∧ s.refs.freed o = false then
      some { s.get o with jobs := s.jobs ++ [o] }
    else none
  | .jobFree o => if o ∈ s.jobs then some { s.put o with jobs := s.jobs.erase o } else none

def gemSystem : System GemState GemLabel where
  init s := ∃ objs, s = ⟨objs, 0, .empty, [], [], [], []⟩
  step := gemStep

end RknpuDriver.Gem
