import RknpuDriver.Basic
import RknpuDriver.Lib.Refs
import RknpuDriver.Lib.System

/-! # Sessions of `/dev/rknpu` and their memory objects

The ioctls of `rknpu_mem.c` and the open and release of `rknpu_drv.c`, each one step. A dma-buf
is a number with a reference count, which is the count of its file: `dma_buf_export` makes one
reference and `dma_buf_fd` gives it to the fd, a duplicated fd has its own, `dma_buf_get` takes
one, an attachment takes none. What the kernel functions return is chosen by the label.
`rknpu_dma_buf_sync` touches no reference and is left out here.

`hist` records the calls of MEM_CREATE, MEM_DESTROY, release and close. A put is recorded with
whether the count exceeded the references of all others: the fds, and the imported objects on the
session lists.
-/

namespace RknpuDriver.Mem
open RknpuDriver.Lib
set_option autoImplicit false

/-- `struct rknpu_mem_object` at address `addr`, on the list of `session`; `kvAddr` says whether
`kv_addr` is set. -/
structure RknpuMemObject where
  addr : ℕ
  session : ℕ
  dmabuf : ℕ
  owner : Bool
  kvAddr : Bool
  size : ℕ
  dmaAddr : ℕ
  deriving DecidableEq, Repr

/-- An fd of a process that is a dma-buf. -/
structure FdEntry where
  proc : ℕ
  fd : ℕ
  dmabuf : ℕ
  deriving DecidableEq, Repr

inductive MemCall where
  | attach (d : ℕ)
  | detach (d : ℕ)
  | map (d : ℕ)
  | unmap (d : ℕ)
  | vmap (d : ℕ)
  | vunmap (d : ℕ)
  | put (d : ℕ) (held : Bool)
  | kfree (addr : ℕ)
  deriving DecidableEq, Repr

/-- `sessions` are the files whose `private_data` is a session, `objs` the objects on the lists
of all sessions, the older first. -/
structure MemState where
  refs : Refs ℕ
  numBufs : ℕ
  fds : List FdEntry
  sessions : List ℕ
  objs : List RknpuMemObject
  hist : List MemCall

/-- What the calls of one MEM_CREATE return: an error code of `0` stands for success. -/
structure CreateOutcome where
  copyIn : Bool
  kzalloc : Option ℕ
  getErr : ℤ
  allocErr : ℤ
  fd : Option ℕ
  attachErr : ℤ
  mapped : Except ℤ ℕ
  vmapErr : ℤ
  copyOut : Bool

/-- The dma-buf that MEM_CREATE goes on with. -/
structure NewBuf where
  fd : ℕ
  dmabuf : ℕ
  owner : Bool

namespace MemState
variable (s : MemState)

/-- The references of the fds, and of the imported objects on the session lists. -/
def owners : Multiset ℕ :=
  holders FdEntry.dmabuf s.fds +
    holders RknpuMemObject.dmabuf (s.objs.filter fun x => !x.owner)

def call (c : MemCall) : MemState := { s with hist := s.hist ++ [c] }

def dmaBufPut (d : ℕ) : MemState :=
  { s.call (.put d (s.owners.count d < s.refs.count d)) with refs := s.refs.put d }

def findFd (proc fd : ℕ) : Option FdEntry := s.fds.find? fun e => e.proc = proc ∧ e.fd = fd

/-- `rknpu_mem_find_by_obj_addr`, and the searches of MEM_DESTROY and MEM_SYNC. -/
def rknpuMemFindByObjAddr (file objAddr : ℕ) : Option RknpuMemObject :=
  s.objs.find? fun x => x.session = file ∧ x.addr = objAddr

/-! ## MEM_CREATE -/

/-- `err_free_dma_buf`: both branches of its test put the dma-buf. -/
def errFreeDmaBuf (d addr : ℕ) : MemState := (s.dmaBufPut d).call (.kfree addr)

def errDetachDmaBuf (d addr : ℕ) : MemState :=
  ((s.call (.unmap d)).call (.detach d)).errFreeDmaBuf d addr

def errUnmapKvAddr (d addr : ℕ) : MemState := (s.call (.vunmap d)).errDetachDmaBuf d addr

/-- `rknpu_dkms_alloc`, when it succeeds. -/
def rknpuDkmsAlloc : MemState :=
  { s with refs := s.refs.alloc s.numBufs, numBufs := s.numBufs + 1 }

def dmaBufFd (proc fd d : ℕ) : MemState := { s with fds := s.fds ++ [⟨proc, fd, d⟩] }

/-- The import of the user's fd, or the direct allocation. -/
def takeDmaBuf (proc addr : ℕ) (args : RknpuMemCreate) (o : CreateOutcome) :
    Except ℤ NewBuf × MemState :=
  if 0 < args.handle then
    match s.findFd proc args.handle with
    | none => (.error o.getErr, s.call (.kfree addr))
    | some e => (.ok ⟨args.handle, e.dmabuf, false⟩, { s with refs := s.refs.get e.dmabuf })
  else if o.allocErr ≠ 0 then (.error o.allocErr, s.call (.kfree addr))
  else
    match o.fd with
    | none => (.error (-efault), s.rknpuDkmsAlloc.errFreeDmaBuf s.numBufs addr)
    | some fd => (.ok ⟨fd, s.numBufs, true⟩, s.rknpuDkmsAlloc.dmaBufFd proc fd s.numBufs)

/-- `RKNPU_MEM_KERNEL_MAPPING` is bit 3. -/
def kernelMapping (args : RknpuMemCreate) : Bool := args.flags.testBit 3

/-- The call of `dma_buf_vmap`, when it is asked for and succeeds. -/
def vmapDmaBuf (args : RknpuMemCreate) (d : ℕ) : MemState :=
  if kernelMapping args then s.call (.vmap d) else s

/-- MEM_CREATE from `dma_buf_vmap` on. -/
def listMapped (file addr : ℕ) (args : RknpuMemCreate) (o : CreateOutcome) (b : NewBuf)
    (dmaAddr : ℕ) : ℤ × RknpuMemCreate × MemState :=
  if kernelMapping args = true ∧ o.vmapErr ≠ 0 then
    (o.vmapErr, args, s.errDetachDmaBuf b.dmabuf addr)
  else
    let size := pageAlign args.size
    let args' := { args with handle := b.fd, size := size, objAddr := addr, dmaAddr := dmaAddr }
    let t := s.vmapDmaBuf args b.dmabuf
    if o.copyOut = false ∨ file ∉ s.sessions then (-efault, args', t.errUnmapKvAddr b.dmabuf addr)
    else (0, args', { t with
      objs := s.objs ++ [⟨addr, file, b.dmabuf, b.owner, kernelMapping args, size, dmaAddr⟩] })

/-- MEM_CREATE from `dma_buf_attach` on. -/
def listDmaBuf (file addr : ℕ) (args : RknpuMemCreate) (o : CreateOutcome) (b : NewBuf) :
    ℤ × RknpuMemCreate × MemState :=
  if o.attachErr ≠ 0 then (o.attachErr, args, s.errFreeDmaBuf b.dmabuf addr)
  else
    match o.mapped with
    | .error e => (e, args,
        ((s.call (.attach b.dmabuf)).call (.detach b.dmabuf)).errFreeDmaBuf b.dmabuf addr)
    | .ok dmaAddr =>
      ((s.call (.attach b.dmabuf)).call (.map b.dmabuf)).listMapped file addr args o b dmaAddr

def rknpuMemCreateIoctl (proc file : ℕ) (args : RknpuMemCreate) (o : CreateOutcome) :
    ℤ × RknpuMemCreate × MemState :=
  if o.copyIn = false then (-efault, args, s)
  else
    match o.kzalloc with
    | none => (-enomem, args, s)
    | some addr =>
      match s.takeDmaBuf proc addr args o with
      | (.error e, t) => (e, args, t)
      | (.ok b, t) => t.listDmaBuf file addr args o b

/-! ## The other calls -/

/-- What MEM_DESTROY and the release do with an object they took off its list. -/
def teardown (x : RknpuMemObject) : MemState :=
  let s := if x.kvAddr then s.call (.vunmap x.dmabuf) else s
  let s := (s.call (.unmap x.dmabuf)).call (.detach x.dmabuf)
  let s := if x.owner then s else s.dmaBufPut x.dmabuf
  s.call (.kfree x.addr)

def rknpuMemDestroyIoctl (file : ℕ) (args : RknpuMemDestroy) (copyIn : Bool) : ℤ × MemState :=
  if copyIn = false ∨ file ∉ s.sessions then (-efault, s)
  else
    match s.rknpuMemFindByObjAddr file args.objAddr with
    | none => (-einval, s)
    | some x => (0, { s with objs := s.objs.erase x }.teardown x)

def rknpuMemSyncIoctl (file : ℕ) (args : RknpuMemSync) (copyIn : Bool) : ℤ :=
  if copyIn = false ∨ file ∉ s.sessions then -efault
  else
    match s.rknpuMemFindByObjAddr file args.objAddr with
    | none => -einval
    | some _ => 0

def rknpuOpen (file : ℕ) : MemState := { s with sessions := s.sessions ++ [file] }

/-- The objects leave the session list together, and are torn down one after the other. -/
def rknpuRelease (file : ℕ) : MemState :=
  (s.objs.filter fun x => x.session = file).foldl teardown { s with
    sessions := s.sessions.erase file
    objs := s.objs.filter fun x => !decide (x.session = file) }

/-- The close of an fd puts its reference of the file. -/
def closeFd (e : FdEntry) : MemState := { s with fds := s.fds.erase e }.dmaBufPut e.dmabuf

end MemState

/-! ## Runs -/

/-- `exportBuf` is the fd of a dma-buf of another exporter, `dup` an fd that is duplicated, also
into another process. -/
inductive MemLabel where
  | openFile (file : ℕ)
  | release (file : ℕ)
  | memCreate (proc file : ℕ) (args : RknpuMemCreate) (o : CreateOutcome)
  | memDestroy (file : ℕ) (args : RknpuMemDestroy) (copyIn : Bool)
  | memSync (file : ℕ) (args : RknpuMemSync) (copyIn : Bool)
  | closeFd (proc fd : ℕ)
  | exportBuf (proc fd : ℕ)
  | dup (proc fd proc' fd' : ℕ)

/-- `kzalloc` returns memory no listed object occupies, and `dma_buf_fd` an unused fd. -/
def MemState.Unused (s : MemState) (proc : ℕ) (o : CreateOutcome) : Prop :=
  (∀ addr ∈ o.kzalloc, addr ≠ 0 ∧ ∀ x ∈ s.objs, x.addr ≠ addr) ∧
    ∀ fd ∈ o.fd, s.findFd proc fd = none

instance (s : MemState) (proc : ℕ) (o : CreateOutcome) : Decidable (s.Unused proc o) := by
  unfold MemState.Unused
  infer_instance

def memStep (s : MemState) : MemLabel → Option MemState
  | .openFile file => if file ∈ s.sessions then none else some (s.rknpuOpen file)
  | .release file => if file ∈ s.sessions then some (s.rknpuRelease file) else none
  | .memCreate proc file args o =>
    if s.Unused proc o then some (s.rknpuMemCreateIoctl proc file args o).2.2 else none
  | .memDestroy file args copyIn => some (s.rknpuMemDestroyIoctl file args copyIn).2
  | .memSync _ _ _ => some s
  | .closeFd proc fd => (s.findFd proc fd).map s.closeFd
  | .exportBuf proc fd =>
    if s.findFd proc fd = none then some (s.rknpuDkmsAlloc.dmaBufFd proc fd s.numBufs) else none
  | .dup proc fd proc' fd' =>
    if s.findFd proc' fd' = none then
      (s.findFd proc fd).map fun e =>
        { s with refs := s.refs.get e.dmabuf }.dmaBufFd proc' fd' e.dmabuf
    else none

def memSystem : System MemState MemLabel where
  init s := s = ⟨.empty, 0, [], [], [], []⟩
  step := memStep

end RknpuDriver.Mem
