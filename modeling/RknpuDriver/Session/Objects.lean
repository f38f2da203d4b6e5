import RknpuDriver.Basic
import RknpuDriver.Lib.System
import RknpuDriver.Lib.Threads

/-! # The memory objects of one open file

MEM_CREATE, MEM_DESTROY, MEM_SYNC and the release of one file of `/dev/rknpu`, by any number of
threads. What runs under `rknpu_dev->lock` is one block; outside it, every call that reads an
object or a part of it is a block of its own. Objects are at addresses, which `kzalloc` gives
out again after a `kfree`; `id` tells the allocations apart.

What MEM_CREATE does before it takes the lock is one block with the outcome in the label: no
other call can reach the object yet, and after an error the call has undone it. The addresses
of MEM_DESTROY and MEM_SYNC are the user's. The release starts when every ioctl has returned,
and no ioctl starts after it.
-/

namespace RknpuDriver.Session
open RknpuDriver.Lib
set_option autoImplicit false

/-- `struct rknpu_mem_object`: `kvAddr` says whether `kv_addr` is set, `sgt` are the lengths of
the entries of the table. -/
structure RknpuMemObject where
  addr : ℕ
  id : ℕ
  kvAddr : Bool
  owner : Bool
  sgt : List ℕ
  deriving DecidableEq, Repr

/-- The calls that take an object apart, in their order. -/
inductive Stage where
  | vunmap
  | unmap
  | detach
  | put
  | kfree
  deriving DecidableEq, Repr

inductive MemEvent where
  | added (id : ℕ)
  | torn (stage : Stage) (id : ℕ)
  | used (id : ℕ)
  | returned (tid : ℕ) (ret : ℤ)
  deriving DecidableEq, Repr

/-- The blocks. `syncDir` and `syncSg` carry the `id` that the search found. -/
inductive MemOp where
  | create
  | listAdd (addr : ℕ)
  | destroy (objAddr : ℕ)
  | teardown (addr : ℕ) (stage : Stage)
  | sync (args : RknpuMemSync)
  | syncDir (addr id offset length : ℕ)
  | syncSg (id : ℕ) (sgl : List ℕ) (len offset length : ℕ)
  | release
  | ret (ret : ℤ)
  deriving DecidableEq, Repr

/-- `heap` are the objects that are allocated; `list` is `session->list`, and `none` when
`file->private_data` is null. -/
structure SessionState where
  heap : List RknpuMemObject
  numObjs : ℕ
  list : Option (List ℕ)
  hist : List MemEvent
  deriving DecidableEq, Repr

/-- The object of a MEM_CREATE that gets as far as its lock. -/
structure NewObject where
  addr : ℕ
  kvAddr : Bool
  owner : Bool
  sgt : List ℕ
  deriving DecidableEq, Repr

namespace SessionState
variable (s : SessionState)

/-- The object at an address. -/
def deref (addr : ℕ) : Option RknpuMemObject := s.heap.find? fun x => x.addr = addr

def event (e : MemEvent) : SessionState := { s with hist := s.hist ++ [e] }

def kzalloc (new : NewObject) : SessionState :=
  { s with
    heap := s.heap ++ [⟨new.addr, s.numObjs, new.kvAddr, new.owner, new.sgt⟩]
    numObjs := s.numObjs + 1 }

def kfree (addr : ℕ) : SessionState := { s with heap := s.heap.filter fun x => x.addr ≠ addr }

/-- `rknpu_obj->kv_addr = NULL`. -/
def clearKvAddr (addr : ℕ) : SessionState :=
  { s with heap := s.heap.map fun x => if x.addr = addr then { x with kvAddr := false } else x }

/-- MEM_CREATE from `err_unmap_kv_addr` on. -/
def errUnmapKvAddr (addr : ℕ) : SessionState :=
  match s.deref addr with
  | none => s
  | some x =>
    { s.kfree addr with
      hist := s.hist ++ [.torn .vunmap x.id, .torn .unmap x.id, .torn .detach x.id,
        .torn .put x.id, .torn .kfree x.id] }

/-- The locked part of MEM_CREATE. -/
def listAdd (addr : ℕ) : SessionState × List MemOp :=
  match s.list with
  | none => (s.errUnmapKvAddr addr, [.ret (-efault)])
  | some list =>
    let s := { s with list := some (list ++ [addr]) }
    match s.deref addr with
    | none => (s, [.ret 0])
    | some x => (s.event (.added x.id), [.ret 0])

/-- The locked part of MEM_DESTROY. -/
def destroy (objAddr : ℕ) : SessionState × List MemOp :=
  match s.list with
  | none => (s, [.ret (-efault)])
  | some list =>
    if objAddr ∈ list then
      ({ s with list := some (list.erase objAddr) }, [.teardown objAddr .vunmap, .ret 0])
    else (s, [.ret (-einval)])

/-- One call of MEM_DESTROY or of the release on an object that is off its list. -/
def teardown (addr : ℕ) (stage : Stage) : SessionState × List MemOp :=
  match s.deref addr with
  | none => (s, [])
  | some x =>
    match stage with
    | .vunmap =>
      (if x.kvAddr then (s.clearKvAddr addr).event (.torn .vunmap x.id) else s,
        [.teardown addr .unmap])
    | .unmap => (s.event (.torn .unmap x.id), [.teardown addr .detach])
    | .detach => (s.event (.torn .detach x.id), [.teardown addr .put])
    | .put => (if x.owner then s else s.event (.torn .put x.id), [.teardown addr .kfree])
    | .kfree => ((s.kfree addr).event (.torn .kfree x.id), [])

/-- The search of MEM_SYNC, under the lock. -/
def sync (args : RknpuMemSync) : SessionState × List MemOp :=
  match s.list with
  | none => (s, [.ret (-efault)])
  | some list =>
    if args.objAddr ∈ list then
      let id := ((s.deref args.objAddr).map RknpuMemObject.id).getD 0
      let dir := .syncDir args.objAddr id (u32 args.offset) (u32 args.size)
      (s, (if args.flags.testBit 0 then [dir] else []) ++
        (if args.flags.testBit 1 then [dir] else []) ++ [.ret 0])
    else (s, [.ret (-einval)])

/-- `rknpu_dma_buf_sync` up to its loop: reads `rknpu_obj->sgt`. -/
def syncDir (addr id offset length : ℕ) : SessionState × List MemOp :=
  let sgl := ((s.deref addr).map RknpuMemObject.sgt).getD []
  (s.event (.used id), [.syncSg id sgl 0 offset length])

/-- The body of its loop, for the first entry of `sgl`. -/
def syncSg (id : ℕ) (sgl : List ℕ) (len offset length : ℕ) : SessionState × List MemOp :=
  match sgl with
  | [] => (s, [])
  | sgLength :: sgl =>
    let len := u32 (len + sgLength)
    if len ≤ offset then (s.event (.used id), [.syncSg id sgl len offset length])
    else
      let sgLeft := u32Sub len offset
      let size := if length < sgLeft then length else sgLeft
      let offset := u32 (offset + size)
      let length := u32Sub length size
      (s.event (.used id), if length = 0 then [] else [.syncSg id sgl len offset length])

/-- The release: the whole list moves to `local_list`. -/
def release : SessionState × List MemOp :=
  match s.list with
  | none => (s, [.ret 0])
  | some list =>
    ({ s with list := none }, list.map (fun addr => .teardown addr .vunmap) ++ [.ret 0])

/-- One block of thread `tid`, and the blocks it calls for. -/
def exec (tid : ℕ) (o : Except ℤ NewObject) : MemOp → SessionState × List MemOp
  | .create =>
    match o with
    | .error e => (s, [.ret e])
    | .ok new => (s.kzalloc new, [.listAdd new.addr])
  | .listAdd addr => s.listAdd addr
  | .destroy objAddr => s.destroy objAddr
  | .teardown addr stage => s.teardown addr stage
  | .sync args => s.sync args
  | .syncDir addr id offset length => s.syncDir addr id offset length
  | .syncSg id sgl len offset length => s.syncSg id sgl len offset length
  | .release => s.release
  | .ret ret => (s.event (.returned tid ret), [])

end SessionState

/-! ## Runs -/

/-- `isOpen`: the release has not started. -/
structure FileState where
  session : SessionState
  threads : List (List MemOp)
  isOpen : Bool
  deriving DecidableEq, Repr

/-- A thread calls an ioctl, `copyIn` says whether its arguments could be copied; the last
reference of the file is put; or thread `tid` runs its next block. -/
inductive FileLabel where
  | memCreate
  | memDestroy (args : RknpuMemDestroy) (copyIn : Bool)
  | memSync (args : RknpuMemSync) (copyIn : Bool)
  | release
  | exec (tid : ℕ) (o : Except ℤ NewObject)

def FileState.call (s : FileState) (op : MemOp) : FileState :=
  { s with threads := s.threads ++ [[op]] }

/-- `kzalloc` returns memory that is not in use. -/
def SessionState.Unused (s : SessionState) (o : Except ℤ NewObject) : Prop :=
  match o with
  | .error _ => True
  | .ok new => ∀ x ∈ s.heap, x.addr ≠ new.addr

instance (s : SessionState) (o : Except ℤ NewObject) : Decidable (s.Unused o) := by
  unfold SessionState.Unused
  split <;> infer_instance

def fileStep (s : FileState) : FileLabel → Option FileState
  | .memCreate => if s.isOpen then some (s.call .create) else none
  | .memDestroy args copyIn =>
    if s.isOpen then
      some (s.call (if copyIn then .destroy args.objAddr else .ret (-efault)))
    else none
  | .memSync args copyIn =>
    if s.isOpen then some (s.call (if copyIn then .sync args else .ret (-efault))) else none
  | .release =>
    if s.isOpen ∧ s.threads.all List.isEmpty then some ({ s with isOpen := false }.call .release)
    else none
  | .exec tid o =>
    match nextBlock s.threads tid with
    | none => none
    | some (op, rest) =>
      if s.session.Unused o then
        let (session, ops) := s.session.exec tid o op
        some { s with session := session, threads := advance s.threads tid ops rest }
      else none

/-- All histories of a file that was just opened. -/
def fileSystem : System FileState FileLabel where
  init s := s = ⟨⟨[], 0, some [], []⟩, [], true⟩
  step := fileStep

/-- The release and every ioctl have returned. -/
def FileState.Finished (s : FileState) : Prop := s.isOpen = false ∧ s.threads.all List.isEmpty

end RknpuDriver.Session
