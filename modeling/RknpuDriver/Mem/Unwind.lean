import RknpuDriver.Mem.DmaBufs

/-! # Unwinding a MEM_CREATE that fails

A MEM_CREATE takes a dma-buf, attaches to it, maps the attachment, and maps the buffer for the
kernel when it is asked to. What it undoes on an error is decided by the label it jumps to. There
is one label for the errors after the mappings, and it unmaps the buffer for the kernel whether
that was mapped or not. A directly allocated buffer has one reference, which `dma_buf_fd` gives to
the fd; the labels put it all the same.

* `Unwound`: what was taken is given back, and the counts move with the references of others.
* `Known`: a buffer that does not exist yet has no reference.
* `VunmapsUnmapped`, and `LateFailure` of the direct objects: the two ways to fail otherwise.
* `rknpu_dkms_alloc`: a failing one frees what it took.
-/

namespace RknpuDriver.Mem
open RknpuDriver.Lib
set_option autoImplicit false

/-! ## The memory of a direct object -/

/-- The calls that take and free the memory of a direct object: a `struct rknpu_dkms_buf`, and
coherent memory at `vaddr`. -/
inductive DkmsCall where
  | kzalloc (buf : ℕ)
  | kfree (buf : ℕ)
  | dmaAllocCoherent (size vaddr : ℕ)
  | dmaFreeCoherent (size vaddr : ℕ)
  deriving DecidableEq, Repr

/-- What the calls of one `rknpu_dkms_alloc` return; an error of `0` stands for success. -/
structure DkmsOutcome where
  kzalloc : Option ℕ
  vaddr : Option ℕ
  exportErr : ℤ

/-- `rknpu_dkms_alloc`: the error, if any, and the calls. -/
def rknpuDkmsAllocCalls (size : ℕ) (o : DkmsOutcome) : ℤ × List DkmsCall :=
  match o.kzalloc with
  | none => (-enomem, [])
  | some buf =>
    match o.vaddr with
    | none => (-enomem, [.kzalloc buf, .kfree buf])
    | some vaddr =>
      if o.exportErr ≠ 0 then
        (o.exportErr, [.kzalloc buf, .dmaAllocCoherent (pageAlign size) vaddr,
          .dmaFreeCoherent (pageAlign size) vaddr, .kfree buf])
      else (0, [.kzalloc buf, .dmaAllocCoherent (pageAlign size) vaddr])

/-- Everything that was taken is freed, as often as it was taken. -/
structure FreesAll (calls : List DkmsCall) : Prop where
  bufs : ∀ buf, calls.count (.kfree buf) = calls.count (.kzalloc buf)
  memory : ∀ size vaddr, calls.count (.dmaFreeCoherent size vaddr) =
    calls.count (.dmaAllocCoherent size vaddr)

theorem rknpuDkmsAllocCalls_error {size : ℕ} {o : DkmsOutcome}
    (herr : (rknpuDkmsAllocCalls size o).1 ≠ 0) :
    FreesAll (rknpuDkmsAllocCalls size o).2 := by
  unfold rknpuDkmsAllocCalls at herr ⊢
  cases hbuf : o.kzalloc with
  | none => exact ⟨fun _ => rfl, fun _ _ => rfl⟩
  | some buf =>
    cases hvaddr : o.vaddr with
    | none => exact ⟨fun _ => by simp [List.count_cons], fun _ _ => rfl⟩
    | some vaddr =>
      simp only [hbuf, hvaddr] at herr ⊢
      split_ifs at herr ⊢ with hexport
      · exact ⟨fun _ => by simp [List.count_cons], fun _ _ => by simp [List.count_cons]⟩
      · exact absurd rfl herr

/-! ## What a call undoes -/

/-- The calls between two states. -/
def MemState.callsSince (s t : MemState) : List MemCall := t.hist.drop s.hist.length

structure Undone (calls : List MemCall) : Prop where
  detached : ∀ d, calls.count (.detach d) = calls.count (.attach d)
  unmapped : ∀ d, calls.count (.unmap d) = calls.count (.map d)
  vunmapped : ∀ d, calls.count (.vunmap d) = calls.count (.vmap d)

/-- After an error of MEM_CREATE in `s`, in the state `t`: the object that `kzalloc` gave is
freed, and the count of every dma-buf changes as the references of others do. -/
structure Unwound (s t : MemState) (kzalloc : Option ℕ) : Prop where
  undone : Undone (s.callsSince t)
  freed : ∀ addr, (s.callsSince t).count (.kfree addr) = kzalloc.toList.count addr
  unlisted : t.objs = s.objs
  counts : ∀ d, t.refs.count d + s.owners.count d = s.refs.count d + t.owners.count d

/-- The object of MEM_CREATE, once there is one. -/
def CreateOutcome.object (o : CreateOutcome) : Option ℕ := if o.copyIn then o.kzalloc else none

namespace MemState
variable (s : MemState)

/-- Whether MEM_CREATE gets a dma-buf: that of the user's fd, or a new one with an fd. -/
def TakesDmaBuf (proc : ℕ) (args : RknpuMemCreate) (o : CreateOutcome) : Prop :=
  if 0 < args.handle then (s.findFd proc args.handle).isSome = true
  else o.allocErr = 0 ∧ o.fd.isSome = true

/-- The arguments cannot be copied back or the session is gone, and the buffer was not to be
mapped for the kernel. -/
def EndsUnmapped (file : ℕ) (args : RknpuMemCreate) (o : CreateOutcome) : Prop :=
  o.attachErr = 0 ∧ o.mapped.isOk = true ∧ kernelMapping args = false ∧
    (o.copyOut = false ∨ file ∉ s.sessions)

/-- A MEM_CREATE that calls `dma_buf_vunmap` for a buffer that it did not map. -/
def VunmapsUnmapped (proc file : ℕ) (args : RknpuMemCreate) (o : CreateOutcome) : Prop :=
  o.object.isSome = true ∧ s.TakesDmaBuf proc args o ∧ s.EndsUnmapped file args o

end MemState

variable {s t u : MemState} {d addr : ℕ} {calls : List MemCall}

theorem callsSince_of_append (h : t.hist = s.hist ++ calls) : s.callsSince t = calls := by
  unfold MemState.callsSince
  rw [h, List.drop_left]

theorem undone_append_iff {held : Bool} :
    Undone (calls ++ [.put d held, .kfree addr]) ↔ Undone calls := by
  constructor
  · rintro ⟨hdetach, hunmap, hvunmap⟩
    simp only [List.count_append, List.count_cons, List.count_nil] at hdetach hunmap hvunmap
    exact ⟨by simpa using hdetach, by simpa using hunmap, by simpa using hvunmap⟩
  · rintro ⟨hdetach, hunmap, hvunmap⟩
    exact ⟨fun d' => by simpa [List.count_append, List.count_cons] using hdetach d',
      fun d' => by simpa [List.count_append, List.count_cons] using hunmap d',
      fun d' => by simpa [List.count_append, List.count_cons] using hvunmap d'⟩

/-! ## The error paths -/

/-- What an error path with a dma-buf leaves behind: the dma-buf is put and the object freed after
`calls`. -/
structure PutBack (u t : MemState) (d addr : ℕ) (calls : List MemCall) : Prop where
  hist : ∃ held, t.hist = u.hist ++ (calls ++ [.put d held, .kfree addr])
  refs : t.refs = u.refs.put d
  owners : t.owners = u.owners
  objs : t.objs = u.objs

theorem errFreeDmaBuf_putBack (u : MemState) (calls : List MemCall) (d addr : ℕ)
    (h : t.hist = u.hist ++ calls) (hrefs : t.refs = u.refs) (howners : t.owners = u.owners)
    (hobjs : t.objs = u.objs) : PutBack u (t.errFreeDmaBuf d addr) d addr calls := by
  refine ⟨⟨decide (t.owners.count d < t.refs.count d), ?_⟩, ?_, howners, hobjs⟩
  · show (t.hist ++ [_]) ++ [_] = _
    rw [h, List.append_assoc, List.append_assoc]
    rfl
  · show t.refs.put d = _
    rw [hrefs]

/-- The calls that MEM_CREATE makes until it copies its arguments back, and then on an error. -/
def endCalls (args : RknpuMemCreate) (d : ℕ) : List MemCall :=
  [.attach d, .map d] ++ (if MemState.kernelMapping args then [.vmap d] else []) ++
    [.vunmap d, .unmap d, .detach d]

theorem undone_endCalls (args : RknpuMemCreate) (d : ℕ) :
    Undone (endCalls args d) ↔ MemState.kernelMapping args = true := by
  unfold endCalls
  by_cases hkernel : MemState.kernelMapping args = true
  · rw [if_pos hkernel]
    exact ⟨fun _ => hkernel, fun _ => ⟨fun _ => by simp [List.count_cons],
      fun _ => by simp [List.count_cons], fun _ => by simp [List.count_cons]⟩⟩
  · rw [if_neg hkernel]
    refine ⟨fun h => ?_, fun h => absurd h hkernel⟩
    have := h.vunmapped d
    simp at this

theorem endCalls_hist (u : MemState) (args : RknpuMemCreate) (d : ℕ) :
    ((((((u.call (.attach d)).call (.map d)).vmapDmaBuf args d).call (.vunmap d)).call
      (.unmap d)).call (.detach d)).hist = u.hist ++ endCalls args d := by
  unfold endCalls MemState.vmapDmaBuf
  split_ifs <;> simp [MemState.call]

theorem vmapDmaBuf_refs (u : MemState) (args : RknpuMemCreate) (d : ℕ) :
    (u.vmapDmaBuf args d).refs = u.refs := by
  unfold MemState.vmapDmaBuf
  split_ifs <;> rfl

/-- **The error paths with a dma-buf**: each undoes what was done, but for the one that unmaps what
was not mapped. -/
theorem listDmaBuf_error {file : ℕ} {args : RknpuMemCreate} {o : CreateOutcome} {b : NewBuf}
    (addr : ℕ) (herr : (u.listDmaBuf file addr args o b).1 ≠ 0) :
    u.ListFails file args o ∧
    ∃ calls, PutBack u (u.listDmaBuf file addr args o b).2.2 b.dmabuf addr calls ∧
      (∀ a, calls.count (.kfree a) = 0) ∧ (Undone calls ↔ ¬ u.EndsUnmapped file args o) := by
  unfold MemState.listDmaBuf at herr ⊢
  unfold MemState.EndsUnmapped MemState.ListFails
  split_ifs at herr ⊢ with hattach
  · refine ⟨Or.inl hattach, [], errFreeDmaBuf_putBack u [] _ _ ?_ rfl rfl rfl, fun _ => rfl, ?_⟩
    · rw [List.append_nil]
    · exact ⟨fun _ h => hattach h.1, fun _ => ⟨fun _ => rfl, fun _ => rfl, fun _ => rfl⟩⟩
  · cases hmapped : o.mapped with
    | error e =>
      refine ⟨Or.inr (Or.inl rfl), [.attach b.dmabuf, .detach b.dmabuf],
        errFreeDmaBuf_putBack u _ _ _ ?_ rfl rfl rfl, fun _ => by simp, ?_⟩
      · exact List.append_assoc ..
      · exact ⟨fun _ h => Bool.false_ne_true h.2.1,
          fun _ => ⟨fun _ => by simp [List.count_cons], fun _ => by simp, fun _ => by simp⟩⟩
    | ok dmaAddr =>
      simp only [hmapped] at herr
      unfold MemState.listMapped at herr ⊢
      simp only at herr ⊢
      split_ifs at herr ⊢ with hvmap hend
      · refine ⟨Or.inr (Or.inr (Or.inl hvmap)),
          [.attach b.dmabuf, .map b.dmabuf, .unmap b.dmabuf, .detach b.dmabuf],
          errFreeDmaBuf_putBack u _ _ _ ?_ rfl rfl rfl, fun _ => by simp, ?_⟩
        · simp [MemState.call]
        · refine ⟨fun _ h => ?_, fun _ => ⟨fun _ => by simp [List.count_cons],
            fun _ => by simp [List.count_cons], fun _ => by simp⟩⟩
          rw [hvmap.1] at h
          exact Bool.noConfusion h.2.2.1
      · obtain ⟨howners, hobjs⟩ := vmapDmaBuf_frame
          ((u.call (.attach b.dmabuf)).call (.map b.dmabuf)) args b.dmabuf
        refine ⟨Or.inr (Or.inr (Or.inr hend)), endCalls args b.dmabuf,
          errFreeDmaBuf_putBack u _ _ _ (endCalls_hist u args _) (vmapDmaBuf_refs _ _ _) howners
            hobjs, fun _ => ?_, ?_⟩
        · unfold endCalls
          split_ifs <;> simp
        · rw [undone_endCalls, ← Bool.not_eq_false, not_iff_not]
          exact ⟨fun h => ⟨not_not.mp hattach, rfl, h, hend⟩, fun h => h.2.2.1⟩
      · exact absurd rfl herr

/-! ## The dma-buf of a MEM_CREATE -/

/-- How MEM_CREATE comes by a dma-buf, or by none. -/
inductive Took (s : MemState) (proc addr : ℕ) (args : RknpuMemCreate) (o : CreateOutcome) :
    Except ℤ NewBuf × MemState → Prop where
  | nothing (e : ℤ) (he : e = o.getErr ∨ e ≠ 0) (h : ¬ s.TakesDmaBuf proc args o) :
      Took s proc addr args o (.error e, s.call (.kfree addr))
  | noFd (h : ¬ s.TakesDmaBuf proc args o) :
      Took s proc addr args o (.error (-efault), s.rknpuDkmsAlloc.errFreeDmaBuf s.numBufs addr)
  | imported (e : FdEntry) (hhandle : 0 < args.handle)
      (hfind : s.findFd proc args.handle = some e) :
      Took s proc addr args o
        (.ok ⟨args.handle, e.dmabuf, false⟩, { s with refs := s.refs.get e.dmabuf })
  | direct (fd : ℕ) (hhandle : args.handle = 0) (halloc : o.allocErr = 0) (hfd : o.fd = some fd) :
      Took s proc addr args o
        (.ok ⟨fd, s.numBufs, true⟩, s.rknpuDkmsAlloc.dmaBufFd proc fd s.numBufs)

theorem takeDmaBuf_took (s : MemState) (proc addr : ℕ) (args : RknpuMemCreate)
    (o : CreateOutcome) : Took s proc addr args o (s.takeDmaBuf proc addr args o) := by
  unfold MemState.takeDmaBuf
  split_ifs with hhandle halloc
  · cases hfind : s.findFd proc args.handle with
    | none =>
      refine .nothing o.getErr (Or.inl rfl) ?_
      unfold MemState.TakesDmaBuf
      rw [if_pos hhandle, hfind]
      exact Bool.false_ne_true
    | some e => exact .imported e hhandle hfind
  · refine .nothing o.allocErr (Or.inr halloc) ?_
    unfold MemState.TakesDmaBuf
    rw [if_neg hhandle]
    exact fun h => halloc h.1
  · cases hfd : o.fd with
    | none =>
      refine .noFd ?_
      unfold MemState.TakesDmaBuf
      rw [if_neg hhandle, hfd]
      exact fun h => Bool.false_ne_true h.2
    | some fd => exact .direct fd (Nat.eq_zero_of_not_pos hhandle) (not_not.mp halloc) hfd

/-! ## Buffers that do not exist yet -/

/-- Only the buffers made so far have references. -/
structure Known (s : MemState) : Prop where
  owned : ∀ d ∈ s.owners, d < s.numBufs
  unborn : ∀ d, s.numBufs ≤ d → s.refs.count d = 0

namespace Known

theorem mono (hs : Known s) (hnum : t.numBufs = s.numBufs) (howners : ∀ d ∈ t.owners, d ∈ s.owners)
    (hrefs : ∀ d, s.refs.count d = 0 → t.refs.count d = 0) : Known t := by
  refine ⟨fun d hd => ?_, fun d hd => ?_⟩
  · rw [hnum]
    exact hs.owned d (howners d hd)
  · rw [hnum] at hd
    exact hrefs d (hs.unborn d hd)

theorem call (hs : Known s) (c : MemCall) : Known (s.call c) :=
  hs.mono rfl (fun _ => id) fun _ => id

theorem put (hs : Known s) (d : ℕ) : Known (s.dmaBufPut d) := by
  refine hs.mono rfl (fun _ => id) fun x hx => ?_
  simp [MemState.dmaBufPut, Refs.put, hx]

theorem errFreeDmaBuf (hs : Known s) : Known (s.errFreeDmaBuf d addr) := (hs.put d).call _

theorem errDetachDmaBuf (hs : Known s) : Known (s.errDetachDmaBuf d addr) :=
  ((hs.call _).call _).errFreeDmaBuf

theorem errUnmapKvAddr (hs : Known s) : Known (s.errUnmapKvAddr d addr) :=
  (hs.call _).errDetachDmaBuf

theorem rknpuDkmsAlloc (hs : Known s) : Known s.rknpuDkmsAlloc := by
  refine ⟨fun d hd => Nat.lt_succ_of_lt (hs.owned d hd), fun d hd => ?_⟩
  have hlt : s.numBufs < d := hd
  have hcount := hs.unborn d (Nat.le_of_lt hlt)
  simp [MemState.rknpuDkmsAlloc, Refs.alloc, Nat.ne_of_gt hlt, hcount]

theorem dmaBufFd (hs : Known s) (hd : d < s.numBufs) (proc fd : ℕ) :
    Known (s.dmaBufFd proc fd d) := by
  refine ⟨fun x hx => ?_, hs.unborn⟩
  rw [MemState.owners, MemState.dmaBufFd, holders_snoc, Multiset.cons_add] at hx
  obtain rfl | hx := Multiset.mem_cons.mp hx
  · exact hd
  · exact hs.owned x hx

theorem get (hs : Known s) (hd : d < s.numBufs) : Known { s with refs := s.refs.get d } := by
  refine ⟨hs.owned, fun x hx => ?_⟩
  have hne : x ≠ d := fun h => by
    rw [h] at hx
    exact absurd hd (Nat.not_lt_of_le hx)
  have hcount := hs.unborn x hx
  simp [Refs.get, hne, hcount]

theorem of_fd (hs : Known s) {proc fd : ℕ} {e : FdEntry} (hfind : s.findFd proc fd = some e) :
    e.dmabuf < s.numBufs :=
  hs.owned _ (Multiset.mem_add.mpr (Or.inl ((mem_holders _).mpr
    ⟨e, List.mem_of_find?_eq_some hfind, rfl⟩)))

theorem list (hs : Known s) {x : RknpuMemObject} (hx : x.dmabuf < s.numBufs) :
    Known { s with objs := s.objs ++ [x] } := by
  refine ⟨fun d hd => ?_, hs.unborn⟩
  obtain hd | hd := Multiset.mem_add.mp hd
  · exact hs.owned d (Multiset.mem_add.mpr (Or.inl hd))
  · obtain ⟨y, hy, rfl⟩ := (mem_holders _).mp hd
    obtain ⟨hmem, hown⟩ := List.mem_filter.mp hy
    obtain hmem | hmem := List.mem_append.mp hmem
    · exact hs.owned _ (Multiset.mem_add.mpr (Or.inr ((mem_holders _).mpr
        ⟨y, List.mem_filter.mpr ⟨hmem, hown⟩, rfl⟩)))
    · rw [List.mem_singleton.mp hmem]
      exact hx

/-- Objects that leave their lists take no references along but their own. -/
theorem unlist (hs : Known s) {objs : List RknpuMemObject} (hsub : ∀ x ∈ objs, x ∈ s.objs)
    (sessions : List ℕ) : Known { s with sessions := sessions, objs := objs } := by
  refine hs.mono rfl (fun d hd => ?_) fun _ => id
  obtain hd | hd := Multiset.mem_add.mp hd
  · exact Multiset.mem_add.mpr (Or.inl hd)
  · obtain ⟨y, hy, rfl⟩ := (mem_holders _).mp hd
    obtain ⟨hmem, hown⟩ := List.mem_filter.mp hy
    exact Multiset.mem_add.mpr (Or.inr ((mem_holders _).mpr
      ⟨y, List.mem_filter.mpr ⟨hsub y hmem, hown⟩, rfl⟩))

theorem teardown (hs : Known s) (x : RknpuMemObject) : Known (s.teardown x) := by
  unfold MemState.teardown
  refine call ?_ _
  have hkv : Known (if x.kvAddr then s.call (.vunmap x.dmabuf) else s) := by
    split
    · exact hs.call _
    · exact hs
  have hdetach := (hkv.call (.unmap x.dmabuf)).call (.detach x.dmabuf)
  cases x.owner with
  | true => exact hdetach
  | false => exact hdetach.put x.dmabuf

theorem listDmaBuf (hs : Known s) {file : ℕ} {args : RknpuMemCreate} {o : CreateOutcome}
    {b : NewBuf} (hb : b.dmabuf < s.numBufs) : Known (s.listDmaBuf file addr args o b).2.2 := by
  unfold MemState.listDmaBuf
  split_ifs
  · exact hs.errFreeDmaBuf
  · cases o.mapped with
    | error e => exact ((hs.call _).call _).errFreeDmaBuf
    | ok dmaAddr =>
      have hmap := (hs.call (.attach b.dmabuf)).call (.map b.dmabuf)
      have hvmap : Known (((s.call (.attach b.dmabuf)).call (.map b.dmabuf)).vmapDmaBuf args
          b.dmabuf) ∧ (((s.call (.attach b.dmabuf)).call (.map b.dmabuf)).vmapDmaBuf args
          b.dmabuf).numBufs = s.numBufs ∧ (((s.call (.attach b.dmabuf)).call
          (.map b.dmabuf)).vmapDmaBuf args b.dmabuf).objs = s.objs := by
        unfold MemState.vmapDmaBuf
        split
        · exact ⟨hmap.call _, rfl, rfl⟩
        · exact ⟨hmap, rfl, rfl⟩
      obtain ⟨hvmap, hnum, hobjs⟩ := hvmap
      unfold MemState.listMapped
      simp only
      split_ifs
      · exact hmap.errDetachDmaBuf
      · exact hvmap.errUnmapKvAddr
      · rw [← hnum] at hb
        have := hvmap.list (x := ⟨addr, file, b.dmabuf, b.owner, MemState.kernelMapping args,
          pageAlign args.size, dmaAddr⟩) hb
        rw [hobjs] at this
        exact this

theorem memCreate (hs : Known s) (proc file : ℕ) (args : RknpuMemCreate) (o : CreateOutcome) :
    Known (s.rknpuMemCreateIoctl proc file args o).2.2 := by
  unfold MemState.rknpuMemCreateIoctl
  split_ifs
  · exact hs
  cases o.kzalloc with
  | none => exact hs
  | some addr =>
    have htook := takeDmaBuf_took s proc addr args o
    simp only
    generalize s.takeDmaBuf proc addr args o = r at htook ⊢
    cases htook with
    | nothing => exact hs.call _
    | noFd => exact hs.rknpuDkmsAlloc.errFreeDmaBuf
    | imported e _ hfind => exact (hs.get (hs.of_fd hfind)).listDmaBuf (hs.of_fd hfind)
    | direct fd =>
      have hnew : s.numBufs < s.rknpuDkmsAlloc.numBufs := Nat.lt_succ_self _
      exact (hs.rknpuDkmsAlloc.dmaBufFd hnew proc fd).listDmaBuf hnew

theorem step (hs : Known s) {label : MemLabel} (hstep : memStep s label = some t) : Known t := by
  cases label with
  | openFile file =>
    obtain ⟨-, ht⟩ := Option.ite_none_left_eq_some.mp hstep
    cases ht
    exact hs.mono rfl (fun _ => id) fun _ => id
  | release file =>
    obtain ⟨-, ht⟩ := Option.ite_none_right_eq_some.mp hstep
    cases ht
    have hall : ∀ (xs : List RknpuMemObject) (s : MemState), Known s →
        Known (xs.foldl MemState.teardown s) := by
      intro xs
      induction xs with
      | nil => exact fun s hs => hs
      | cons x xs ih => exact fun s hs => ih _ (hs.teardown x)
    exact hall _ _ (hs.unlist (fun x hx => List.mem_of_mem_filter hx) _)
  | memCreate proc file args o =>
    obtain ⟨-, ht⟩ := Option.ite_none_right_eq_some.mp hstep
    cases ht
    exact hs.memCreate proc file args o
  | memDestroy file args copyIn =>
    cases hstep
    unfold MemState.rknpuMemDestroyIoctl
    split_ifs
    · exact hs
    · cases s.rknpuMemFindByObjAddr file args.objAddr with
      | none => exact hs
      | some x => exact (hs.unlist (fun y hy => List.mem_of_mem_erase hy) s.sessions).teardown x
  | memSync file args copyIn =>
    cases hstep
    exact hs
  | closeFd proc fd =>
    obtain ⟨e, -, ht⟩ := Option.map_eq_some_iff.mp hstep
    cases ht
    have hclosed : Known { s with fds := s.fds.erase e } := by
      refine hs.mono rfl (fun d hd => ?_) fun _ => id
      obtain hd | hd := Multiset.mem_add.mp hd
      · obtain ⟨y, hy, rfl⟩ := (mem_holders _).mp hd
        exact Multiset.mem_add.mpr (Or.inl ((mem_holders _).mpr
          ⟨y, List.mem_of_mem_erase hy, rfl⟩))
      · exact Multiset.mem_add.mpr (Or.inr hd)
    exact hclosed.put e.dmabuf
  | exportBuf proc fd =>
    obtain ⟨-, ht⟩ := Option.ite_none_right_eq_some.mp hstep
    cases ht
    exact hs.rknpuDkmsAlloc.dmaBufFd (Nat.lt_succ_self _) proc fd
  | dup proc fd proc' fd' =>
    obtain ⟨-, ht⟩ := Option.ite_none_right_eq_some.mp hstep
    obtain ⟨e, hfind, ht⟩ := Option.map_eq_some_iff.mp ht
    cases ht
    exact (hs.get (hs.of_fd hfind)).dmaBufFd (hs.of_fd hfind) proc' fd'

end Known

theorem known_of_reachable (hs : memSystem.Reachable s) : Known s := by
  refine hs.invariant Known ?_ fun _ _ _ hs hstep => hs.step hstep
  rintro s rfl
  exact ⟨fun d hd => absurd hd (Multiset.notMem_zero d), fun _ _ => rfl⟩

/-! ## Errors of MEM_CREATE -/

variable {proc file : ℕ} {args : RknpuMemCreate} {o : CreateOutcome}

/-- An error path with a dma-buf, seen from before the dma-buf was taken. -/
theorem PutBack.unwound_iff (hput : PutBack u t d addr calls) (hhist : u.hist = s.hist)
    (hobjs : u.objs = s.objs) (hfree : ∀ a, calls.count (.kfree a) = 0) :
    Unwound s t (some addr) ↔ Undone calls ∧
      ∀ x, (u.refs.put d).count x + s.owners.count x = s.refs.count x + u.owners.count x := by
  obtain ⟨held, hcalls⟩ := hput.hist
  rw [hhist] at hcalls
  have hsince := callsSince_of_append hcalls
  constructor
  · rintro ⟨hundone, -, -, hcounts⟩
    rw [hsince, undone_append_iff] at hundone
    rw [hput.refs, hput.owners] at hcounts
    exact ⟨hundone, hcounts⟩
  · rintro ⟨hundone, hcounts⟩
    refine ⟨?_, fun a => ?_, hput.objs.trans hobjs, ?_⟩
    · rwa [hsince, undone_append_iff]
    · rw [hsince, List.count_append, hfree]
      simp [List.count_cons]
    · rw [hput.refs, hput.owners]
      exact hcounts

theorem alloc_put_count {r : Refs ℕ} (hnone : r.count d = 0) (x : ℕ) :
    ((r.alloc d).put d).count x = r.count x := by
  by_cases hx : x = d
  · rw [hx, hnone]
    simp [Refs.alloc, Refs.put]
  · simp [Refs.alloc, Refs.put, hx]

theorem get_put_count (r : Refs ℕ) (d x : ℕ) : ((r.get d).put d).count x = r.count x := by
  by_cases hx : x = d
  · simp [Refs.get, Refs.put, hx]
  · simp [Refs.get, Refs.put, hx]

theorem unwound_kfree (s : MemState) (addr : ℕ) :
    Unwound s (s.call (.kfree addr)) (some addr) := by
  have hsince : s.callsSince (s.call (.kfree addr)) = [.kfree addr] := callsSince_of_append rfl
  refine ⟨?_, fun a => ?_, rfl, fun _ => rfl⟩
  · rw [hsince]
    exact ⟨fun _ => rfl, fun _ => rfl, fun _ => rfl⟩
  · rw [hsince]
    simp [List.count_cons]

theorem unwound_refl (s : MemState) : Unwound s s none := by
  have hsince : s.callsSince s = [] := callsSince_of_append (List.append_nil _).symm
  refine ⟨?_, fun a => ?_, rfl, fun _ => rfl⟩
  · rw [hsince]
    exact ⟨fun _ => rfl, fun _ => rfl, fun _ => rfl⟩
  · rw [hsince]
    rfl

/-- The new buffer of a direct object keeps no reference for the fd that stays installed. -/
theorem direct_counts (s : MemState) (proc fd : ℕ) :
    ¬ ∀ x, ((s.rknpuDkmsAlloc.dmaBufFd proc fd s.numBufs).refs.put s.numBufs).count x +
      s.owners.count x = s.refs.count x +
        (s.rknpuDkmsAlloc.dmaBufFd proc fd s.numBufs).owners.count x := by
  intro hall
  have hcount := hall s.numBufs
  have hput : ((s.refs.alloc s.numBufs).put s.numBufs).count s.numBufs = 0 := by
    simp [Refs.alloc, Refs.put]
  have howners : (s.rknpuDkmsAlloc.dmaBufFd proc fd s.numBufs).owners =
      s.numBufs ::ₘ s.owners := by
    rw [MemState.owners, MemState.dmaBufFd, holders_snoc, Multiset.cons_add]
    rfl
  rw [howners, Multiset.count_cons_self] at hcount
  have hrefs : (s.rknpuDkmsAlloc.dmaBufFd proc fd s.numBufs).refs = s.refs.alloc s.numBufs := rfl
  rw [hrefs, hput] at hcount
  omega

/-- A failing call with an object, by the way it came by a dma-buf. -/
theorem unwound_iff_of_object (hs : Known s) (hcopy : o.copyIn = true)
    (hobject : o.kzalloc = some addr) (herr : (s.rknpuMemCreateIoctl proc file args o).1 ≠ 0) :
    Unwound s (s.rknpuMemCreateIoctl proc file args o).2.2 (some addr) ↔
      ¬ (s.TakesDmaBuf proc args o ∧ s.EndsUnmapped file args o) ∧
        ¬ s.LateFailure file args o := by
  have htook := takeDmaBuf_took s proc addr args o
  have hnot : ¬ s.TakesDmaBuf proc args o → ¬ s.LateFailure file args o := by
    rintro hnot ⟨-, -, hhandle, halloc, hfd, -⟩
    refine hnot ?_
    unfold MemState.TakesDmaBuf
    rw [hhandle, if_neg (Nat.lt_irrefl 0)]
    exact ⟨halloc, hfd⟩
  unfold MemState.rknpuMemCreateIoctl at herr ⊢
  rw [hcopy, hobject, if_neg Bool.noConfusion] at herr ⊢
  simp only at herr ⊢
  generalize s.takeDmaBuf proc addr args o = r at htook herr ⊢
  cases htook with
  | nothing e he htakes =>
    exact ⟨fun _ => ⟨fun h => htakes h.1, hnot htakes⟩, fun _ => unwound_kfree s addr⟩
  | noFd htakes =>
    have hput := errFreeDmaBuf_putBack s.rknpuDkmsAlloc [] s.numBufs addr
      (List.append_nil _).symm rfl rfl rfl
    refine (hput.unwound_iff (s := s) rfl rfl fun _ => rfl).trans
      ⟨fun _ => ⟨fun h => htakes h.1, hnot htakes⟩, fun _ => ⟨?_, fun x => ?_⟩⟩
    · exact ⟨fun _ => rfl, fun _ => rfl, fun _ => rfl⟩
    · exact congrArg (· + _) (alloc_put_count (hs.unborn _ (Nat.le_refl _)) x)
  | imported e hhandle hfind =>
    obtain ⟨-, calls, hput, hfree, hundone⟩ := listDmaBuf_error addr herr
    have htakes : s.TakesDmaBuf proc args o := by
      unfold MemState.TakesDmaBuf
      rw [if_pos hhandle, hfind]
      rfl
    refine (hput.unwound_iff (s := s) rfl rfl hfree).trans ?_
    rw [hundone]
    constructor
    · rintro ⟨hend, -⟩
      exact ⟨fun h => hend h.2, fun h => Nat.ne_of_gt hhandle h.2.2.1⟩
    · rintro ⟨hend, -⟩
      exact ⟨fun h => hend ⟨htakes, h⟩, fun x => congrArg (· + _) (get_put_count ..)⟩
  | direct fd hhandle halloc hfd =>
    obtain ⟨hfails, calls, hput, hfree, hundone⟩ := listDmaBuf_error addr herr
    have hlate : s.LateFailure file args o :=
      ⟨hcopy, by rw [hobject]; rfl, hhandle, halloc, by rw [hfd]; rfl, hfails⟩
    refine (hput.unwound_iff (s := s) rfl rfl hfree).trans ?_
    exact ⟨fun h => absurd h.2 (direct_counts s proc fd), fun h => absurd hlate h.2⟩

/-- **A MEM_CREATE that fails** unwinds what it took, in every reachable state, just when it does
not unmap for the kernel what was not mapped, and a direct one does not fail after its fd is
installed. Then a count that was that of the references of others is so again; and a
`rknpu_dkms_alloc` that fails has freed what it took. -/
theorem mem_create_unwinds (hs : memSystem.Reachable s)
    (herr : (s.rknpuMemCreateIoctl proc file args o).1 ≠ 0) :
    (Unwound s (s.rknpuMemCreateIoctl proc file args o).2.2 o.object ↔
      ¬ s.VunmapsUnmapped proc file args o ∧ ¬ s.LateFailure file args o) ∧
    (Unwound s (s.rknpuMemCreateIoctl proc file args o).2.2 o.object →
      ∀ d, s.refs.count d = s.owners.count d →
        (s.rknpuMemCreateIoctl proc file args o).2.2.refs.count d =
          (s.rknpuMemCreateIoctl proc file args o).2.2.owners.count d) ∧
    ∀ size a, (rknpuDkmsAllocCalls size a).1 ≠ 0 → FreesAll (rknpuDkmsAllocCalls size a).2 := by
  refine ⟨?_, fun hunwound d hd => ?_, fun size a => rknpuDkmsAllocCalls_error⟩
  · unfold MemState.VunmapsUnmapped
    cases hobject : o.object with
    | some addr =>
      unfold CreateOutcome.object at hobject
      obtain ⟨hcopy, hkzalloc⟩ := Option.ite_none_right_eq_some.mp hobject
      rw [unwound_iff_of_object (known_of_reachable hs) hcopy hkzalloc herr]
      simp
    | none =>
      have hnone : o.copyIn = true → o.kzalloc = none := by
        unfold CreateOutcome.object at hobject
        exact fun hcopy => by rwa [if_pos hcopy] at hobject
      have hsame : (s.rknpuMemCreateIoctl proc file args o).2.2 = s := by
        unfold MemState.rknpuMemCreateIoctl
        split_ifs with hcopy
        · rfl
        · rw [hnone (by simpa using hcopy)]
      rw [hsame]
      refine ⟨fun _ => ⟨fun h => Bool.false_ne_true h.1, fun h => ?_⟩, fun _ => unwound_refl s⟩
      have hsome := h.2.1
      rw [hnone h.1] at hsome
      exact Bool.false_ne_true hsome
  · have := hunwound.counts d
    omega

/-- A session that has no objects yet. -/
def opened : MemState := ⟨.empty, 0, [], [0], [], []⟩

/-- A session with one direct object, whose fd is 5. -/
def oneObject : MemState :=
  ⟨Refs.empty.alloc 0, 1, [⟨1, 5, 0⟩], [0], [⟨0x1000, 0, 0, true, false, 4096, 0x80000000⟩],
    [.attach 0, .map 0]⟩

/-- All calls but the copy to the user succeed. -/
def notCopied (addr fd : ℕ) : CreateOutcome := { created addr fd with copyOut := false }

theorem opened_reachable : memSystem.Reachable opened :=
  ⟨⟨.empty, 0, [], [], [], []⟩, [.openFile 0], rfl, rfl⟩

theorem oneObject_reachable : memSystem.Reachable oneObject :=
  ⟨⟨.empty, 0, [], [], [], []⟩, allocated, rfl, rfl⟩

/-- An import that is mapped for the kernel fails at the end. -/
theorem mem_create_unwinds_import :
    Unwound oneObject (oneObject.rknpuMemCreateIoctl 1 0 ⟨5, 8, 4096, 0, 0, 0, 0, 0⟩
      (notCopied 0x2000 6)).2.2 (some 0x2000) := by
  have hmapped : ¬ oneObject.VunmapsUnmapped 1 0 ⟨5, 8, 4096, 0, 0, 0, 0, 0⟩
      (notCopied 0x2000 6) := fun h => absurd h.2.2.2.2.1 (by decide)
  have himport : ¬ oneObject.LateFailure 0 ⟨5, 8, 4096, 0, 0, 0, 0, 0⟩ (notCopied 0x2000 6) :=
    fun h => absurd h.2.2.1 (by decide)
  exact (mem_create_unwinds oneObject_reachable (by decide)).1.mpr ⟨hmapped, himport⟩

/-- An import that is not mapped for the kernel fails at the end; and so does a direct MEM_CREATE,
whose fd keeps no reference. -/
theorem mem_create_unwinds_too_much :
    (memSystem.Reachable oneObject ∧
      oneObject.callsSince (oneObject.rknpuMemCreateIoctl 1 0 ⟨5, 0, 4096, 0, 0, 0, 0, 0⟩
        (notCopied 0x2000 6)).2.2 =
          [.attach 0, .map 0, .vunmap 0, .unmap 0, .detach 0, .put 0 true, .kfree 0x2000] ∧
      ¬ Unwound oneObject (oneObject.rknpuMemCreateIoctl 1 0 ⟨5, 0, 4096, 0, 0, 0, 0, 0⟩
        (notCopied 0x2000 6)).2.2 (some 0x2000)) ∧
    (memSystem.Reachable opened ∧
      (opened.rknpuMemCreateIoctl 1 0 ⟨0, 8, 4096, 0, 0, 0, 0, 0⟩
        (notCopied 0x1000 5)).2.2.refs.count 0 = 0 ∧
      (opened.rknpuMemCreateIoctl 1 0 ⟨0, 8, 4096, 0, 0, 0, 0, 0⟩
        (notCopied 0x1000 5)).2.2.owners = {0} ∧
      ¬ Unwound opened (opened.rknpuMemCreateIoctl 1 0 ⟨0, 8, 4096, 0, 0, 0, 0, 0⟩
        (notCopied 0x1000 5)).2.2 (some 0x1000)) := by
  refine ⟨⟨oneObject_reachable, by decide, fun h => ?_⟩, opened_reachable, rfl, rfl, fun h => ?_⟩
  · exact absurd (h.undone.vunmapped 0) (by decide)
  · exact absurd (h.counts 0) (by decide)

end RknpuDriver.Mem
