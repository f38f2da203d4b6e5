import RknpuDriver.Mem.Sessions

/-! # The dma-bufs of the listed objects

An imported object has a reference of its own. A directly allocated one has none: the reference
of the export goes to the user's fd, so the buffer lives as long as the user keeps it open.

* `Balanced`: the counts are the references of the fds, of the imported objects and of the call
  in progress, and every put so far was of a reference that was held.
* `LateFailure`: a direct MEM_CREATE that fails after `dma_buf_fd`; it puts the fd's reference.
* `KeepsBuffer`: a step that is no late failure, and does not drop the last reference of a
  buffer of which a direct object stays listed.
* `listed_alive`: what holds in runs of such steps.
-/

namespace RknpuDriver.Mem
open RknpuDriver.Lib
set_option autoImplicit false

/-- A put of a reference somebody else holds. -/
def MemCall.unheld : MemCall → Bool
  | .put _ held => !held
  | _ => false

/-- `extra` are the references the call in progress holds. -/
structure Balanced (s : MemState) (extra : Multiset ℕ) : Prop where
  exact : s.refs.Exact (· < s.numBufs) (extra + s.owners)
  held : ∀ c ∈ s.hist, c.unheld = false

namespace Balanced
variable {s : MemState} {extra : Multiset ℕ} {d addr : ℕ}

theorem call (hs : Balanced s extra) (c : MemCall) (hc : c.unheld = false) :
    Balanced (s.call c) extra := by
  refine ⟨hs.exact, fun x hx => ?_⟩
  obtain hx | hx := List.mem_append.mp hx
  · exact hs.held x hx
  · rw [List.mem_singleton.mp hx]
    exact hc

theorem put (hs : Balanced s (d ::ₘ extra)) : Balanced (s.dmaBufPut d) extra := by
  have hexact := hs.exact
  rw [Multiset.cons_add] at hexact
  have hheld : s.owners.count d < s.refs.count d := by
    rw [hexact.count_eq, Multiset.count_cons_self, Multiset.count_add]
    omega
  have hc : (MemCall.put d (s.owners.count d < s.refs.count d)).unheld = false := by
    simp [MemCall.unheld, hheld]
  exact ⟨hexact.put, (hs.call _ hc).held⟩

theorem errFreeDmaBuf (hs : Balanced s (d ::ₘ extra)) :
    Balanced (s.errFreeDmaBuf d addr) extra := hs.put.call _ rfl

theorem errDetachDmaBuf (hs : Balanced s (d ::ₘ extra)) :
    Balanced (s.errDetachDmaBuf d addr) extra :=
  ((hs.call (.unmap d) rfl).call (.detach d) rfl).errFreeDmaBuf

theorem errUnmapKvAddr (hs : Balanced s (d ::ₘ extra)) :
    Balanced (s.errUnmapKvAddr d addr) extra := (hs.call (.vunmap d) rfl).errDetachDmaBuf

theorem rknpuDkmsAlloc (hs : Balanced s extra) :
    Balanced s.rknpuDkmsAlloc (s.numBufs ::ₘ extra) := by
  refine ⟨?_, hs.held⟩
  rw [Multiset.cons_add]
  exact hs.exact.alloc (lt_irrefl _) fun x => Nat.lt_succ_iff_lt_or_eq

theorem dmaBufFd (hs : Balanced s (d ::ₘ extra)) (proc fd : ℕ) :
    Balanced (s.dmaBufFd proc fd d) extra := by
  refine ⟨?_, hs.held⟩
  have howners : (s.dmaBufFd proc fd d).owners = d ::ₘ s.owners := by
    rw [MemState.owners, MemState.dmaBufFd, holders_snoc, Multiset.cons_add]
    rfl
  have hexact := hs.exact
  rw [Multiset.cons_add, ← Multiset.add_cons, ← howners] at hexact
  exact hexact

theorem get (hs : Balanced s extra) (hd : d ∈ s.owners) :
    Balanced { s with refs := s.refs.get d } (d ::ₘ extra) := by
  refine ⟨?_, hs.held⟩
  rw [Multiset.cons_add]
  exact hs.exact.get (Multiset.mem_add.mpr (Or.inr hd))

/-- An object that is taken off its list leaves its reference, if it has one, to the call. -/
theorem teardown {x : RknpuMemObject}
    (hs : Balanced s (if x.owner then extra else x.dmabuf ::ₘ extra)) :
    Balanced (s.teardown x) extra := by
  unfold MemState.teardown
  refine call ?_ _ rfl
  have hkv : Balanced (if x.kvAddr then s.call (.vunmap x.dmabuf) else s)
      (if x.owner then extra else x.dmabuf ::ₘ extra) := by
    split
    · exact hs.call _ rfl
    · exact hs
  have hdetach := (hkv.call (.unmap x.dmabuf) rfl).call (.detach x.dmabuf) rfl
  cases howner : x.owner with
  | true =>
    rw [howner] at hdetach
    exact hdetach
  | false =>
    rw [howner] at hdetach
    exact hdetach.put

end Balanced

/-! ## Objects that are torn down -/

theorem teardown_frame (s : MemState) (x : RknpuMemObject) :
    (s.teardown x).owners = s.owners ∧ (s.teardown x).objs = s.objs := by
  unfold MemState.teardown
  split <;> split <;> exact ⟨rfl, rfl⟩

theorem Balanced.teardownAll {extra : Multiset ℕ} (xs : List RknpuMemObject) {s : MemState}
    (hs : Balanced s (holders RknpuMemObject.dmabuf (xs.filter fun x => !x.owner) + extra)) :
    Balanced (xs.foldl MemState.teardown s) extra ∧
      (xs.foldl MemState.teardown s).owners = s.owners ∧
      (xs.foldl MemState.teardown s).objs = s.objs := by
  induction xs generalizing s with
  | nil =>
    refine ⟨?_, rfl, rfl⟩
    simpa [holders] using hs
  | cons x xs ih =>
    have hx : Balanced (s.teardown x)
        (holders RknpuMemObject.dmabuf (xs.filter fun x => !x.owner) + extra) := by
      apply Balanced.teardown
      cases howner : x.owner with
      | true => simpa [howner] using hs
      | false =>
        rw [List.filter_cons_of_pos (by simp [howner])] at hs
        simpa [holders, ← Multiset.cons_coe, Multiset.cons_add] using hs
    obtain ⟨hall, howners, hobjs⟩ := ih hx
    obtain ⟨howners', hobjs'⟩ := teardown_frame s x
    exact ⟨hall, howners.trans howners', hobjs.trans hobjs'⟩

/-! ## MEM_CREATE -/

/-- Whether MEM_CREATE fails once it has a dma-buf. -/
def MemState.ListFails (s : MemState) (file : ℕ) (args : RknpuMemCreate) (o : CreateOutcome) :
    Prop :=
  o.attachErr ≠ 0 ∨ o.mapped.isOk = false ∨
    MemState.kernelMapping args = true ∧ o.vmapErr ≠ 0 ∨ o.copyOut = false ∨ file ∉ s.sessions

theorem Balanced.vmapDmaBuf {s : MemState} {extra : Multiset ℕ} (hs : Balanced s extra)
    (args : RknpuMemCreate) (d : ℕ) : Balanced (s.vmapDmaBuf args d) extra := by
  unfold MemState.vmapDmaBuf
  split
  · exact hs.call _ rfl
  · exact hs

theorem vmapDmaBuf_frame (s : MemState) (args : RknpuMemCreate) (d : ℕ) :
    (s.vmapDmaBuf args d).owners = s.owners ∧ (s.vmapDmaBuf args d).objs = s.objs := by
  unfold MemState.vmapDmaBuf
  split <;> exact ⟨rfl, rfl⟩

/-- A MEM_CREATE that fails puts the reference it got for the dma-buf, and lists nothing. -/
theorem Balanced.listDmaBuf_fails {s : MemState} {extra : Multiset ℕ} {file : ℕ} (addr : ℕ)
    {args : RknpuMemCreate} {o : CreateOutcome} {b : NewBuf}
    (hs : Balanced s (b.dmabuf ::ₘ extra)) (hfail : s.ListFails file args o) :
    Balanced (s.listDmaBuf file addr args o b).2.2 extra ∧
      (s.listDmaBuf file addr args o b).2.2.owners = s.owners ∧
      (s.listDmaBuf file addr args o b).2.2.objs = s.objs := by
  have hattach := hs.call (.attach b.dmabuf) rfl
  unfold MemState.listDmaBuf
  split_ifs with ha
  · exact ⟨hs.errFreeDmaBuf, rfl, rfl⟩
  · cases hm : o.mapped with
    | error e => exact ⟨(hattach.call (.detach b.dmabuf) rfl).errFreeDmaBuf, rfl, rfl⟩
    | ok dmaAddr =>
      have hmap := hattach.call (.map b.dmabuf) rfl
      simp only [MemState.listMapped]
      split_ifs with hv hend
      · exact ⟨hmap.errDetachDmaBuf, rfl, rfl⟩
      · obtain ⟨howners, hobjs⟩ := vmapDmaBuf_frame
          ((s.call (.attach b.dmabuf)).call (.map b.dmabuf)) args b.dmabuf
        exact ⟨(hmap.vmapDmaBuf args b.dmabuf).errUnmapKvAddr, howners, hobjs⟩
      · obtain hf | hf | hf | hf := hfail
        · exact absurd hf ha
        · rw [hm] at hf
          cases hf
        · exact absurd hf hv
        · exact absurd hf hend

theorem Balanced.list {s : MemState} {extra : Multiset ℕ} {x : RknpuMemObject}
    (hs : Balanced s (if x.owner then extra else x.dmabuf ::ₘ extra)) :
    Balanced { s with objs := s.objs ++ [x] } extra ∧
      MemState.owners { s with objs := s.objs ++ [x] } =
        (if x.owner then s.owners else x.dmabuf ::ₘ s.owners) := by
  have hnew : MemState.owners { s with objs := s.objs ++ [x] } =
      (if x.owner then s.owners else x.dmabuf ::ₘ s.owners) := by
    rw [MemState.owners, MemState.owners, List.filter_append, List.filter_singleton]
    cases x.owner with
    | true => simp
    | false => simp [holders_snoc]
  refine ⟨⟨?_, hs.held⟩, hnew⟩
  have hexact := hs.exact
  rw [hnew]
  cases howner : x.owner with
  | true =>
    rw [howner] at hexact
    exact hexact
  | false =>
    rw [howner] at hexact
    simpa [Multiset.cons_add, Multiset.add_cons] using hexact

theorem Balanced.listDmaBuf_succeeds {s : MemState} {extra : Multiset ℕ} {file : ℕ} (addr : ℕ)
    {args : RknpuMemCreate} {o : CreateOutcome} (b : NewBuf)
    (hs : Balanced s (if b.owner then extra else b.dmabuf ::ₘ extra))
    (hok : ¬ s.ListFails file args o) :
    Balanced (s.listDmaBuf file addr args o b).2.2 extra ∧
      (s.listDmaBuf file addr args o b).2.2.owners =
        (if b.owner then s.owners else b.dmabuf ::ₘ s.owners) ∧
      ∃ x, (s.listDmaBuf file addr args o b).2.2.objs = s.objs ++ [x] ∧ x.dmabuf = b.dmabuf := by
  have hmap := (hs.call (.attach b.dmabuf) rfl).call (.map b.dmabuf) rfl
  simp only [MemState.ListFails, not_or] at hok
  obtain ⟨ha, hm, hv, hend⟩ := hok
  unfold MemState.listDmaBuf
  rw [if_neg ha]
  cases hmapped : o.mapped with
  | error e =>
    rw [hmapped] at hm
    exact absurd rfl hm
  | ok dmaAddr =>
    simp only [MemState.listMapped]
    rw [if_neg hv, if_neg (by rwa [not_or])]
    obtain ⟨howners, hobjs⟩ := vmapDmaBuf_frame
      ((s.call (.attach b.dmabuf)).call (.map b.dmabuf)) args b.dmabuf
    obtain ⟨hbal, hnew⟩ := Balanced.list (x := ⟨addr, file, b.dmabuf, b.owner,
      MemState.kernelMapping args, pageAlign args.size, dmaAddr⟩)
      (hmap.vmapDmaBuf args b.dmabuf)
    rw [howners, hobjs] at hnew
    rw [hobjs] at hbal
    exact ⟨hbal, hnew, _, rfl, rfl⟩

/-! ## One step -/

/-- A direct MEM_CREATE that fails after `dma_buf_fd` has installed the fd. -/
def MemState.LateFailure (s : MemState) (file : ℕ) (args : RknpuMemCreate) (o : CreateOutcome) :
    Prop :=
  o.copyIn = true ∧ o.kzalloc.isSome ∧ args.handle = 0 ∧ o.allocErr = 0 ∧ o.fd.isSome ∧
    s.ListFails file args o

/-- The references of dma-bufs that a step drops for good. -/
def MemState.dropped (s : MemState) : MemLabel → List ℕ
  | .closeFd proc fd => (s.findFd proc fd).toList.map FdEntry.dmabuf
  | .memDestroy file args copyIn =>
    if copyIn = false ∨ file ∉ s.sessions then []
    else ((s.rknpuMemFindByObjAddr file args.objAddr).toList.filter fun x => !x.owner).map
      RknpuMemObject.dmabuf
  | .release file =>
    ((s.objs.filter fun x => x.session = file).filter fun x => !x.owner).map
      RknpuMemObject.dmabuf
  | _ => []

/-- Whether an object can still be listed after a step. -/
def RknpuMemObject.stays (x : RknpuMemObject) : MemLabel → Bool
  | .release file => x.session ≠ file
  | _ => true

def KeepsBuffer (s : MemState) (label : MemLabel) : Prop :=
  (∀ x ∈ s.objs, x.owner = true → x.stays label = true → x.dmabuf ∈ s.dropped label →
    (s.dropped label).count x.dmabuf < s.owners.count x.dmabuf) ∧
  match label with
  | .memCreate _ file args o => ¬ s.LateFailure file args o
  | _ => True

instance (s : MemState) (label : MemLabel) : Decidable (KeepsBuffer s label) := by
  unfold KeepsBuffer MemState.LateFailure MemState.ListFails
  cases label <;> infer_instance

/-- Every listed object's dma-buf has a reference that somebody holds. -/
def Backed (s : MemState) : Prop := ∀ x ∈ s.objs, x.dmabuf ∈ s.owners

theorem mem_owners_of_import {s : MemState} {x : RknpuMemObject} (hx : x ∈ s.objs)
    (hown : x.owner = false) : x.dmabuf ∈ s.owners := by
  apply Multiset.mem_add.mpr
  exact Or.inr ((mem_holders _).mpr ⟨x, List.mem_filter.mpr ⟨hx, by simp [hown]⟩, rfl⟩)

/-- After references are dropped, the buffers of the objects that stay are held if they were not
the last ones. -/
theorem Backed.drop {s t : MemState} {label : MemLabel} (hs : Backed s)
    (hkeep : KeepsBuffer s label) (howners : s.owners = s.dropped label + t.owners)
    (hobjs : ∀ x ∈ t.objs, x ∈ s.objs ∧ x.stays label = true) : Backed t := by
  intro x hx
  cases hown : x.owner with
  | false => exact mem_owners_of_import hx hown
  | true =>
    obtain ⟨hmem, hstay⟩ := hobjs x hx
    have hpos : 0 < s.owners.count x.dmabuf := Multiset.count_pos.mpr (hs x hmem)
    have hcount : s.owners.count x.dmabuf =
        (s.dropped label).count x.dmabuf + t.owners.count x.dmabuf := by
      rw [howners, Multiset.count_add, Multiset.coe_count]
    rw [← Multiset.count_pos]
    by_cases hd : x.dmabuf ∈ s.dropped label
    · have hlt := hkeep.1 x hmem hown hstay hd
      omega
    · have hzero : (s.dropped label).count x.dmabuf = 0 := List.count_eq_zero.mpr hd
      omega

/-- An invariant of the calls, between which no call holds a reference. -/
structure Alive (s : MemState) : Prop where
  balanced : Balanced s 0
  backed : Backed s

namespace Alive
variable {s t : MemState}

theorem memCreate (hs : Alive s) {proc file : ℕ} {args : RknpuMemCreate} {o : CreateOutcome}
    (hlate : ¬ s.LateFailure file args o) :
    Alive (s.rknpuMemCreateIoctl proc file args o).2.2 := by
  have hlist : ∀ (t : MemState) (addr : ℕ) (b : NewBuf), b.owner = false →
      Balanced t (b.dmabuf ::ₘ 0) → Backed t → Alive (t.listDmaBuf file addr args o b).2.2 := by
    intro t addr b hown ht hback
    by_cases hfail : t.ListFails file args o
    · obtain ⟨hbal, howners, hobjs⟩ := ht.listDmaBuf_fails addr hfail
      refine ⟨hbal, fun x hx => ?_⟩
      rw [howners]
      exact hback x (hobjs ▸ hx)
    · have ht' : Balanced t (if b.owner then 0 else b.dmabuf ::ₘ 0) := by
        rw [hown]
        exact ht
      obtain ⟨hbal, howners, x, hobjs, hx⟩ := Balanced.listDmaBuf_succeeds addr b ht' hfail
      rw [hown] at howners
      refine ⟨hbal, fun y hy => ?_⟩
      rw [howners, if_neg Bool.false_ne_true]
      rw [hobjs, List.mem_append, List.mem_singleton] at hy
      obtain hy | rfl := hy
      · exact Multiset.mem_cons_of_mem (hback y hy)
      · rw [hx]
        exact Multiset.mem_cons_self _ _
  unfold MemState.rknpuMemCreateIoctl
  split_ifs with hin
  · exact hs
  cases hk : o.kzalloc with
  | none => exact hs
  | some addr =>
    unfold MemState.takeDmaBuf
    by_cases hh : 0 < args.handle
    · simp only [if_pos hh]
      cases hfd : s.findFd proc args.handle with
      | none => exact ⟨hs.balanced.call _ rfl, hs.backed⟩
      | some e =>
        have hmem : e.dmabuf ∈ s.owners := Multiset.mem_add.mpr (Or.inl ((mem_holders _).mpr
          ⟨e, List.mem_of_find?_eq_some hfd, rfl⟩))
        exact hlist _ addr ⟨args.handle, e.dmabuf, false⟩ rfl (hs.balanced.get hmem) hs.backed
    · simp only [if_neg hh]
      by_cases ha : o.allocErr ≠ 0
      · simp only [if_pos ha]
        exact ⟨hs.balanced.call _ rfl, hs.backed⟩
      · simp only [if_neg ha]
        have halloc := hs.balanced.rknpuDkmsAlloc
        cases hfd : o.fd with
        | none => exact ⟨halloc.errFreeDmaBuf, hs.backed⟩
        | some fd =>
          have hbuf := halloc.dmaBufFd proc fd
          have howners : (s.rknpuDkmsAlloc.dmaBufFd proc fd s.numBufs).owners =
              s.numBufs ::ₘ s.owners := by
            rw [MemState.owners, MemState.dmaBufFd, holders_snoc, Multiset.cons_add]
            rfl
          have hok : ¬ (s.rknpuDkmsAlloc.dmaBufFd proc fd s.numBufs).ListFails file args o :=
            fun hfail => hlate ⟨by simpa using hin, by simp [hk], by omega, by simpa using ha,
              by simp [hfd], hfail⟩
          obtain ⟨hbal, hnew, x, hobjs, hx⟩ :=
            Balanced.listDmaBuf_succeeds addr ⟨fd, s.numBufs, true⟩ hbuf hok
          refine ⟨hbal, fun y hy => ?_⟩
          rw [hnew]
          rw [hobjs, List.mem_append, List.mem_singleton] at hy
          show _ ∈ MemState.owners _
          rw [howners]
          obtain hy | rfl := hy
          · exact Multiset.mem_cons_of_mem (hs.backed y hy)
          · rw [hx]
            exact Multiset.mem_cons_self _ _

theorem memDestroy (hs : Alive s) {file : ℕ} {args : RknpuMemDestroy} {copyIn : Bool}
    (hkeep : KeepsBuffer s (.memDestroy file args copyIn)) :
    Alive (s.rknpuMemDestroyIoctl file args copyIn).2 := by
  unfold MemState.rknpuMemDestroyIoctl
  split_ifs with hin
  · exact hs
  cases hfind : s.rknpuMemFindByObjAddr file args.objAddr with
  | none => exact hs
  | some x =>
    have hmem : x ∈ s.objs := List.mem_of_find?_eq_some hfind
    have hsplit : s.owners = (if x.owner then 0 else {x.dmabuf}) +
        MemState.owners { s with objs := s.objs.erase x } := by
      have hperm := (List.perm_cons_erase hmem).filter fun y => !y.owner
      rw [MemState.owners, MemState.owners, holders, holders, holders,
        Multiset.coe_eq_coe.mpr (hperm.map RknpuMemObject.dmabuf)]
      cases hown : x.owner with
      | true => simp [hown]
      | false =>
        rw [List.filter_cons_of_pos (by simp [hown]), List.map_cons, ← Multiset.cons_coe,
          Multiset.add_cons]
        simp
    obtain ⟨howners, hobjs⟩ := teardown_frame { s with objs := s.objs.erase x } x
    refine ⟨?_, hs.backed.drop hkeep ?_ fun y hy => ⟨?_, rfl⟩⟩
    · refine Balanced.teardown ⟨?_, hs.balanced.held⟩
      have hexact := hs.balanced.exact
      rw [Multiset.zero_add, hsplit] at hexact
      cases hown : x.owner with
      | true =>
        rw [hown] at hexact
        exact hexact
      | false =>
        rw [hown] at hexact
        exact hexact
    · rw [howners, hsplit, MemState.dropped, if_neg hin, hfind]
      cases hown : x.owner <;> simp [hown]
    · rw [hobjs] at hy
      exact List.mem_of_mem_erase hy

theorem release (hs : Alive s) {file : ℕ} (hkeep : KeepsBuffer s (.release file)) :
    Alive (s.rknpuRelease file) := by
  have hsplit : s.owners = s.dropped (.release file) +
      MemState.owners { s with
        sessions := s.sessions.erase file
        objs := s.objs.filter fun x => !decide (x.session = file) } := by
    have hperm := (List.filter_append_perm (fun x : RknpuMemObject => decide (x.session = file))
      (s.objs.filter fun x => !x.owner)).symm.map RknpuMemObject.dmabuf
    rw [MemState.owners, MemState.owners, holders, holders, holders, MemState.dropped,
      Multiset.coe_eq_coe.mpr hperm, List.map_append, ← Multiset.coe_add]
    simp only [List.filter_filter, Bool.and_comm]
    rw [← Multiset.add_assoc, ← Multiset.add_assoc]
    exact congrArg (· + _) (Multiset.add_comm _ _)
  have hbal : Balanced { s with
      sessions := s.sessions.erase file
      objs := s.objs.filter fun x => !decide (x.session = file) }
      (holders RknpuMemObject.dmabuf
        ((s.objs.filter fun x => x.session = file).filter fun x => !x.owner) + 0) := by
    refine ⟨?_, hs.balanced.held⟩
    have hexact := hs.balanced.exact
    rw [Multiset.zero_add, hsplit] at hexact
    rw [Multiset.add_zero]
    exact hexact
  obtain ⟨hall, howners, hobjs⟩ := hbal.teardownAll
  refine ⟨hall, hs.backed.drop hkeep ?_ fun x hx => ?_⟩
  · rw [MemState.rknpuRelease, howners]
    exact hsplit
  · rw [MemState.rknpuRelease, hobjs, List.mem_filter] at hx
    exact ⟨hx.1, by simpa [RknpuMemObject.stays] using hx.2⟩

theorem closeFd (hs : Alive s) {proc fd : ℕ} {e : FdEntry} (hfind : s.findFd proc fd = some e)
    (hkeep : KeepsBuffer s (.closeFd proc fd)) : Alive (s.closeFd e) := by
  have hsplit : s.owners = e.dmabuf ::ₘ MemState.owners { s with fds := s.fds.erase e } := by
    rw [MemState.owners, holders_erase _ (List.mem_of_find?_eq_some hfind), Multiset.cons_add]
    rfl
  refine ⟨Balanced.put ⟨?_, hs.balanced.held⟩, hs.backed.drop hkeep ?_ fun x hx => ⟨hx, rfl⟩⟩
  · have hexact := hs.balanced.exact
    rw [Multiset.zero_add, hsplit] at hexact
    simpa [Multiset.cons_add] using hexact
  · rw [hsplit, MemState.dropped, hfind]
    exact (Multiset.singleton_add _ _).symm

theorem acquire (hs : Alive s) (d : ℕ) (hbal : Balanced t 0) (howners : t.owners = d ::ₘ s.owners)
    (hobjs : t.objs = s.objs) : Alive t := by
  refine ⟨hbal, fun x hx => ?_⟩
  rw [howners]
  exact Multiset.mem_cons_of_mem (hs.backed x (hobjs ▸ hx))

theorem step (hs : Alive s) {label : MemLabel} (hkeep : KeepsBuffer s label)
    (hstep : memStep s label = some t) : Alive t := by
  cases label with
  | openFile file =>
    simp only [memStep] at hstep
    split_ifs at hstep
    cases hstep
    exact ⟨⟨hs.balanced.exact, hs.balanced.held⟩, hs.backed⟩
  | release file =>
    obtain ⟨-, ht⟩ := Option.ite_none_right_eq_some.mp hstep
    cases ht
    exact hs.release hkeep
  | memCreate proc file args o =>
    obtain ⟨-, ht⟩ := Option.ite_none_right_eq_some.mp hstep
    cases ht
    exact hs.memCreate hkeep.2
  | memDestroy file args copyIn =>
    cases hstep
    exact hs.memDestroy hkeep
  | memSync file args copyIn =>
    cases hstep
    exact hs
  | closeFd proc fd =>
    obtain ⟨e, hfind, ht⟩ := Option.map_eq_some_iff.mp hstep
    cases ht
    exact hs.closeFd hfind hkeep
  | exportBuf proc fd =>
    obtain ⟨-, ht⟩ := Option.ite_none_right_eq_some.mp hstep
    cases ht
    refine hs.acquire s.numBufs (hs.balanced.rknpuDkmsAlloc.dmaBufFd proc fd) ?_ rfl
    rw [MemState.owners, MemState.dmaBufFd, holders_snoc, Multiset.cons_add]
    rfl
  | dup proc fd proc' fd' =>
    obtain ⟨-, ht⟩ := Option.ite_none_right_eq_some.mp hstep
    obtain ⟨e, hfind, ht⟩ := Option.map_eq_some_iff.mp ht
    cases ht
    have hmem : e.dmabuf ∈ s.owners := Multiset.mem_add.mpr (Or.inl ((mem_holders _).mpr
      ⟨e, List.mem_of_find?_eq_some hfind, rfl⟩))
    refine hs.acquire e.dmabuf ((hs.balanced.get hmem).dmaBufFd proc' fd') ?_ rfl
    rw [MemState.owners, MemState.dmaBufFd, holders_snoc, Multiset.cons_add]
    rfl

end Alive

/-- **The dma-buf of a listed object is alive**, and every reference that was put was held, in
every run whose steps keep the buffers of the direct objects and that has no late failure. -/
theorem listed_alive {s : MemState} (hs : (memSystem.guarded KeepsBuffer).Reachable s) :
    (∀ x ∈ s.objs, s.refs.freed x.dmabuf = false) ∧ ∀ d, MemCall.put d false ∉ s.hist := by
  have halive : Alive s := by
    refine hs.invariant Alive ?_ ?_
    · rintro s rfl
      refine ⟨⟨Refs.Exact.empty _ Nat.not_lt_zero, fun c hc => ?_⟩, fun x hx => ?_⟩
      · exact absurd hc List.not_mem_nil
      · exact absurd hx List.not_mem_nil
    · intro s label t hs hstep
      obtain ⟨hkeep, hstep⟩ := System.guarded_step.mp hstep
      exact hs.step hkeep hstep
  refine ⟨fun x hx => ?_, fun d hd => ?_⟩
  · apply halive.balanced.exact.alive
    rw [Multiset.zero_add]
    exact halive.backed x hx
  · have hheld := halive.balanced.held _ hd
    exact Bool.noConfusion hheld

/-- A MEM_CREATE all of whose calls succeed. -/
def created (addr fd : ℕ) : CreateOutcome :=
  ⟨true, some addr, 0, 0, some fd, 0, .ok 0x80000000, 0, true⟩

/-- A session with an object of 4096 bytes, whose fd is 5. -/
def allocated : List MemLabel :=
  [.openFile 0, .memCreate 1 0 ⟨0, 0, 4096, 0, 0, 0, 0, 0⟩ (created 0x1000 5)]

/-- The buffer is imported a second time, and outlives its fd and the first object. -/
theorem listed_alive_imported : ∃ s, (memSystem.guarded KeepsBuffer).Reachable s ∧
    (∃ x ∈ s.objs, x.owner = true ∧ s.refs.freed x.dmabuf = false) ∧
      ∀ d, MemCall.put d false ∉ s.hist := by
  obtain ⟨s, hs, hp⟩ := System.Reachable.of_run_any (S := memSystem.guarded KeepsBuffer)
    (s := ⟨.empty, 0, [], [], [], []⟩)
    (l := allocated ++ [.memCreate 1 0 ⟨5, 0, 4096, 0, 0, 0, 0, 0⟩ (created 0x2000 6),
      .closeFd 1 5])
    (p := fun s => ∃ x ∈ s.objs, x.owner = true) rfl (by decide +kernel)
  obtain ⟨x, hx, hown⟩ := of_decide_eq_true hp
  obtain ⟨halive, hheld⟩ := listed_alive hs
  exact ⟨s, hs, ⟨x, hx, hown, halive x hx⟩, hheld⟩

/-- The user closes the only fd of a direct object; and a direct MEM_CREATE fails when it copies
its arguments back. -/
theorem direct_loses_buffer :
    (¬ ∀ s, memSystem.Reachable s → ∀ x ∈ s.objs, s.refs.freed x.dmabuf = false) ∧
      ¬ ∀ s, memSystem.Reachable s → ∀ d, MemCall.put d false ∉ s.hist := by
  refine ⟨fun hall => ?_, fun hall => ?_⟩
  · obtain ⟨s, hs, hp⟩ := System.Reachable.of_run_any (S := memSystem)
      (s := ⟨.empty, 0, [], [], [], []⟩) (l := allocated ++ [.closeFd 1 5])
      (p := fun s => ∃ x ∈ s.objs, s.refs.freed x.dmabuf = true) rfl (by decide +kernel)
    obtain ⟨x, hx, hfreed⟩ := of_decide_eq_true hp
    rw [hall s hs x hx] at hfreed
    exact Bool.false_ne_true hfreed
  · obtain ⟨s, hs, hp⟩ := System.Reachable.of_run_any (S := memSystem)
      (s := ⟨.empty, 0, [], [], [], []⟩)
      (l := [.openFile 0, .memCreate 1 0 ⟨0, 0, 4096, 0, 0, 0, 0, 0⟩
        { created 0x1000 5 with copyOut := false }])
      (p := fun s => MemCall.put 0 false ∈ s.hist) rfl (by decide +kernel)
    exact hall s hs 0 (of_decide_eq_true hp)

end RknpuDriver.Mem
