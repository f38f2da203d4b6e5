import RknpuDriver.Gem.Objects
import RknpuDriver.Lib.Threads
import Mathlib.Data.Multiset.Bind

/-! # GEM objects between a lookup and its last use

MEM_CREATE, MEM_DESTROY and the generic handle close on one DRM file, step by step: each lookup,
each put, and each read or write of an object outside a lock is a block of its own.
`rknpu_gem_object_find` puts the reference of its lookup before it returns, so what the ioctl
does with the object afterwards rests on the handle or on the entry of `rknpu_dkms_gem_ranges`.

`hist` records every access to an object and whether it had been freed. While an object that is
looked up keeps a handle or an entry (`KeepsLookedUp`), none had.
-/

namespace RknpuDriver.Gem
open RknpuDriver.Lib
set_option autoImplicit false

/-- `findPut` and `allocPut` are the puts of `rknpu_gem_object_find` and of
`rknpu_gem_handle_create`; the `fill`s copy a field to the arguments, the `track`s are the steps
of `rknpu_dkms_track_gem_obj`, and `copyOut` is the DRM core's copy of the arguments. -/
inductive LookupOp where
  | memCreate (args : RknpuMemCreate)
  | createNew (args : RknpuMemCreate)
  | findPut (o : ℕ)
  | allocPut (o : ℕ)
  | fillSize (args : RknpuMemCreate) (o : ℕ)
  | fillSramSize (args : RknpuMemCreate) (o : ℕ)
  | fillDmaAddr (args : RknpuMemCreate) (o : ℕ)
  | trackCheck (o : ℕ)
  | trackFill (o : ℕ)
  | trackGet (r : RknpuDkmsGemRange)
  | trackLocked (r : RknpuDkmsGemRange)
  | copyOut (args : RknpuMemCreate)
  | memDestroy (handle : ℕ)
  | readDomain (o handle waitCount : ℕ)
  | untrack (o : ℕ)
  | handleDelete (handle : ℕ)
  deriving DecidableEq, Repr

/-- What the kernel's functions and `rknpu_iommu_domain_get_and_switch` return. -/
structure LookupOutcome where
  created : Except ℤ RknpuGemObject
  handle : Except ℤ ℕ
  kzallocOk : Bool
  switched : ℤ

/-- The state after a block, the objects it accesses, and the blocks it calls for. -/
structure LookupEffect where
  gem : GemState
  accessed : List ℕ
  ops : List LookupOp

def lookupExec (file : ℕ) (s : GemState) (out : LookupOutcome) : LookupOp → LookupEffect
  | .memCreate args =>
    match s.find file args.handle with
    | some h => ⟨s.get h.obj, [h.obj], [.findPut h.obj, .fillSize args h.obj]⟩
    | none => ⟨s, [], [.createNew args]⟩
  | .createNew args =>
    match out.created, out.handle with
    | .error _, _ => ⟨s, [], []⟩
    | .ok obj, .error _ => ⟨(s.rknpuGemInit obj).rknpuGemObjectDestroy s.numObjs, [], []⟩
    | .ok obj, .ok h => ⟨(s.rknpuGemInit obj).drmGemHandleCreate file s.numObjs h, [],
        [.allocPut s.numObjs, .fillSize { args with handle := h } s.numObjs]⟩
  | .findPut o | .allocPut o => ⟨s.put o, [o], []⟩
  | .fillSize args o => ⟨s, [o], [.fillSramSize { args with size := (s.objs o).size } o]⟩
  | .fillSramSize args o =>
    ⟨s, [o], [.fillDmaAddr { args with sramSize := (s.objs o).sramSize, objAddr := o } o]⟩
  | .fillDmaAddr args o =>
    ⟨s, [o], [.trackCheck o, .copyOut { args with dmaAddr := (s.objs o).dmaAddr }]⟩
  | .trackCheck o =>
    ⟨s, [o], if (s.objs o).dmaAddr = 0 ∨ (s.objs o).size = 0 ∨ out.kzallocOk = false then []
      else [.trackFill o]⟩
  | .trackFill o => ⟨s, [o], [.trackGet ⟨o, (s.objs o).dmaAddr, (s.objs o).size⟩]⟩
  | .trackGet r => ⟨s.get r.obj, [r.obj], [.trackLocked r]⟩
  | .trackLocked r =>
    if ∃ pos ∈ s.ranges, pos.obj = r.obj then ⟨s.put r.obj, [r.obj], []⟩
    else ⟨{ s with ranges := s.ranges ++ [r] }, [], []⟩
  | .copyOut _ => ⟨s, [], []⟩
  | .memDestroy handle =>
    match s.find file handle with
    | some h => ⟨s.get h.obj, [h.obj], [.findPut h.obj, .readDomain h.obj handle 0]⟩
    | none => ⟨s, [], []⟩
  | .readDomain o handle waitCount =>
    ⟨s, [o], if out.switched = 0 then [.untrack o, .handleDelete handle]
      else if 3 ≤ waitCount + 1 then [] else [.readDomain o handle (waitCount + 1)]⟩
  | .untrack o =>
    ⟨s.rknpuDkmsUntrackGemObj o, if ∃ r ∈ s.ranges, r.obj = o then [o] else [], []⟩
  | .handleDelete handle =>
    ⟨(s.drmGemHandleDelete file handle).2, ((s.find file handle).map GemHandle.obj).toList, []⟩

/-! ## Runs -/

structure LookupState where
  gem : GemState
  hist : List (ℕ × Bool)
  threads : List (List LookupOp)

/-- A thread calls an ioctl of the driver or closes a handle, or thread `tid` runs its next
block. -/
inductive LookupLabel where
  | memCreate (args : RknpuMemCreate)
  | memDestroy (handle : ℕ)
  | gemClose (handle : ℕ)
  | exec (tid : ℕ) (out : LookupOutcome)

def LookupState.call (s : LookupState) (op : LookupOp) : LookupState :=
  { s with threads := s.threads ++ [[op]] }

/-- The state after thread `tid` has run `op`. -/
def LookupState.after (s : LookupState) (file tid : ℕ) (out : LookupOutcome) (op : LookupOp)
    (rest : List LookupOp) : LookupState :=
  let eff := lookupExec file s.gem out op
  { gem := eff.gem
    hist := s.hist ++ eff.accessed.map fun o => (o, s.gem.refs.freed o)
    threads := advance s.threads tid eff.ops rest }

def lookupStep (file : ℕ) (s : LookupState) : LookupLabel → Option LookupState
  | .memCreate args => some (s.call (.memCreate args))
  | .memDestroy handle => some (s.call (.memDestroy handle))
  | .gemClose handle => some (s.call (.handleDelete handle))
  | .exec tid out =>
    match nextBlock s.threads tid with
    | none => none
    | some (op, rest) =>
      if s.gem.Unused file out.handle then some (s.after file tid out op rest) else none

/-- All histories of a DRM file without handles. -/
def lookupSystem (file : ℕ) : System LookupState LookupLabel where
  init s := ∃ objs, s = ⟨⟨objs, 0, .empty, [], [], [], []⟩, [], []⟩
  step := lookupStep file

/-- The object the ioctl that waits to run this block has still to access, outside a reference
of its own. -/
def LookupOp.reads : LookupOp → Option ℕ
  | .fillSize _ o | .fillSramSize _ o | .fillDmaAddr _ o | .trackCheck o | .trackFill o
  | .readDomain o _ _ => some o
  | .trackGet r => some r.obj
  | _ => none

/-- The handles and entries of the objects. -/
def GemState.keepers (s : GemState) : Multiset ℕ :=
  holders GemHandle.obj s.handles + holders RknpuDkmsGemRange.obj s.ranges

/-- Some MEM_CREATE or MEM_DESTROY has looked the object up and has still to access it. -/
def LookupState.lookedUp (s : LookupState) (o : ℕ) : Bool :=
  s.threads.flatten.any fun op => op.reads = some o

/-- **A handle or entry of an object that is looked up is not the last one that is removed.** -/
def KeepsLookedUp (file : ℕ) (s : LookupState) : LookupLabel → Prop
  | .exec tid _ =>
    match nextBlock s.threads tid with
    | some (.untrack o, _) =>
      o ∈ s.gem.ranges.map RknpuDkmsGemRange.obj → s.lookedUp o = true →
        1 < s.gem.keepers.count o
    | some (.handleDelete handle, _) =>
      ∀ h ∈ s.gem.find file handle, s.lookedUp h.obj = true → 1 < s.gem.keepers.count h.obj
    | _ => True
  | _ => True

instance (file : ℕ) (s : LookupState) (label : LookupLabel) :
    Decidable (KeepsLookedUp file s label) := by
  unfold KeepsLookedUp
  split
  · split <;> infer_instance
  · infer_instance

/-! ## References -/

/-- The reference a block that waits to run still has to put, or to give to an entry. -/
def LookupOp.temps : LookupOp → Multiset ℕ
  | .findPut o | .allocPut o => {o}
  | .trackLocked r => {r.obj}
  | _ => 0

def LookupState.temps (s : LookupState) : Multiset ℕ :=
  (pending s.threads).bind LookupOp.temps

/-- The counts are exact, an object that is looked up has a handle or an entry, and no access so
far was to a freed object. -/
structure Held (s : LookupState) : Prop where
  exact : s.gem.refs.Exact (· < s.gem.numObjs) (s.gem.keepers + s.temps)
  kept : ∀ op ∈ pending s.threads, ∀ o, op.reads = some o → o ∈ s.gem.keepers
  alive : ∀ x ∈ s.hist, x.2 = false

section
variable {s t : LookupState} {file tid : ℕ} {out : LookupOutcome} {op : LookupOp}
  {rest : List LookupOp} {o : ℕ}

theorem lookedUp_eq_true (h : op ∈ pending s.threads) (hreads : op.reads = some o) :
    s.lookedUp o = true := by
  unfold LookupState.lookedUp
  exact List.any_eq_true.mpr ⟨op, h, by simpa using hreads⟩

theorem Held.freed_eq_false (hs : Held s) (ho : o ∈ s.gem.keepers + s.temps) :
    s.gem.refs.freed o = false := hs.exact.alive ho

/-- One block, from what it does to the references (`T` are those of the other blocks). -/
theorem Held.after (hs : Held s) (hnext : nextBlock s.threads tid = some (op, rest))
    (hexact : ∀ T, s.gem.refs.Exact (· < s.gem.numObjs) (s.gem.keepers + (op.temps + T)) →
      (lookupExec file s.gem out op).gem.refs.Exact
        (· < (lookupExec file s.gem out op).gem.numObjs)
        ((lookupExec file s.gem out op).gem.keepers +
          (((lookupExec file s.gem out op).ops : Multiset LookupOp).bind LookupOp.temps + T)))
    (haccess : ∀ o ∈ (lookupExec file s.gem out op).accessed, o ∈ s.gem.keepers + s.temps)
    (hreads : ∀ y ∈ (lookupExec file s.gem out op).ops, ∀ o, y.reads = some o →
      o ∈ (lookupExec file s.gem out op).gem.keepers)
    (hkeep : ∀ o, s.lookedUp o = true → o ∈ s.gem.keepers →
      o ∈ (lookupExec file s.gem out op).gem.keepers) : Held (s.after file tid out op rest) := by
  obtain ⟨others, hop, hadv⟩ := pending_advance hnext
  have hafter : pending (s.after file tid out op rest).threads =
      ((lookupExec file s.gem out op).ops : Multiset LookupOp) + others := hadv _
  have htemps : s.temps = op.temps + others.bind LookupOp.temps := by
    unfold LookupState.temps
    rw [hop, Multiset.cons_bind]
  refine ⟨?_, fun y hy o hyo => ?_, fun x hx => ?_⟩
  · have hT := hexact (others.bind LookupOp.temps) (htemps ▸ hs.exact)
    unfold LookupState.temps
    rw [hafter, Multiset.add_bind]
    exact hT
  · rw [hafter, Multiset.mem_add, Multiset.mem_coe] at hy
    obtain hy | hy := hy
    · exact hreads y hy o hyo
    · have hmem : y ∈ pending s.threads := hop ▸ Multiset.mem_cons_of_mem hy
      exact hkeep o (lookedUp_eq_true hmem hyo) (hs.kept y hmem o hyo)
  · obtain hx | hx := List.mem_append.mp hx
    · exact hs.alive x hx
    · obtain ⟨o, ho, rfl⟩ := List.mem_map.mp hx
      exact hs.freed_eq_false (haccess o ho)

theorem Held.read (hs : Held s) (hnext : nextBlock s.threads tid = some (op, rest))
    (hgem : (lookupExec file s.gem out op).gem = s.gem) (hop : op.temps = 0)
    (haccess : ∀ o ∈ (lookupExec file s.gem out op).accessed, op.reads = some o)
    (hcalls : ∀ y ∈ (lookupExec file s.gem out op).ops, y.temps = 0 ∧
      ∀ o, y.reads = some o → op.reads = some o) : Held (s.after file tid out op rest) := by
  have hmem := mem_pending_of_nextBlock hnext
  have hzero : (((lookupExec file s.gem out op).ops : Multiset LookupOp).bind
      LookupOp.temps) = 0 := by
    rw [Multiset.eq_zero_iff_forall_notMem]
    intro x hx
    obtain ⟨y, hy, hxy⟩ := Multiset.mem_bind.mp hx
    rw [(hcalls y hy).1] at hxy
    exact Multiset.notMem_zero x hxy
  refine hs.after hnext (fun T hT => ?_) (fun o ho => ?_) (fun y hy o hyo => ?_)
    fun o _ ho => ?_
  · rw [hgem, hzero, ← hop]
    exact hT
  · exact Multiset.mem_add.mpr (Or.inl (hs.kept op hmem o (haccess o ho)))
  · rw [hgem]
    exact hs.kept op hmem o ((hcalls y hy).2 o hyo)
  · rw [hgem]
    exact ho

theorem Held.putTemp (hs : Held s) (hnext : nextBlock s.threads tid = some (op, rest))
    (hop : op.temps = {o}) (hgem : (lookupExec file s.gem out op).gem = s.gem.put o)
    (haccess : (lookupExec file s.gem out op).accessed = [o])
    (hops : (lookupExec file s.gem out op).ops = []) : Held (s.after file tid out op rest) := by
  have hmem := mem_pending_of_nextBlock hnext
  refine hs.after hnext (fun T hT => ?_) (fun x hx => ?_) (fun y hy => ?_) fun x _ hx => ?_
  · rw [hop, Multiset.singleton_add, Multiset.add_cons] at hT
    rw [hgem, hops, Multiset.coe_nil, Multiset.zero_bind, Multiset.zero_add]
    exact hT.put
  · rw [haccess, List.mem_singleton] at hx
    subst hx
    refine Multiset.mem_add.mpr (Or.inr (Multiset.mem_bind.mpr ⟨op, hmem, ?_⟩))
    rw [hop]
    exact Multiset.mem_singleton_self x
  · rw [hops] at hy
    cases hy
  · rw [hgem]
    exact hx

theorem bind_pair (a b : LookupOp) : (([a, b] : List LookupOp) : Multiset LookupOp).bind
    LookupOp.temps = a.temps + b.temps := by
  simp [← Multiset.cons_coe]

theorem mem_keepers_of_find {g : GemState} {handle : ℕ} {h : GemHandle}
    (hfind : g.find file handle = some h) : h.obj ∈ g.keepers :=
  Multiset.mem_add.mpr (Or.inl ((mem_holders _).mpr ⟨h, List.mem_of_find?_eq_some hfind, rfl⟩))

theorem Held.lookup {handle : ℕ} {h : GemHandle} (hs : Held s) (next : LookupOp)
    (hnext : nextBlock s.threads tid = some (op, rest))
    (hfind : s.gem.find file handle = some h) (hop : op.temps = 0)
    (hexec : lookupExec file s.gem out op = ⟨s.gem.get h.obj, [h.obj], [.findPut h.obj, next]⟩)
    (hnexttemps : next.temps = 0) (hnextreads : next.reads = some h.obj) :
    Held (s.after file tid out op rest) := by
  have hkeeper := mem_keepers_of_find hfind
  refine hs.after hnext (fun T hT => ?_) (fun x hx => ?_) (fun y hy x hyx => ?_)
    fun x _ hx => ?_
  · have hget := hT.get (Multiset.mem_add.mpr (Or.inl hkeeper))
    rw [hop, Multiset.zero_add, ← Multiset.add_cons] at hget
    rw [hexec, bind_pair, hnexttemps, Multiset.add_zero]
    exact hget
  · rw [hexec, List.mem_singleton] at hx
    rw [hx]
    exact Multiset.mem_add.mpr (Or.inl hkeeper)
  · rw [hexec] at hy ⊢
    simp only [List.mem_cons, List.not_mem_nil, or_false] at hy
    obtain rfl | rfl := hy
    · cases hyx
    · rw [hnextreads] at hyx
      cases hyx
      exact hkeeper
  · rw [hexec]
    exact hx

theorem Held.createNew {args : RknpuMemCreate} (hs : Held s)
    (hnext : nextBlock s.threads tid = some (.createNew args, rest)) :
    Held (s.after file tid out (.createNew args) rest) := by
  obtain ⟨created, handle, kzallocOk, switched⟩ := out
  have hquiet : ∀ T, s.gem.refs.Exact (· < s.gem.numObjs)
      (s.gem.keepers + ((LookupOp.createNew args).temps + T)) →
        s.gem.refs.Exact (· < s.gem.numObjs) (s.gem.keepers + T) := by
    intro T hT
    rw [← Multiset.zero_add T]
    exact hT
  cases created with
  | error e =>
    exact hs.read hnext rfl rfl (fun o ho => by cases ho) fun y hy => by cases hy
  | ok obj =>
    have hinit : ∀ T, s.gem.refs.Exact (· < s.gem.numObjs) (s.gem.keepers + T) →
        s.gem.numObjs ∉ s.gem.keepers + T ∧
          (s.gem.refs.alloc s.gem.numObjs).Exact (· < s.gem.numObjs + 1)
            (s.gem.numObjs ::ₘ (s.gem.keepers + T)) := by
      intro T hT
      refine ⟨fun hmem => lt_irrefl _ (hT.known_of_mem _ hmem), ?_⟩
      exact hT.alloc (lt_irrefl _) fun x => Nat.lt_succ_iff_lt_or_eq
    cases handle with
    | error e =>
      refine hs.after hnext (fun T hT => ?_) (fun o ho => by cases ho) (fun y hy => by cases hy)
        fun o _ ho => ho
      obtain ⟨hnew, halloc⟩ := hinit T (hquiet T hT)
      show Refs.Exact _ _ (_ + ((([] : List LookupOp) : Multiset LookupOp).bind _ + T))
      rw [Multiset.coe_nil, Multiset.zero_bind, Multiset.zero_add]
      exact halloc.destroy hnew
    | ok h =>
      have hkeepers : (lookupExec file s.gem ⟨.ok obj, .ok h, kzallocOk, switched⟩
          (.createNew args)).gem.keepers = s.gem.numObjs ::ₘ s.gem.keepers := by
        show holders _ (s.gem.handles ++ [⟨file, h, s.gem.numObjs⟩]) + _ = _
        rw [holders_snoc, Multiset.cons_add]
        rfl
      refine hs.after hnext (fun T hT => ?_) (fun o ho => by cases ho) (fun y hy o hyo => ?_)
        fun o _ ho => ?_
      · obtain ⟨-, halloc⟩ := hinit T (hquiet T hT)
        have hget := halloc.get (Multiset.mem_cons_self _ _)
        rw [hkeepers]
        show Refs.Exact _ _ (_ + (((([_, _] : List LookupOp) : Multiset LookupOp).bind _) + T))
        rw [bind_pair]
        show Refs.Exact _ _ (_ + (({s.gem.numObjs} + 0) + T))
        rw [Multiset.add_zero, Multiset.singleton_add, Multiset.add_cons, Multiset.cons_add]
        exact hget
      · rw [hkeepers]
        have hy' : y = .allocPut s.gem.numObjs ∨
            y = .fillSize { args with handle := h } s.gem.numObjs := by
          simpa [lookupExec] using hy
        obtain rfl | rfl := hy'
        · cases hyo
        · cases hyo
          exact Multiset.mem_cons_self _ _
      · rw [hkeepers]
        exact Multiset.mem_cons_of_mem ho

theorem Held.trackGet {r : RknpuDkmsGemRange} (hs : Held s)
    (hnext : nextBlock s.threads tid = some (.trackGet r, rest)) :
    Held (s.after file tid out (.trackGet r) rest) := by
  have hmem := mem_pending_of_nextBlock hnext
  have hkeeper := hs.kept _ hmem r.obj rfl
  refine hs.after hnext (fun T hT => ?_) (fun x hx => ?_) (fun y hy x hyx => ?_)
    fun x _ hx => hx
  · have hget := hT.get (Multiset.mem_add.mpr (Or.inl hkeeper))
    rw [← Multiset.add_cons] at hget
    have hzero : (LookupOp.trackGet r).temps + T = T := Multiset.zero_add T
    rw [hzero] at hget
    have hbind : (((lookupExec file s.gem out (.trackGet r)).ops : Multiset LookupOp).bind
        LookupOp.temps) + T = r.obj ::ₘ T := by
      simp [lookupExec, LookupOp.temps]
    rw [hbind]
    exact hget
  · cases List.mem_singleton.mp hx
    exact Multiset.mem_add.mpr (Or.inl hkeeper)
  · cases List.mem_singleton.mp hy
    cases hyx

theorem Held.trackLocked {r : RknpuDkmsGemRange} (hs : Held s)
    (hnext : nextBlock s.threads tid = some (.trackLocked r, rest)) :
    Held (s.after file tid out (.trackLocked r) rest) := by
  by_cases hdup : ∃ pos ∈ s.gem.ranges, pos.obj = r.obj
  · have hexec : lookupExec file s.gem out (.trackLocked r) = ⟨s.gem.put r.obj, [r.obj], []⟩ :=
      if_pos hdup
    exact hs.putTemp (o := r.obj) hnext rfl (by rw [hexec]) (by rw [hexec]) (by rw [hexec])
  · have hexec : lookupExec file s.gem out (.trackLocked r) =
        ⟨{ s.gem with ranges := s.gem.ranges ++ [r] }, [], []⟩ := if_neg hdup
    have hkeepers : GemState.keepers { s.gem with ranges := s.gem.ranges ++ [r] } =
        r.obj ::ₘ s.gem.keepers := by
      show _ + holders _ (s.gem.ranges ++ [r]) = _
      rw [holders_snoc, Multiset.add_cons]
      rfl
    refine hs.after hnext (fun T hT => ?_) (fun x hx => ?_) (fun y hy => ?_) fun x _ hx => ?_
    · rw [hexec, hkeepers, Multiset.coe_nil, Multiset.zero_bind, Multiset.zero_add,
        Multiset.cons_add, ← Multiset.add_cons, ← Multiset.singleton_add]
      exact hT
    · rw [hexec] at hx
      cases hx
    · rw [hexec] at hy
      cases hy
    · rw [hexec, hkeepers]
      exact Multiset.mem_cons_of_mem hx

theorem Held.drop (hs : Held s) (hnext : nextBlock s.threads tid = some (op, rest))
    (hop : op.temps = 0)
    (hkeepers : s.gem.keepers = o ::ₘ (lookupExec file s.gem out op).gem.keepers)
    (hrefs : (lookupExec file s.gem out op).gem.refs = s.gem.refs.put o)
    (hnum : (lookupExec file s.gem out op).gem.numObjs = s.gem.numObjs)
    (haccess : (lookupExec file s.gem out op).accessed = [o])
    (hops : (lookupExec file s.gem out op).ops = [])
    (hok : s.lookedUp o = true → 1 < s.gem.keepers.count o) :
    Held (s.after file tid out op rest) := by
  refine hs.after hnext (fun T hT => ?_) (fun x hx => ?_) (fun y hy => ?_) fun x hlooked hx => ?_
  · rw [hop, Multiset.zero_add, hkeepers, Multiset.cons_add] at hT
    rw [hrefs, hnum, hops, Multiset.coe_nil, Multiset.zero_bind, Multiset.zero_add]
    exact hT.put
  · rw [haccess, List.mem_singleton] at hx
    rw [hx, hkeepers]
    exact Multiset.mem_add.mpr (Or.inl (Multiset.mem_cons_self _ _))
  · rw [hops] at hy
    cases hy
  · by_cases hxo : x = o
    · subst hxo
      have hcount := hok hlooked
      rw [hkeepers, Multiset.count_cons_self] at hcount
      exact Multiset.count_pos.mp (by omega)
    · rw [hkeepers] at hx
      exact (Multiset.mem_cons.mp hx).resolve_left hxo

theorem Held.idle (hs : Held s) (hnext : nextBlock s.threads tid = some (op, rest))
    (hexec : lookupExec file s.gem out op = ⟨s.gem, [], []⟩) (hop : op.temps = 0) :
    Held (s.after file tid out op rest) := by
  refine hs.read hnext (by rw [hexec]) hop (fun x hx => ?_) fun y hy => ?_
  · rw [hexec] at hx
    cases hx
  · rw [hexec] at hy
    cases hy

theorem Held.untrack (hs : Held s) (hnext : nextBlock s.threads tid = some (.untrack o, rest))
    (hok : o ∈ s.gem.ranges.map RknpuDkmsGemRange.obj → s.lookedUp o = true →
      1 < s.gem.keepers.count o) : Held (s.after file tid out (.untrack o) rest) := by
  cases hfind : s.gem.ranges.find? fun r => r.obj = o with
  | none =>
    have hno : ¬ ∃ r ∈ s.gem.ranges, r.obj = o := by
      rintro ⟨r, hr, hro⟩
      exact List.find?_eq_none.mp hfind r hr (by simpa using hro)
    have hexec : lookupExec file s.gem out (.untrack o) = ⟨s.gem, [], []⟩ := by
      simp only [lookupExec, GemState.rknpuDkmsUntrackGemObj, hfind]
      rw [if_neg hno]
    exact hs.idle hnext hexec rfl
  | some r =>
    have hr : r ∈ s.gem.ranges := List.mem_of_find?_eq_some hfind
    have hro : r.obj = o := by simpa using List.find?_some hfind
    have hexec : lookupExec file s.gem out (.untrack o) =
        ⟨{ s.gem.put o with ranges := s.gem.ranges.erase r }, [o], []⟩ := by
      simp only [lookupExec, GemState.rknpuDkmsUntrackGemObj, hfind]
      rw [if_pos ⟨r, hr, hro⟩]
    apply hs.drop (o := o) hnext rfl
    · rw [hexec]
      show holders _ _ + holders _ s.gem.ranges = _
      rw [holders_erase _ hr, hro, Multiset.add_cons]
      rfl
    · rw [hexec]
      rfl
    · rw [hexec]
      rfl
    · rw [hexec]
    · rw [hexec]
    · exact hok (List.mem_map.mpr ⟨r, hr, hro⟩)

theorem Held.handleDelete {handle : ℕ} (hs : Held s)
    (hnext : nextBlock s.threads tid = some (.handleDelete handle, rest))
    (hok : ∀ h ∈ s.gem.find file handle, s.lookedUp h.obj = true →
      1 < s.gem.keepers.count h.obj) :
    Held (s.after file tid out (.handleDelete handle) rest) := by
  cases hfind : s.gem.find file handle with
  | none =>
    have hexec : lookupExec file s.gem out (.handleDelete handle) = ⟨s.gem, [], []⟩ := by
      simp only [lookupExec, GemState.drmGemHandleDelete, hfind]
      rfl
    exact hs.idle hnext hexec rfl
  | some h =>
    have hmem : h ∈ s.gem.handles := List.mem_of_find?_eq_some hfind
    have hexec : lookupExec file s.gem out (.handleDelete handle) =
        ⟨{ s.gem.put h.obj with handles := s.gem.handles.erase h }, [h.obj], []⟩ := by
      simp only [lookupExec, GemState.drmGemHandleDelete, hfind]
      rfl
    apply hs.drop (o := h.obj) hnext rfl
    · rw [hexec]
      show holders _ s.gem.handles + _ = _
      rw [holders_erase _ hmem, Multiset.cons_add]
      rfl
    · rw [hexec]
      rfl
    · rw [hexec]
      rfl
    · rw [hexec]
    · rw [hexec]
    · exact hok h hfind

theorem Held.exec (hs : Held s) (hnext : nextBlock s.threads tid = some (op, rest))
    (hok : KeepsLookedUp file s (.exec tid out)) : Held (s.after file tid out op rest) := by
  simp only [KeepsLookedUp, hnext] at hok
  cases op with
  | memCreate args =>
    cases hfind : s.gem.find file args.handle with
    | some h =>
      refine hs.lookup (.fillSize args h.obj) hnext hfind rfl ?_ rfl rfl
      simp only [lookupExec, hfind]
    | none =>
      have hexec : lookupExec file s.gem out (.memCreate args) =
          ⟨s.gem, [], [.createNew args]⟩ := by
        simp only [lookupExec, hfind]
      refine hs.read hnext (by rw [hexec]) rfl (fun x hx => ?_) fun y hy => ?_
      · rw [hexec] at hx
        cases hx
      · rw [hexec] at hy
        cases List.mem_singleton.mp hy
        exact ⟨rfl, fun x hx => by cases hx⟩
  | memDestroy handle =>
    cases hfind : s.gem.find file handle with
    | some h =>
      refine hs.lookup (.readDomain h.obj handle 0) hnext hfind rfl ?_ rfl rfl
      simp only [lookupExec, hfind]
    | none =>
      have hexec : lookupExec file s.gem out (.memDestroy handle) = ⟨s.gem, [], []⟩ := by
        simp only [lookupExec, hfind]
      exact hs.idle hnext hexec rfl
  | createNew args => exact hs.createNew hnext
  | findPut o | allocPut o => exact hs.putTemp (o := o) hnext rfl rfl rfl rfl
  | fillSize args o | fillSramSize args o | trackFill o =>
    refine hs.read hnext rfl rfl (fun x hx => ?_) fun y hy => ?_
    · cases List.mem_singleton.mp hx
      rfl
    · cases List.mem_singleton.mp hy
      exact ⟨rfl, fun _ hx => hx⟩
  | fillDmaAddr args o =>
    refine hs.read hnext rfl rfl (fun x hx => ?_) fun y hy => ?_
    · cases List.mem_singleton.mp hx
      rfl
    · simp only [lookupExec, List.mem_cons, List.not_mem_nil, or_false] at hy
      obtain rfl | rfl := hy
      · exact ⟨rfl, fun _ hx => hx⟩
      · exact ⟨rfl, fun _ hx => by cases hx⟩
  | trackCheck o =>
    refine hs.read hnext rfl rfl (fun x hx => ?_) fun y hy => ?_
    · cases List.mem_singleton.mp hx
      rfl
    · simp only [lookupExec] at hy
      split_ifs at hy
      · cases hy
      · cases List.mem_singleton.mp hy
        exact ⟨rfl, fun _ hx => hx⟩
  | readDomain o handle waitCount =>
    refine hs.read hnext rfl rfl (fun x hx => ?_) fun y hy => ?_
    · cases List.mem_singleton.mp hx
      rfl
    · simp only [lookupExec] at hy
      split_ifs at hy
      · simp only [List.mem_cons, List.not_mem_nil, or_false] at hy
        obtain rfl | rfl := hy <;> exact ⟨rfl, fun _ hx => by cases hx⟩
      · cases hy
      · cases List.mem_singleton.mp hy
        exact ⟨rfl, fun _ hx => hx⟩
  | copyOut args =>
    exact hs.read hnext rfl rfl (fun x hx => by cases hx) fun y hy => by cases hy
  | trackGet r => exact hs.trackGet hnext
  | trackLocked r => exact hs.trackLocked hnext
  | untrack o => exact hs.untrack hnext hok
  | handleDelete handle => exact hs.handleDelete hnext hok

theorem held_step {label : LookupLabel} (hs : Held s) (hok : KeepsLookedUp file s label)
    (h : lookupStep file s label = some t) : Held t := by
  have hcall : ∀ op : LookupOp, op.temps = 0 → op.reads = none → Held (s.call op) := by
    intro op htemps hreads
    have hpending : pending (s.call op).threads = pending s.threads + {op} := pending_spawn _ _
    refine ⟨?_, fun y hy o hyo => ?_, hs.alive⟩
    · have heq : (s.call op).temps = s.temps := by
        unfold LookupState.temps
        rw [hpending, Multiset.add_bind, Multiset.singleton_bind, htemps, Multiset.add_zero]
      rw [heq]
      exact hs.exact
    · rw [hpending, Multiset.mem_add, Multiset.mem_singleton] at hy
      obtain hy | rfl := hy
      · exact hs.kept y hy o hyo
      · rw [hreads] at hyo
        cases hyo
  cases label with
  | memCreate args =>
    cases h
    exact hcall _ rfl rfl
  | memDestroy handle | gemClose handle =>
    cases h
    exact hcall _ rfl rfl
  | exec tid out =>
    simp only [lookupStep] at h
    split at h
    · cases h
    · rename_i op rest hnext
      split_ifs at h
      cases h
      exact hs.exec hnext hok

end

/-- **Lookups hold what they use, on every run in which no last handle or entry of an object that
is looked up goes**: no access of an ioctl is to a freed object. -/
theorem looked_up_alive {file : ℕ} {s : LookupState}
    (hs : ((lookupSystem file).guarded (KeepsLookedUp file)).Reachable s) :
    ∀ x ∈ s.hist, x.2 = false := by
  have hheld : Held s := by
    refine hs.invariant Held ?_ fun s label t hs h => ?_
    · rintro s ⟨objs, rfl⟩
      refine ⟨?_, fun op hop => absurd hop (Multiset.notMem_zero op), fun x hx => by cases hx⟩
      exact Refs.Exact.empty _ Nat.not_lt_zero
    · obtain ⟨hok, hstep⟩ := System.guarded_step.mp h
      exact held_step hs hok hstep
  exact hheld.alive

/-- What the kernel's functions return when a page is allocated and gets the handle `1`. -/
def pageCreated : LookupOutcome := ⟨.ok ⟨4096, 0, 4096⟩, .ok 1, true, 0⟩

/-- What they return to an ioctl on a handle. -/
def handleFound : LookupOutcome := ⟨.error (-enomem), .error (-enomem), true, 0⟩

/-- A MEM_CREATE of a new object, by thread `0`. -/
def createsPage : List LookupLabel :=
  [.memCreate ⟨0, 0, 4096, 0, 0, 0, 0, 0⟩, .exec 0 handleFound, .exec 0 pageCreated] ++
    List.replicate 9 (.exec 0 handleFound)

/-- A MEM_CREATE on the handle runs between the steps of a MEM_DESTROY. -/
theorem looked_up_alive_tracked : ∃ s,
    ((lookupSystem 0).guarded (KeepsLookedUp 0)).Reachable s ∧ s.hist.length = 21 ∧
      ∀ x ∈ s.hist, x.2 = false := by
  obtain ⟨s, hs, h⟩ := System.Reachable.of_run_any
    (S := (lookupSystem 0).guarded (KeepsLookedUp 0)) (p := fun s => decide (s.hist.length = 21))
    (l := createsPage ++ [.memDestroy 1] ++ List.replicate 3 (.exec 1 handleFound) ++
      [.memCreate ⟨1, 0, 4096, 0, 0, 0, 0, 0⟩] ++ List.replicate 10 (.exec 2 handleFound) ++
      List.replicate 2 (.exec 1 handleFound))
    ⟨fun _ => ⟨0, 0, 0⟩, rfl⟩ (by decide +kernel)
  exact ⟨s, hs, of_decide_eq_true h, looked_up_alive hs⟩

/-- A whole MEM_DESTROY runs between the lookup of a MEM_CREATE, or of another MEM_DESTROY, and
its first read of the object. -/
theorem looked_up_freed :
    (∃ s, (lookupSystem 0).Reachable s ∧ (0, true) ∈ s.hist) ∧
      ∃ s, (lookupSystem 0).Reachable s ∧ s.gem.refs.freed 0 = true ∧
        nextBlock s.threads 1 = some (.readDomain 0 1 0, []) := by
  constructor
  · obtain ⟨s, hs, h⟩ := System.Reachable.of_run_any (S := lookupSystem 0)
      (p := fun s => decide ((0, true) ∈ s.hist))
      (l := createsPage ++ [.memCreate ⟨1, 0, 4096, 0, 0, 0, 0, 0⟩, .exec 1 handleFound,
        .exec 1 handleFound, .memDestroy 1] ++ List.replicate 5 (.exec 2 handleFound) ++
        [.exec 1 handleFound]) ⟨fun _ => ⟨0, 0, 0⟩, rfl⟩ (by decide +kernel)
    exact ⟨s, hs, of_decide_eq_true h⟩
  · obtain ⟨s, hs, h⟩ := System.Reachable.of_run_any (S := lookupSystem 0)
      (p := fun s => decide (s.gem.refs.freed 0 = true ∧
        nextBlock s.threads 1 = some (.readDomain 0 1 0, [])))
      (l := createsPage ++ [.memDestroy 1, .exec 1 handleFound, .exec 1 handleFound,
        .memDestroy 1] ++ List.replicate 5 (.exec 2 handleFound))
      ⟨fun _ => ⟨0, 0, 0⟩, rfl⟩ (by decide +kernel)
    exact ⟨s, hs, of_decide_eq_true h⟩

end RknpuDriver.Gem
