import RknpuDriver.Gem.Objects

/-! # The entries of `rknpu_dkms_gem_ranges` and the objects they hold

MEM_CREATE enters an object in `rknpu_dkms_gem_ranges` and the entry holds a reference, which
MEM_DESTROY gives back before it closes the handle. The generic handle close, the close of the
DRM file and the last put of a job or of a dma-buf give back only their own reference.

* `Sound`: the counts are the references of the users and of the entries, an object has at most
  one entry, and an object with an entry has a user.
* `KeepsUser`: a step that does not untrack leaves the objects with an entry some user.
* `freed_with_last_user`: in runs of such steps an object is freed with its last user.
-/

namespace RknpuDriver.Gem
open RknpuDriver.Lib
set_option autoImplicit false

/-- The references of the handles, the jobs and the exported dma-bufs. -/
def GemState.users (s : GemState) : Multiset ℕ :=
  holders GemHandle.obj s.handles + holders id s.jobs + holders id s.primes

/-- The objects with an entry. -/
def GemState.tracked (s : GemState) : Multiset ℕ := holders RknpuDkmsGemRange.obj s.ranges

structure Sound (s : GemState) : Prop where
  exact : s.refs.Exact (· < s.numObjs) (s.users + s.tracked)
  single : s.tracked.Nodup
  backed : ∀ o ∈ s.tracked, o ∈ s.users

/-- The users' references that a step drops without a look at the entries. -/
def GemState.dropped (s : GemState) : GemLabel → List ℕ
  | .gemClose file handle => (s.find file handle).toList.map GemHandle.obj
  | .fileClose file => (s.handles.filter fun h => h.file = file).map GemHandle.obj
  | .primeRelease o => [o]
  | .jobFree o => [o]
  | _ => []

/-- An object with an entry keeps a user, unless it is MEM_DESTROY that drops the reference. -/
def KeepsUser (s : GemState) (label : GemLabel) : Prop :=
  ∀ o ∈ s.tracked, o ∈ s.dropped label → (s.dropped label).count o < s.users.count o

instance (s : GemState) (label : GemLabel) : Decidable (KeepsUser s label) := by
  unfold KeepsUser
  infer_instance

namespace Sound
variable {s t : GemState}

theorem take (hs : Sound s) {o : ℕ} (ho : o ∈ s.users + s.tracked)
    (hrefs : t.refs = s.refs.get o) (hnum : t.numObjs = s.numObjs) (hranges : t.ranges = s.ranges)
    (husers : t.users = o ::ₘ s.users) : Sound t := by
  have htracked : t.tracked = s.tracked := congrArg (holders _) hranges
  refine ⟨?_, htracked ▸ hs.single, fun x hx => ?_⟩
  · rw [hrefs, hnum, husers, htracked, Multiset.cons_add]
    exact hs.exact.get ho
  · rw [husers]
    exact Multiset.mem_cons_of_mem (hs.backed x (htracked ▸ hx))

theorem drop (hs : Sound s) (os : List ℕ) (hrefs : t.refs = s.refs.putAll os)
    (hnum : t.numObjs = s.numObjs) (hranges : t.ranges = s.ranges)
    (husers : s.users = os + t.users)
    (hkeep : ∀ o ∈ s.tracked, o ∈ os → os.count o < s.users.count o) : Sound t := by
  have htracked : t.tracked = s.tracked := congrArg (holders _) hranges
  refine ⟨?_, htracked ▸ hs.single, fun x hx => ?_⟩
  · rw [hrefs, hnum, htracked]
    have hexact := hs.exact
    rw [husers, Multiset.add_assoc] at hexact
    exact hexact.putAll
  · have hx : x ∈ s.tracked := htracked ▸ hx
    have hcount : s.users.count x = os.count x + t.users.count x := by
      rw [husers, Multiset.count_add, Multiset.coe_count]
    have hpos : 0 < s.users.count x := Multiset.count_pos.mpr (hs.backed x hx)
    rw [← Multiset.count_pos]
    by_cases hmem : x ∈ os
    · have := hkeep x hx hmem
      omega
    · have : os.count x = 0 := List.count_eq_zero.mpr hmem
      omega

theorem createWithHandle (hs : Sound s) (file : ℕ) (created : Except ℤ RknpuGemObject)
    (handle : Except ℤ ℕ) :
    Sound (s.createWithHandle file created handle).2 ∧
      ∀ h, (s.createWithHandle file created handle).1 = .ok h →
        s.numObjs ∈ (s.createWithHandle file created handle).2.users := by
  have hnew : s.numObjs ∉ s.users + s.tracked := fun hmem =>
    lt_irrefl _ (hs.exact.known_of_mem _ hmem)
  have hinit : ∀ obj, (s.rknpuGemInit obj).refs.Exact (· < s.numObjs + 1)
      (s.numObjs ::ₘ (s.users + s.tracked)) := fun obj =>
    hs.exact.alloc (lt_irrefl _) fun x => Nat.lt_succ_iff_lt_or_eq
  cases created with
  | error e => exact ⟨hs, fun h hh => by cases hh⟩
  | ok obj =>
    cases handle with
    | error e =>
      refine ⟨⟨?_, hs.single, hs.backed⟩, fun h hh => by cases hh⟩
      exact (hinit obj).destroy hnew
    | ok h =>
      have husers : (s.createWithHandle file (.ok obj) (.ok h)).2.users =
          s.numObjs ::ₘ s.users := by
        show holders _ (s.handles ++ [⟨file, h, s.numObjs⟩]) + _ + _ = _
        rw [holders_snoc, Multiset.cons_add, Multiset.cons_add]
        rfl
      refine ⟨⟨?_, hs.single, fun x hx => ?_⟩, fun _ _ => ?_⟩
      · rw [husers, Multiset.cons_add]
        exact ((hinit obj).get (Multiset.mem_cons_self _ _)).put
      · rw [husers]
        exact Multiset.mem_cons_of_mem (hs.backed x hx)
      · rw [husers]
        exact Multiset.mem_cons_self _ _

theorem track (hs : Sound s) {o : ℕ} (ho : o ∈ s.users) (kzallocOk : Bool) :
    Sound (s.rknpuDkmsTrackGemObj o kzallocOk) := by
  have hheld : o ∈ s.users + s.tracked := Multiset.mem_add.mpr (Or.inl ho)
  unfold GemState.rknpuDkmsTrackGemObj
  split_ifs with hnone hfail hdup
  · exact hs
  · exact hs
  · exact ⟨(hs.exact.get hheld).put, hs.single, hs.backed⟩
  · have hout : o ∉ s.tracked := fun hmem => hdup ((mem_holders _).mp hmem)
    have htracked : GemState.tracked { s.get o with
        ranges := s.ranges ++ [⟨o, (s.objs o).dmaAddr, (s.objs o).size⟩] } = o ::ₘ s.tracked :=
      holders_snoc _
    refine ⟨?_, ?_, fun x hx => ?_⟩
    · rw [htracked, Multiset.add_cons]
      exact hs.exact.get hheld
    · rw [htracked]
      exact Multiset.nodup_cons.mpr ⟨hout, hs.single⟩
    · rw [htracked] at hx
      obtain rfl | hx := Multiset.mem_cons.mp hx
      · exact ho
      · exact hs.backed x hx

theorem untrack (hs : Sound s) (o : ℕ) :
    Sound (s.rknpuDkmsUntrackGemObj o) ∧ o ∉ (s.rknpuDkmsUntrackGemObj o).tracked := by
  unfold GemState.rknpuDkmsUntrackGemObj
  cases hfind : s.ranges.find? fun r => r.obj = o with
  | none =>
    refine ⟨hs, fun hmem => ?_⟩
    obtain ⟨r, hr, hobj⟩ := (mem_holders _).mp hmem
    exact List.find?_eq_none.mp hfind r hr (by simpa using hobj)
  | some r =>
    have hr : r ∈ s.ranges := List.mem_of_find?_eq_some hfind
    have hobj : r.obj = o := by simpa using List.find?_some hfind
    have htracked : s.tracked = o ::ₘ holders RknpuDkmsGemRange.obj (s.ranges.erase r) := by
      rw [GemState.tracked, holders_erase _ hr, hobj]
    have hnodup := hs.single
    rw [htracked, Multiset.nodup_cons] at hnodup
    refine ⟨⟨?_, hnodup.2, fun x hx => ?_⟩, hnodup.1⟩
    · have hexact := hs.exact
      rw [htracked, Multiset.add_cons] at hexact
      exact hexact.put
    · apply hs.backed x
      rw [htracked]
      exact Multiset.mem_cons_of_mem hx

theorem close (hs : Sound s) {file handle : ℕ} (hkeep : KeepsUser s (.gemClose file handle)) :
    Sound (s.drmGemHandleDelete file handle).2 := by
  unfold GemState.drmGemHandleDelete
  cases hfind : s.find file handle with
  | none => exact hs
  | some h =>
    have hmem : h ∈ s.handles := List.mem_of_find?_eq_some hfind
    have hdropped : s.dropped (.gemClose file handle) = [h.obj] := by
      rw [GemState.dropped, hfind]
      rfl
    unfold KeepsUser at hkeep
    rw [hdropped] at hkeep
    refine hs.drop [h.obj] rfl rfl rfl ?_ hkeep
    rw [GemState.users, holders_erase _ hmem, Multiset.cons_add, Multiset.cons_add]
    rfl

theorem step (hs : Sound s) {label : GemLabel} (hkeep : KeepsUser s label)
    (hstep : gemStep s label = some t) : Sound t := by
  cases label with
  | memCreate file args created handle kzallocOk =>
    obtain ⟨-, ht⟩ := Option.ite_none_right_eq_some.mp hstep
    cases ht
    unfold GemState.rknpuGemCreateIoctl
    cases hfind : s.find file args.handle with
    | some h =>
      refine hs.track (Multiset.mem_add.mpr (Or.inl (Multiset.mem_add.mpr (Or.inl ?_)))) _
      exact (mem_holders _).mpr ⟨h, List.mem_of_find?_eq_some hfind, rfl⟩
    | none =>
      obtain ⟨hnew, huser⟩ := hs.createWithHandle file created handle
      generalize s.createWithHandle file created handle = made at hnew huser
      obtain ⟨_ | h, t⟩ := made
      · exact hnew
      · exact hnew.track (huser h rfl) _
  | memDestroy file handle =>
    cases hstep
    unfold GemState.rknpuGemDestroyIoctl
    cases hfind : s.find file handle with
    | none => exact hs
    | some h =>
      obtain ⟨hnew, hout⟩ := hs.untrack h.obj
      apply hnew.close
      intro o ho hdrop
      have hsame : (s.rknpuDkmsUntrackGemObj h.obj).find file handle = some h := by
        rw [← hfind]
        unfold GemState.rknpuDkmsUntrackGemObj
        split <;> rfl
      rw [GemState.dropped, hsame] at hdrop
      obtain rfl : o = h.obj := by simpa using hdrop
      exact absurd ho hout
  | gemClose file handle =>
    cases hstep
    exact hs.close hkeep
  | fileClose file =>
    cases hstep
    refine hs.drop (s.dropped (.fileClose file)) rfl rfl rfl ?_ hkeep
    rw [GemState.dropped, GemState.users, holders_filter _ fun h : GemHandle => h.file = file,
      Multiset.add_assoc, Multiset.add_assoc]
    simp only [GemState.users, GemState.drmGemRelease, decide_not, Multiset.add_assoc]
  | dumbCreate file created handle | primeImport file created handle =>
    obtain ⟨-, ht⟩ := Option.ite_none_right_eq_some.mp hstep
    cases ht
    exact (hs.createWithHandle file created handle).1
  | primeExport file handle =>
    obtain ⟨h, hfind, ht⟩ := Option.map_eq_some_iff.mp hstep
    cases ht
    unfold GemState.drmGemPrimeExport
    split_ifs with hdup
    · exact hs
    · have hmem : h.obj ∈ s.users + s.tracked := by
        apply Multiset.mem_add.mpr (Or.inl (Multiset.mem_add.mpr (Or.inl _)))
        apply Multiset.mem_add.mpr (Or.inl _)
        exact (mem_holders _).mpr ⟨h, List.mem_of_find?_eq_some hfind, rfl⟩
      refine hs.take hmem rfl rfl rfl ?_
      show _ + _ + holders id (s.primes ++ [h.obj]) = _
      rw [holders_snoc, Multiset.add_cons]
      rfl
  | primeOpen o file handle =>
    obtain ⟨⟨hmem, -⟩, ht⟩ := Option.ite_none_right_eq_some.mp hstep
    cases ht
    have huser : o ∈ s.users := Multiset.mem_add.mpr (Or.inr ((mem_holders _).mpr ⟨o, hmem, rfl⟩))
    refine hs.take (Multiset.mem_add.mpr (Or.inl huser)) rfl rfl rfl ?_
    show holders _ (s.handles ++ [⟨file, handle, o⟩]) + _ + _ = _
    rw [holders_snoc, Multiset.cons_add, Multiset.cons_add]
    rfl
  | primeRelease o =>
    obtain ⟨hmem, ht⟩ := Option.ite_none_right_eq_some.mp hstep
    cases ht
    refine hs.drop [o] rfl rfl rfl ?_ hkeep
    rw [GemState.users, holders_erase id hmem, Multiset.add_cons]
    rfl
  | submit o =>
    obtain ⟨⟨hlt, hlive⟩, ht⟩ := Option.ite_none_right_eq_some.mp hstep
    cases ht
    have hheld : o ∈ s.users + s.tracked := by
      by_contra hnone
      have hfreed := (hs.exact.released hlt hnone).2
      rw [hlive] at hfreed
      exact Bool.false_ne_true hfreed
    refine hs.take hheld rfl rfl rfl ?_
    show _ + holders id (s.jobs ++ [o]) + _ = _
    rw [holders_snoc, Multiset.add_cons, Multiset.cons_add]
    rfl
  | jobFree o =>
    obtain ⟨hmem, ht⟩ := Option.ite_none_right_eq_some.mp hstep
    cases ht
    refine hs.drop [o] rfl rfl rfl ?_ hkeep
    rw [GemState.users, holders_erase id hmem, Multiset.add_cons, Multiset.cons_add]
    rfl

end Sound

/-- **An object is freed with its last user** in every run whose generic handle closes, file
closes, job frees and dma-buf releases leave a user to each object with an entry. -/
theorem freed_with_last_user {s : GemState} (hs : (gemSystem.guarded KeepsUser).Reachable s)
    {o : ℕ} (ho : o < s.numObjs) (huser : o ∉ s.users) :
    s.refs.count o = 0 ∧ s.refs.freed o = true ∧ o ∉ s.tracked := by
  have hsound : Sound s := by
    refine hs.invariant Sound ?_ ?_
    · rintro s ⟨objs, rfl⟩
      refine ⟨Refs.Exact.empty _ Nat.not_lt_zero, Multiset.nodup_zero, fun o ho => ?_⟩
      exact absurd ho (Multiset.notMem_zero o)
    · intro s label t hs hstep
      obtain ⟨hkeep, hstep⟩ := System.guarded_step.mp hstep
      exact hs.step hkeep hstep
  have hout : o ∉ s.tracked := fun hmem => huser (hsound.backed o hmem)
  have hnone : o ∉ s.users + s.tracked := fun hmem => (Multiset.mem_add.mp hmem).elim huser hout
  obtain ⟨hcount, hfreed⟩ := hsound.exact.released ho hnone
  exact ⟨hcount, hfreed, hout⟩

/-- The state after a MEM_CREATE with handle 1 in file 0, and a second MEM_CREATE on it. -/
def shared : List GemLabel :=
  [.memCreate 0 ⟨0, 0, 4096, 0, 0, 0, 0, 0⟩ (.ok ⟨4096, 0, 0x80000000⟩) (.ok 1) true,
    .memCreate 0 ⟨1, 0, 4096, 0, 0, 0, 0, 0⟩ (.ok ⟨4096, 0, 0x90000000⟩) (.ok 2) true]

def GemState.opened : GemState := ⟨fun _ => ⟨0, 0, 0⟩, 0, .empty, [], [], [], []⟩

/-- A job holds the object beyond its MEM_DESTROY. -/
theorem freed_with_last_user_job : ∃ s, (gemSystem.guarded KeepsUser).Reachable s ∧
    s.numObjs = 1 ∧ s.refs.count 0 = 0 ∧ s.refs.freed 0 = true := by
  obtain ⟨s, hs, hp⟩ := System.Reachable.of_run_any (S := gemSystem.guarded KeepsUser)
    (s := .opened) (l := shared ++ [.submit 0, .memDestroy 0 1, .jobFree 0])
    (p := fun s => s.numObjs = 1 ∧ 0 ∉ s.users) ⟨_, rfl⟩ (by decide +kernel)
  obtain ⟨hnum, huser⟩ := of_decide_eq_true hp
  obtain ⟨hcount, hfreed, -⟩ := freed_with_last_user hs (by omega) huser
  exact ⟨s, hs, hnum, hcount, hfreed⟩

/-- The generic close of the only handle leaves the object with the reference of its entry. -/
theorem entry_keeps_object : ¬ ∀ s, gemSystem.Reachable s → ∀ o < s.numObjs, o ∉ s.users →
    s.refs.count o = 0 ∧ s.refs.freed o = true := by
  intro hall
  obtain ⟨s, hs, hp⟩ := System.Reachable.of_run_any (S := gemSystem) (s := .opened)
    (l := shared ++ [.gemClose 0 1])
    (p := fun s => s.numObjs = 1 ∧ 0 ∉ s.users ∧ s.refs.count 0 = 1 ∧ s.refs.freed 0 = false)
    ⟨_, rfl⟩ (by decide +kernel)
  obtain ⟨hnum, huser, hcount, -⟩ := of_decide_eq_true hp
  have hzero := (hall s hs 0 (by omega) huser).1
  omega

end RknpuDriver.Gem
