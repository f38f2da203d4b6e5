import RknpuDriver.Lib.System
import Mathlib.Logic.Function.Basic
import Mathlib.Tactic.SplitIfs

/-! # A cache, and a device that does not look into it

A CPU behind a write-back cache and a device share a memory. The cache fills and evicts lines when
it likes; the device reads and writes the memory alone, so the software has to clean and to discard
lines. Each line belongs to the CPU or to the device, and only its owner writes to it. A transfer
runs maintenance operations and then changes owners.

* `lines_maintain`, `mem_maintain`: of the operations that reach a line, the first decides whether
  its writes are saved.
* `Coherent`: what a line holds is what was written last, by whomever.
* `reads_iff`: every owner reads what was written last, through a whole run, exactly when no
  transfer discards a line before it saves its writes.
-/

namespace RknpuDriver.Lib
set_option autoImplicit false

/-! ## The cache -/

inductive LineState where
  | absent
  | clean
  | dirty
  deriving DecidableEq

/-- `copy` is what the cache holds of the lines that are not absent. -/
structure Cached (A L V : Type) where
  mem : A → V
  copy : A → V
  lines : L → LineState

/-- `clean` writes a dirty line back, `discard` forgets a line, `flush` does the one and then the
other. -/
inductive LineOp where
  | clean
  | flush
  | discard
  deriving DecidableEq

def LineOp.saves : LineOp → Bool
  | .discard => false
  | _ => true

def LineOp.after : LineOp → LineState → LineState
  | .clean, .absent => .absent
  | .clean, _ => .clean
  | _, _ => .absent

/-- An operation on all lines that satisfy a condition. -/
structure Maintenance (L : Type) where
  op : LineOp
  on : L → Bool

variable {A L V : Type} (line : A → L)

def Maintenance.apply (m : Maintenance L) (c : Cached A L V) : Cached A L V where
  mem a := if m.on (line a) && c.lines (line a) = .dirty && m.op.saves then c.copy a else c.mem a
  copy := c.copy
  lines l := if m.on l then m.op.after (c.lines l) else c.lines l

def maintain : List (Maintenance L) → Cached A L V → Cached A L V
  | [], c => c
  | m :: ms, c => maintain ms (m.apply line c)

/-- The operations that reach a line, in order. -/
def reaching (ms : List (Maintenance L)) (l : L) : List LineOp :=
  (ms.filter fun m => m.on l).map Maintenance.op

/-- What the CPU reads. -/
def Cached.read (c : Cached A L V) (a : A) : V :=
  if c.lines (line a) = .absent then c.mem a else c.copy a

section
variable {line} {c : Cached A L V} {m : Maintenance L} {ms : List (Maintenance L)} {l : L} {a : A}

theorem reaching_cons (m : Maintenance L) (ms : List (Maintenance L)) (l : L) :
    reaching (m :: ms) l = if m.on l then m.op :: reaching ms l else reaching ms l := by
  unfold reaching
  rw [List.filter_cons]
  split_ifs
  · rfl
  · rfl

theorem reaching_append (ms ms' : List (Maintenance L)) (l : L) :
    reaching (ms ++ ms') l = reaching ms l ++ reaching ms' l := by
  unfold reaching
  rw [List.filter_append, List.map_append]

theorem mem_reaching {op : LineOp} : op ∈ reaching ms l ↔ ∃ m ∈ ms, m.on l = true ∧ m.op = op := by
  unfold reaching
  simp only [List.mem_map, List.mem_filter, and_assoc]

@[simp] theorem copy_maintain (ms : List (Maintenance L)) (c : Cached A L V) :
    (maintain line ms c).copy = c.copy := by
  induction ms generalizing c with
  | nil => rfl
  | cons m ms ih =>
    rw [maintain, ih]
    rfl

theorem lines_maintain (ms : List (Maintenance L)) (c : Cached A L V) (l : L) :
    (maintain line ms c).lines l =
      (reaching ms l).foldl (fun state op => op.after state) (c.lines l) := by
  induction ms generalizing c with
  | nil => rfl
  | cons m ms ih =>
    rw [maintain, ih, reaching_cons]
    show List.foldl _ (if m.on l then m.op.after (c.lines l) else c.lines l) _ = _
    split_ifs
    · rfl
    · rfl

theorem after_ne_dirty (op : LineOp) (state : LineState) : op.after state ≠ .dirty := by
  cases op <;> cases state <;> exact LineState.noConfusion

theorem foldl_after_absent (ops : List LineOp) :
    ops.foldl (fun state op => op.after state) .absent = .absent := by
  induction ops with
  | nil => rfl
  | cons op ops ih =>
    have habsent : op.after .absent = .absent := by cases op <;> rfl
    rw [List.foldl_cons, habsent, ih]

theorem foldl_after_ne_dirty {state : LineState} (ops : List LineOp) (hstate : state ≠ .dirty) :
    ops.foldl (fun state op => op.after state) state ≠ .dirty := by
  induction ops generalizing state with
  | nil => exact hstate
  | cons op ops ih => exact ih (after_ne_dirty op state)

theorem lines_ne_dirty (h : reaching ms l ≠ []) : (maintain line ms c).lines l ≠ .dirty := by
  rw [lines_maintain]
  cases hops : reaching ms l with
  | nil => exact absurd hops h
  | cons op ops => exact foldl_after_ne_dirty ops (after_ne_dirty op _)

theorem lines_absent {op : LineOp} (hop : op ∈ reaching ms l) (hne : op ≠ .clean) :
    (maintain line ms c).lines l = .absent := by
  rw [lines_maintain]
  generalize c.lines l = state
  generalize reaching ms l = ops at hop
  induction ops generalizing state with
  | nil => exact absurd hop List.not_mem_nil
  | cons x ops ih =>
    rw [List.foldl_cons]
    obtain rfl | hop := List.mem_cons.mp hop
    · have habsent : op.after state = .absent := by
        cases op <;> first | exact absurd rfl hne | rfl
      rw [habsent, foldl_after_absent]
    · exact ih _ hop

/-- The first operation that reaches a dirty line decides whether it is written back. -/
theorem mem_maintain (ms : List (Maintenance L)) (c : Cached A L V) (a : A) :
    (maintain line ms c).mem a =
      if c.lines (line a) = .dirty ∧ ((reaching ms (line a)).head?.any LineOp.saves) = true
      then c.copy a else c.mem a := by
  induction ms generalizing c with
  | nil =>
    rw [if_neg]
    · rfl
    · exact fun h => Bool.false_ne_true h.2
  | cons m ms ih =>
    rw [maintain, ih, reaching_cons]
    by_cases hon : m.on (line a) = true
    · have hlines : (m.apply line c).lines (line a) ≠ .dirty := by
        show (if m.on (line a) then m.op.after (c.lines (line a)) else _) ≠ _
        rw [if_pos hon]
        exact after_ne_dirty _ _
      rw [if_neg fun h => hlines h.1, if_pos hon]
      show (if m.on (line a) && c.lines (line a) = .dirty && m.op.saves then c.copy a
        else c.mem a) = _
      rw [hon, List.head?_cons, Option.any_some, Bool.true_and]
      by_cases hdirty : c.lines (line a) = .dirty
      · simp [hdirty]
      · simp [hdirty]
    · have hlines : (m.apply line c).lines (line a) = c.lines (line a) := if_neg hon
      have hmem : (m.apply line c).mem a = c.mem a := by
        show (if m.on (line a) && c.lines (line a) = .dirty && m.op.saves then c.copy a
          else c.mem a) = _
        rw [(Bool.not_eq_true _).mp hon]
        rfl
      rw [hlines, hmem, if_neg hon]
      rfl

theorem lines_unreached (h : reaching ms l = []) :
    (maintain line ms c).lines l = c.lines l := by
  rw [lines_maintain, h]
  rfl

theorem mem_unreached (h : reaching ms (line a) = []) :
    (maintain line ms c).mem a = c.mem a := by
  rw [mem_maintain, h, if_neg]
  exact fun hsaved => Bool.false_ne_true hsaved.2

end

/-! ## Owners -/

inductive Owner where
  | cpu
  | device
  deriving DecidableEq

/-- `last` is what was written last to an address. -/
structure SharedMemory (A L V : Type) where
  cached : Cached A L V
  owner : L → Owner
  last : A → V

/-- Maintenance, and the lines that go to the device and to the CPU. -/
structure Handover (L : Type) where
  ops : List (Maintenance L)
  toDevice : L → Bool
  toCpu : L → Bool

/-- The device gets no dirty lines, and the CPU gets lines that are not in the cache. -/
structure Handover.Sound (t : Handover L) : Prop where
  toDevice : ∀ l, t.toDevice l = true → t.toCpu l = false → reaching t.ops l ≠ []
  toCpu : ∀ l, t.toCpu l = true → ∃ op ∈ reaching t.ops l, op ≠ .clean

def Handover.apply (t : Handover L) (s : SharedMemory A L V) : SharedMemory A L V where
  cached := maintain line t.ops s.cached
  owner l := if t.toCpu l then .cpu else if t.toDevice l then .device else s.owner l
  last := s.last

/-- Every owner reads what was written last. -/
structure Reads (s : SharedMemory A L V) : Prop where
  cpu : ∀ a, s.owner (line a) = .cpu → s.cached.read line a = s.last a
  device : ∀ a, s.owner (line a) = .device → s.cached.mem a = s.last a

/-- A dirty line holds what was written last, the memory does for the others; the cache does not
differ from the memory in a clean line of the CPU, and the device has no dirty lines. -/
structure Coherent (s : SharedMemory A L V) : Prop where
  value : ∀ a, (if s.cached.lines (line a) = .dirty then s.cached.copy a else s.cached.mem a) =
    s.last a
  clean : ∀ a, s.owner (line a) = .cpu → s.cached.lines (line a) = .clean →
    s.cached.copy a = s.cached.mem a
  device : ∀ l, s.owner l = .device → s.cached.lines l ≠ .dirty

/-- The line has writes that the memory does not have. -/
def Cached.Unsaved (c : Cached A L V) (l : L) : Prop :=
  c.lines l = .dirty ∧ ∃ a, line a = l ∧ c.copy a ≠ c.mem a

section
variable {line} {s : SharedMemory A L V} {a : A}

theorem Coherent.reads (hs : Coherent line s) : Reads line s where
  cpu a howner := by
    have hvalue := hs.value a
    unfold Cached.read
    cases hstate : s.cached.lines (line a) with
    | absent =>
      rw [hstate, if_neg LineState.noConfusion] at hvalue
      rw [if_pos rfl, hvalue]
    | clean =>
      rw [hstate, if_neg LineState.noConfusion] at hvalue
      rw [if_neg LineState.noConfusion, hs.clean a howner hstate, hvalue]
    | dirty =>
      rw [hstate, if_pos rfl] at hvalue
      rw [if_neg LineState.noConfusion, hvalue]
  device a howner := by
    have hvalue := hs.value a
    rw [if_neg (hs.device _ howner)] at hvalue
    exact hvalue

theorem Coherent.devWrite [DecidableEq A] {v : V} (hs : Coherent line s)
    (howner : s.owner (line a) = .device) :
    Coherent line { s with
      cached := { s.cached with mem := Function.update s.cached.mem a v }
      last := Function.update s.last a v } where
  value b := by
    show (if s.cached.lines (line b) = .dirty then s.cached.copy b
      else Function.update s.cached.mem a v b) = Function.update s.last a v b
    obtain rfl | hab := eq_or_ne b a
    · rw [if_neg (hs.device _ howner), Function.update_self, Function.update_self]
    · rw [Function.update_of_ne hab, Function.update_of_ne hab]
      exact hs.value b
  clean b hcpu hclean := by
    have hab : b ≠ a := by
      rintro rfl
      cases howner.symm.trans hcpu
    show s.cached.copy b = Function.update s.cached.mem a v b
    rw [Function.update_of_ne hab]
    exact hs.clean b hcpu hclean
  device := hs.device

/-- What the memory holds after maintenance that saves what is unsaved. -/
theorem Coherent.mem_maintain (hs : Coherent line s) {ms : List (Maintenance L)}
    (hsaves : ∀ l, s.cached.Unsaved line l → (reaching ms l).head? ≠ some .discard)
    (hreach : reaching ms (line a) ≠ []) : (maintain line ms s.cached).mem a = s.last a := by
  have hvalue := hs.value a
  rw [Lib.mem_maintain]
  by_cases hdirty : s.cached.lines (line a) = .dirty
  · rw [if_pos hdirty] at hvalue
    split_ifs with hsaved
    · exact hvalue
    · by_contra hne
      refine hsaves (line a) ⟨hdirty, a, rfl, fun heq => hne (heq.symm.trans hvalue)⟩ ?_
      cases hops : reaching ms (line a) with
      | nil => exact absurd hops hreach
      | cons op ops =>
        rw [hops] at hsaved
        cases op with
        | discard => rfl
        | _ => exact absurd ⟨hdirty, rfl⟩ hsaved
  · rw [if_neg hdirty] at hvalue
    rw [if_neg fun h => hdirty h.1, hvalue]

theorem Coherent.maintain (hs : Coherent line s) {ms : List (Maintenance L)}
    (hsaves : ∀ l, s.cached.Unsaved line l → (reaching ms l).head? ≠ some .discard) :
    Coherent line { s with cached := maintain line ms s.cached } where
  value a := by
    show (if (Lib.maintain line ms s.cached).lines (line a) = .dirty then
      (Lib.maintain line ms s.cached).copy a else (Lib.maintain line ms s.cached).mem a) = _
    by_cases hreach : reaching ms (line a) = []
    · rw [lines_unreached hreach, mem_unreached hreach, copy_maintain]
      exact hs.value a
    · rw [if_neg (lines_ne_dirty hreach), hs.mem_maintain hsaves hreach]
  clean a hcpu hclean := by
    show (Lib.maintain line ms s.cached).copy a = (Lib.maintain line ms s.cached).mem a
    replace hclean : (Lib.maintain line ms s.cached).lines (line a) = .clean := hclean
    rw [copy_maintain]
    by_cases hreach : reaching ms (line a) = []
    · rw [lines_unreached hreach] at hclean
      rw [mem_unreached hreach]
      exact hs.clean a hcpu hclean
    · rw [hs.mem_maintain hsaves hreach]
      have hread := hs.reads.cpu a hcpu
      unfold Cached.read at hread
      rw [if_neg] at hread
      · exact hread
      · intro habsent
        rw [lines_maintain, habsent, foldl_after_absent] at hclean
        cases hclean
  device l hdevice := by
    show (Lib.maintain line ms s.cached).lines l ≠ .dirty
    rw [lines_maintain]
    exact foldl_after_ne_dirty _ (hs.device l hdevice)

/-- **A request** that saves what is unsaved and hands over as it should. -/
theorem Coherent.handover (hs : Coherent line s) {h : Handover L} (hsound : h.Sound)
    (hsaves : ∀ l, s.cached.Unsaved line l → (reaching h.ops l).head? ≠ some .discard) :
    Coherent line (h.apply line s) where
  value := (hs.maintain hsaves).value
  clean a howner hclean := by
    replace howner : (if h.toCpu (line a) then Owner.cpu else
      if h.toDevice (line a) then .device else s.owner (line a)) = .cpu := howner
    split_ifs at howner with hcpu hdevice
    · obtain ⟨op, hop, hne⟩ := hsound.toCpu _ hcpu
      have habsent : (Lib.maintain line h.ops s.cached).lines (line a) = .absent :=
        lines_absent hop hne
      cases habsent.symm.trans hclean
    · exact (hs.maintain hsaves).clean a howner hclean
  device l howner := by
    replace howner : (if h.toCpu l then Owner.cpu else
      if h.toDevice l then .device else s.owner l) = .device := howner
    split_ifs at howner with hcpu hdevice
    · exact lines_ne_dirty (hsound.toDevice l hdevice ((Bool.not_eq_true _).mp hcpu))
    · exact (hs.maintain hsaves).device l howner

/-- What a request discards without saving it is read by nobody any more. -/
theorem Coherent.handover_only (hs : Coherent line s) {h : Handover L}
    (hreads : Reads line (h.apply line s)) :
    ∀ l, s.cached.Unsaved line l → (reaching h.ops l).head? ≠ some .discard := by
  rintro l ⟨hdirty, a, rfl, hne⟩ hhead
  have hmem : (Lib.maintain line h.ops s.cached).mem a = s.cached.mem a := by
    rw [Lib.mem_maintain, if_neg]
    rintro ⟨-, hany⟩
    rw [hhead] at hany
    cases hany
  have habsent : (Lib.maintain line h.ops s.cached).lines (line a) = .absent :=
    lines_absent (List.mem_of_head? hhead) LineOp.noConfusion
  have hvalue := hs.value a
  rw [if_pos hdirty] at hvalue
  refine hne (hvalue.trans ?_)
  rw [← hmem]
  cases howner : (h.apply line s).owner (line a) with
  | cpu =>
    have hread := hreads.cpu a howner
    have hmiss : (h.apply line s).cached.read line a = (Lib.maintain line h.ops s.cached).mem a :=
      if_pos habsent
    exact hread.symm.trans hmiss
  | device => exact (hreads.device a howner).symm

end

/-! ## Runs -/

variable [DecidableEq L]

def Cached.fill (c : Cached A L V) (l : L) : Cached A L V :=
  if c.lines l = .absent then
    { c with
      copy := fun a => if line a = l then c.mem a else c.copy a
      lines := Function.update c.lines l .clean }
  else c

section
variable {line} {s : SharedMemory A L V} {l : L} {a : A}

theorem Coherent.fill_copy (hs : Coherent line s) (howner : s.owner (line a) = .cpu) :
    (s.cached.fill line (line a)).copy a = s.last a := by
  have hread := hs.reads.cpu a howner
  unfold Cached.read at hread
  unfold Cached.fill
  split_ifs with habsent
  · rw [if_pos habsent] at hread
    exact (if_pos rfl).trans hread
  · rw [if_neg habsent] at hread
    exact hread

theorem fill_copy_of_ne {c : Cached A L V} (hne : line a ≠ l) :
    (c.fill line l).copy a = c.copy a := by
  unfold Cached.fill
  split_ifs
  · exact if_neg hne
  · rfl

theorem Coherent.fill (hs : Coherent line s) (l : L) :
    Coherent line { s with cached := s.cached.fill line l } := by
  unfold Cached.fill
  split_ifs with habsent
  · refine ⟨fun b => ?_, fun b hcpu hclean => ?_, fun k hdevice => ?_⟩
    · have hvalue := hs.value b
      show (if Function.update s.cached.lines l .clean (line b) = .dirty then
        (if line b = l then s.cached.mem b else s.cached.copy b) else s.cached.mem b) = s.last b
      obtain rfl | hne := eq_or_ne (line b) l
      · rw [habsent, if_neg LineState.noConfusion] at hvalue
        rw [Function.update_self, if_neg LineState.noConfusion, hvalue]
      · rw [Function.update_of_ne hne, if_neg hne]
        exact hvalue
    · show (if line b = l then s.cached.mem b else s.cached.copy b) = s.cached.mem b
      obtain rfl | hne := eq_or_ne (line b) l
      · rw [if_pos rfl]
      · rw [if_neg hne]
        have hlines : Function.update s.cached.lines l .clean (line b) = .clean := hclean
        rw [Function.update_of_ne hne] at hlines
        exact hs.clean b hcpu hlines
    · show Function.update s.cached.lines l .clean k ≠ .dirty
      obtain rfl | hne := eq_or_ne k l
      · rw [Function.update_self]
        exact LineState.noConfusion
      · rw [Function.update_of_ne hne]
        exact hs.device k hdevice
  · exact hs

end

variable [DecidableEq A]

/-- A write of the CPU fetches its line first. -/
def Cached.write (c : Cached A L V) (a : A) (v : V) : Cached A L V where
  mem := c.mem
  copy := Function.update (c.fill line (line a)).copy a v
  lines := Function.update c.lines (line a) .dirty

/-- A write of the CPU or of the device, a line that the cache fills or evicts, or a request. -/
inductive SharedLabel (A L V R : Type) where
  | cpuWrite (a : A) (v : V)
  | devWrite (a : A) (v : V)
  | fill (l : L)
  | evict (l : L)
  | request (r : R)

def evicting (l : L) : List (Maintenance L) := [⟨.flush, fun x => x = l⟩]

variable {R : Type} (handover : R → Handover L)

def sharedStep (s : SharedMemory A L V) : SharedLabel A L V R → Option (SharedMemory A L V)
  | .cpuWrite a v =>
    if s.owner (line a) = .cpu then
      some { s with
        cached := s.cached.write line a v
        last := Function.update s.last a v }
    else none
  | .devWrite a v =>
    if s.owner (line a) = .device then
      some { s with
        cached := { s.cached with mem := Function.update s.cached.mem a v }
        last := Function.update s.last a v }
    else none
  | .fill l => some { s with cached := s.cached.fill line l }
  | .evict l => some { s with cached := maintain line (evicting l) s.cached }
  | .request r => some ((handover r).apply line s)

/-- A request does not begin by discarding a line that has unsaved writes. -/
def Saves (s : SharedMemory A L V) : SharedLabel A L V R → Prop
  | .request r => ∀ l, s.cached.Unsaved line l →
      (reaching (handover r).ops l).head? ≠ some .discard
  | _ => True

def sharedSystem (init : SharedMemory A L V → Prop) :
    System (SharedMemory A L V) (SharedLabel A L V R) where
  init := init
  step := sharedStep line handover

section
variable {line handover} {s t : SharedMemory A L V} {l : L} {a : A} {v : V}

theorem Coherent.cpuWrite (hs : Coherent line s) (howner : s.owner (line a) = .cpu) :
    Coherent line { s with
      cached := s.cached.write line a v
      last := Function.update s.last a v } where
  value b := by
    show (if Function.update s.cached.lines (line a) .dirty (line b) = .dirty then
      Function.update (s.cached.fill line (line a)).copy a v b else s.cached.mem b) =
        Function.update s.last a v b
    obtain heq | hne := eq_or_ne (line b) (line a)
    · rw [heq, Function.update_self, if_pos rfl]
      obtain rfl | hab := eq_or_ne b a
      · rw [Function.update_self, Function.update_self]
      · rw [Function.update_of_ne hab, Function.update_of_ne hab, ← heq]
        exact hs.fill_copy (by rw [heq]; exact howner)
    · have hab : b ≠ a := fun hab => hne (by rw [hab])
      rw [Function.update_of_ne hne, Function.update_of_ne hab, Function.update_of_ne hab,
        fill_copy_of_ne hne]
      exact hs.value b
  clean b hcpu hclean := by
    have hne : line b ≠ line a := by
      intro heq
      have hdirty : Function.update s.cached.lines (line a) .dirty (line b) = .clean := hclean
      rw [heq, Function.update_self] at hdirty
      cases hdirty
    have hab : b ≠ a := fun hab => hne (by rw [hab])
    have hlines : Function.update s.cached.lines (line a) .dirty (line b) = .clean := hclean
    rw [Function.update_of_ne hne] at hlines
    show Function.update (s.cached.fill line (line a)).copy a v b = _
    rw [Function.update_of_ne hab, fill_copy_of_ne hne]
    exact hs.clean b hcpu hlines
  device l hdevice := by
    have hne : l ≠ line a := by
      rintro rfl
      cases howner.symm.trans hdevice
    show Function.update s.cached.lines (line a) .dirty l ≠ .dirty
    rw [Function.update_of_ne hne]
    exact hs.device l hdevice

theorem Coherent.step (hs : Coherent line s) {label : SharedLabel A L V R}
    (hsound : ∀ r, (handover r).Sound) (hsaves : Saves line handover s label)
    (h : sharedStep line handover s label = some t) : Coherent line t := by
  cases label with
  | cpuWrite a v =>
    simp only [sharedStep] at h
    split_ifs at h with howner
    cases h
    exact hs.cpuWrite howner
  | devWrite a v =>
    simp only [sharedStep] at h
    split_ifs at h with howner
    cases h
    exact hs.devWrite howner
  | fill l =>
    cases h
    exact hs.fill l
  | evict l =>
    cases h
    apply hs.maintain
    intro k _
    unfold evicting
    rw [reaching_cons]
    split_ifs
    · exact fun h => LineOp.noConfusion (Option.some.inj h)
    · exact nofun
  | request r =>
    cases h
    exact hs.handover (hsound r) hsaves

/-- **Every owner reads what was written last**, through a whole run from a coherent state,
exactly when no request begins by discarding a line with unsaved writes. -/
theorem reads_iff {init : SharedMemory A L V → Prop} {labels : List (SharedLabel A L V R)}
    (hsound : ∀ r, (handover r).Sound) (hs : Coherent line s)
    (hrun : (sharedSystem line handover init).run s labels = some t) :
    (sharedSystem line handover init).Throughout (Reads line) s labels ↔
      (sharedSystem line handover init).EachStep (Saves line handover) s labels := by
  refine System.throughout_iff_of_kept (I := Coherent line) (fun _ => Coherent.reads)
    (fun s label t hs hsaves h => hs.step hsound hsaves h) ?_ hrun hs
  intro s label t hs h hreads
  cases label with
  | request r =>
    cases h
    exact hs.handover_only hreads
  | _ => trivial

end

end RknpuDriver.Lib
