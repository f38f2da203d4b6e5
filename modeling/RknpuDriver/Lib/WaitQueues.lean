import Mathlib.Data.List.Basic
import Mathlib.Logic.Function.Basic

/-! # Wait queues

Threads sleep on queues until a condition of their own holds. A thread first goes on its queue, then
looks at its condition, and sleeps if it does not hold; a wake-up of a queue sends every thread on
it back to look again. Whoever makes a condition true owes a wake-up of the thread's queue and may
come to it later.

* `WaitStage`, `WaitQueues`, `waitStep`: where each thread is in its wait, and the steps of a wait.
* `Attended`: a thread that will not look again by itself does not wait for what is there already,
  unless a wake-up of its queue is owed.

`Attended` survives every step of a wait and every change of the conditions by someone who owes the
wake-up (`Attended.raise`); once nobody owes one, no thread rests with a true condition
(`Attended.unowed`).
-/

namespace RknpuDriver.Lib
set_option autoImplicit false

/-- `prepared`: on the queue, and about to look at the condition. `checked`: it was false, and the
thread is about to sleep. -/
inductive WaitStage where
  | running
  | prepared
  | checked
  | asleep
  deriving DecidableEq, Repr

/-- The thread does not look at its condition again before a wake-up. -/
def WaitStage.resting : WaitStage → Bool
  | .checked | .asleep => true
  | _ => false

/-- The threads `W` and the wake-ups that are owed, of the queues `Q`. -/
structure WaitQueues (W Q : Type) where
  stage : W → WaitStage
  wakes : List Q

inductive WaitLabel (W Q : Type) where
  | prepare (w : W)
  | check (w : W)
  | sleep (w : W)
  | wake (q : Q)

section
variable {W Q : Type} [DecidableEq W] [DecidableEq Q]

def wakeUp (queue : W → Q) (q : Q) (stage : W → WaitStage) : W → WaitStage :=
  fun w => if queue w = q then .running else stage w

def waitStep (queue : W → Q) (cond : W → Bool) (s : WaitQueues W Q) :
    WaitLabel W Q → Option (WaitQueues W Q)
  | .prepare w =>
    if s.stage w = .running then
      some { s with stage := Function.update s.stage w .prepared }
    else none
  | .check w =>
    if s.stage w = .prepared ∧ cond w = false then
      some { s with stage := Function.update s.stage w .checked }
    else none
  | .sleep w =>
    if s.stage w = .checked then
      some { s with stage := Function.update s.stage w .asleep }
    else none
  | .wake q =>
    if q ∈ s.wakes then some ⟨wakeUp queue q s.stage, s.wakes.erase q⟩ else none

end

/-- A thread that rests with a true condition has a wake-up of its queue coming. -/
def Attended {W Q : Type} (queue : W → Q) (cond : W → Bool) (owed : Q → Prop)
    (stage : W → WaitStage) : Prop :=
  ∀ w, (stage w).resting = true → cond w = true → owed (queue w)

section
variable {W Q : Type} {queue queue' : W → Q} {cond cond' : W → Bool} {owed owed' : Q → Prop}
  {stage stage' : W → WaitStage}

theorem attended_running : Attended queue cond owed fun _ => .running := by
  intro w hrest
  cases hrest

/-- Conditions that become true owe their wake-ups, and no wake-up that is owed is forgotten. -/
theorem Attended.raise (h : Attended queue cond owed stage)
    (hstage : ∀ w, (stage' w).resting = true →
      (stage w).resting = true ∧ queue' w = queue w ∧
        (cond' w = true → cond w = true ∨ owed' (queue w)))
    (howed : ∀ q, owed q → owed' q) : Attended queue' cond' owed' stage' := by
  intro w hrest hcond
  obtain ⟨hrest, hqueue, hraise⟩ := hstage w hrest
  rw [hqueue]
  obtain hcond | hnew := hraise hcond
  · exact howed _ (h w hrest hcond)
  · exact hnew

theorem Attended.unowed (h : Attended queue cond owed stage) (hnone : ∀ q, ¬ owed q) {w : W}
    (hrest : (stage w).resting = true) : cond w = false := by
  cases hcond : cond w with
  | false => rfl
  | true => exact absurd (h w hrest hcond) (hnone _)

section
variable [DecidableEq W]

theorem Attended.look (h : Attended queue cond owed stage) {w : W} {g : WaitStage}
    (hg : g.resting = false) : Attended queue cond owed (Function.update stage w g) := by
  intro v hrest hcond
  rw [Function.update_apply] at hrest
  split_ifs at hrest with hv
  · rw [hg] at hrest
    cases hrest
  · exact h v hrest hcond

theorem Attended.rest (h : Attended queue cond owed stage) {w : W} {g : WaitStage}
    (hw : cond w = true → owed (queue w)) :
    Attended queue cond owed (Function.update stage w g) := by
  intro v hrest hcond
  rw [Function.update_apply] at hrest
  split_ifs at hrest with hv
  · subst hv
    exact hw hcond
  · exact h v hrest hcond

end

variable [DecidableEq Q]

theorem Attended.wakeUp (h : Attended queue cond owed stage) {q : Q}
    (howed : ∀ p, p ≠ q → owed p → owed' p) :
    Attended queue cond owed' (wakeUp queue q stage) := by
  intro w hrest hcond
  unfold Lib.wakeUp at hrest
  split_ifs at hrest with hq
  · cases hrest
  · exact howed _ hq (h w hrest hcond)

variable [DecidableEq W]

/-- The steps of the waiting threads and the wake-ups, with other wake-ups owed elsewhere. -/
theorem Attended.step {s t : WaitQueues W Q} {label : WaitLabel W Q} {others : Q → Prop}
    (h : Attended queue cond (fun q => q ∈ s.wakes ∨ others q) s.stage)
    (hstep : waitStep queue cond s label = some t) :
    Attended queue cond (fun q => q ∈ t.wakes ∨ others q) t.stage := by
  cases label with
  | prepare w =>
    simp only [waitStep] at hstep
    split_ifs at hstep
    cases hstep
    exact h.look rfl
  | check w =>
    simp only [waitStep] at hstep
    split_ifs at hstep with hcheck
    cases hstep
    apply h.rest
    intro hcond
    rw [hcheck.2] at hcond
    cases hcond
  | sleep w =>
    simp only [waitStep] at hstep
    split_ifs at hstep with hchecked
    cases hstep
    apply h.rest
    intro hcond
    refine h w ?_ hcond
    rw [hchecked]
    rfl
  | wake q =>
    simp only [waitStep] at hstep
    split_ifs at hstep
    cases hstep
    refine h.wakeUp fun p hp => ?_
    exact Or.imp_left fun hmem => (List.mem_erase_of_ne hp).mpr hmem

theorem stage_step {s t : WaitQueues W Q} {label : WaitLabel W Q}
    (hstep : waitStep queue cond s label = some t) {w : W} (hw : t.stage w ≠ .running) :
    s.stage w ≠ .running ∨ label = .prepare w := by
  cases label with
  | prepare v =>
    simp only [waitStep] at hstep
    split_ifs at hstep
    cases hstep
    simp only [Function.update_apply] at hw
    split_ifs at hw with hv
    · rw [hv]
      exact Or.inr rfl
    · exact Or.inl hw
  | check v =>
    simp only [waitStep] at hstep
    split_ifs at hstep with hcheck
    cases hstep
    simp only [Function.update_apply] at hw
    split_ifs at hw with hv
    · rw [hv, hcheck.1]
      exact Or.inl nofun
    · exact Or.inl hw
  | sleep v =>
    simp only [waitStep] at hstep
    split_ifs at hstep with hchecked
    cases hstep
    simp only [Function.update_apply] at hw
    split_ifs at hw with hv
    · rw [hv, hchecked]
      exact Or.inl nofun
    · exact Or.inl hw
  | wake q =>
    simp only [waitStep] at hstep
    split_ifs at hstep
    cases hstep
    simp only [wakeUp] at hw
    split_ifs at hw with hq
    · exact absurd rfl hw
    · exact Or.inl hw

end
end RknpuDriver.Lib
