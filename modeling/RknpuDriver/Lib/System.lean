import Mathlib.Algebra.GroupWithZero.Nat

/-! # Labelled transition systems and their runs

A `System` takes a label (which step is taken, and with which outcome of everything the
system does not decide itself) to the state after the step, or to `none` when the step cannot
be taken. Determinism is no restriction: all nondeterminism is in the labels.

* `System.run`: the state after a list of labels; a run is a list of labels that runs.
* `System.Reachable`: the states at the end of some run from an initial state.
* `System.Reachable.invariant`: what holds initially and is kept by every step holds in every
  reachable state.
* `System.run_budget`: what the steps of a run use together, where a potential pays for it.
* `System.guarded`: the same system, taking only steps that meet a condition on the state
  before them. Its runs are the runs all of whose steps meet the condition.
-/

namespace RknpuDriver.Lib
set_option autoImplicit false

structure System (σ α : Type) where
  init : σ → Prop
  step : σ → α → Option σ

namespace System
variable {σ α : Type} (S : System σ α)

def run : σ → List α → Option σ
  | s, [] => some s
  | s, a :: as => (S.step s a).bind fun t => run t as

def Reachable (s : σ) : Prop := ∃ s₀ as, S.init s₀ ∧ S.run s₀ as = some s

/-- The system `S`, restricted to the steps that meet `P`. -/
def guarded (P : σ → α → Prop) [∀ s a, Decidable (P s a)] : System σ α where
  init := S.init
  step s a := if P s a then S.step s a else none

variable {S}

@[simp] theorem run_nil (s : σ) : S.run s [] = some s := rfl

theorem run_cons (s : σ) (a : α) (as : List α) :
    S.run s (a :: as) = (S.step s a).bind fun t => S.run t as := rfl

theorem run_append (s : σ) (as bs : List α) :
    S.run s (as ++ bs) = (S.run s as).bind fun t => S.run t bs := by
  induction as generalizing s with
  | nil => rfl
  | cons a as ih =>
    rw [List.cons_append, run_cons, run_cons, Option.bind_assoc]
    exact congrArg _ (funext ih)

theorem run_invariant {I : σ → Prop} (hstep : ∀ s a t, I s → S.step s a = some t → I t) :
    ∀ {as : List α} {s t : σ}, S.run s as = some t → I s → I t
  | [], s, t, h, hs => by
      cases h
      exact hs
  | a :: as, s, t, h, hs => by
      rw [run_cons, Option.bind_eq_some_iff] at h
      obtain ⟨u, hu, ht⟩ := h
      exact run_invariant hstep ht (hstep s a u hs hu)

theorem Reachable.init {s : σ} (h : S.init s) : S.Reachable s := ⟨s, [], h, rfl⟩

theorem Reachable.of_run {s t : σ} {as : List α} (hs : S.init s) (h : S.run s as = some t) :
    S.Reachable t := ⟨s, as, hs, h⟩

theorem Reachable.step {s t : σ} (h : S.Reachable s) {a : α} (ha : S.step s a = some t) :
    S.Reachable t := by
  obtain ⟨s₀, as, h0, hr⟩ := h
  refine ⟨s₀, as ++ [a], h0, ?_⟩
  rw [run_append, hr, Option.bind_some, run_cons, ha]
  rfl

theorem Reachable.invariant {s : σ} (h : S.Reachable s) (I : σ → Prop)
    (h0 : ∀ s, S.init s → I s) (hstep : ∀ s a t, I s → S.step s a = some t → I t) : I s := by
  obtain ⟨s₀, as, hi, hr⟩ := h
  exact run_invariant hstep hr (h0 s₀ hi)

theorem Reachable.map {τ β : Type} {T : System τ β} {f : σ → τ}
    (hinit : ∀ s, S.init s → T.init (f s)) (hstep : ∀ s a t, S.step s a = some t →
      f t = f s ∨ ∃ b, T.step (f s) b = some (f t)) {s : σ} (h : S.Reachable s) :
    T.Reachable (f s) := by
  refine h.invariant (fun s => T.Reachable (f s)) (fun s h0 => Reachable.init (hinit s h0)) ?_
  intro s a t hs ha
  obtain heq | ⟨b, hb⟩ := hstep s a t ha
  · rw [heq]
    exact hs
  · exact hs.step hb

theorem Reachable.of_run_any {s : σ} {l : List α} {p : σ → Bool} (hs : S.init s)
    (h : (S.run s l).any p = true) : ∃ t, S.Reachable t ∧ p t = true := by
  cases ht : S.run s l with
  | none =>
    rw [ht] at h
    cases h
  | some t =>
    rw [ht] at h
    exact ⟨t, Reachable.of_run hs ht, h⟩

/-- Where each step adds no more to a potential than it brings, less what it uses, a run uses no more
than the potential at its start and what its steps bring. -/
theorem run_budget {Φ : σ → Nat} {used brings : α → Nat} (hstep : ∀ s a t, S.Reachable s →
    S.step s a = some t → Φ t + used a ≤ Φ s + brings a) {as : List α} {s t : σ}
    (hs : S.Reachable s) (hrun : S.run s as = some t) :
    Φ t + (as.map used).sum ≤ Φ s + (as.map brings).sum := by
  induction as generalizing s with
  | nil =>
    cases hrun
    exact Nat.le_refl _
  | cons a as ih =>
    rw [run_cons, Option.bind_eq_some_iff] at hrun
    obtain ⟨u, hu, hrun⟩ := hrun
    have hfirst := hstep s a u hs hu
    have hrest := ih (hs.step hu) hrun
    rw [List.map_cons, List.map_cons, List.sum_cons, List.sum_cons]
    omega

section Throughout
variable (S)

/-- Every state of a run meets `I`. -/
def Throughout (I : σ → Prop) : σ → List α → Prop
  | s, [] => I s
  | s, a :: as => I s ∧ ∀ t, S.step s a = some t → Throughout I t as

/-- Every step of a run meets `P`. -/
def EachStep (P : σ → α → Prop) : σ → List α → Prop
  | _, [] => True
  | s, a :: as => P s a ∧ ∀ t, S.step s a = some t → EachStep P t as

variable {S} {I : σ → Prop} {P : σ → α → Prop}

theorem Throughout.first {s : σ} {as : List α} (h : S.Throughout I s as) : I s := by
  cases as with
  | nil => exact h
  | cons a as => exact h.1

/-- Where `I` lasts through a step just when the step meets `P`, it lasts through a run just when
all of its steps do. -/
theorem throughout_iff (hstep : ∀ s a t, I s → S.step s a = some t → (I t ↔ P s a))
    {as : List α} {s t : σ} (hrun : S.run s as = some t) (hs : I s) :
    S.Throughout I s as ↔ S.EachStep P s as := by
  induction as generalizing s with
  | nil => exact iff_of_true hs trivial
  | cons a as ih =>
    rw [run_cons, Option.bind_eq_some_iff] at hrun
    obtain ⟨u, hu, hrun⟩ := hrun
    constructor
    · rintro ⟨-, hrest⟩
      refine ⟨(hstep s a u hs hu).mp (hrest u hu).first, fun v hv => ?_⟩
      cases hu.symm.trans hv
      exact (ih hrun (hrest u hu).first).mp (hrest u hu)
    · rintro ⟨hp, hrest⟩
      refine ⟨hs, fun v hv => ?_⟩
      cases hu.symm.trans hv
      exact (ih hrun ((hstep s a u hs hu).mpr hp)).mpr (hrest u hu)

/-- The same where an invariant that is not itself observed lasts through the steps that meet `P`,
and what is observed does not come through any other step. -/
theorem throughout_iff_of_kept {R : σ → Prop} (hobserve : ∀ s, I s → R s)
    (hkeep : ∀ s a t, I s → P s a → S.step s a = some t → I t)
    (honly : ∀ s a t, I s → S.step s a = some t → R t → P s a)
    {as : List α} {s t : σ} (hrun : S.run s as = some t) (hs : I s) :
    S.Throughout R s as ↔ S.EachStep P s as := by
  induction as generalizing s with
  | nil => exact iff_of_true (hobserve s hs) trivial
  | cons a as ih =>
    rw [run_cons, Option.bind_eq_some_iff] at hrun
    obtain ⟨u, hu, hrun⟩ := hrun
    constructor
    · rintro ⟨-, hrest⟩
      have hp := honly s a u hs hu (hrest u hu).first
      refine ⟨hp, fun v hv => ?_⟩
      cases hu.symm.trans hv
      exact (ih hrun (hkeep s a u hs hp hu)).mp (hrest u hu)
    · rintro ⟨hp, hrest⟩
      refine ⟨hobserve s hs, fun v hv => ?_⟩
      cases hu.symm.trans hv
      exact (ih hrun (hkeep s a u hs hp hu)).mpr (hrest u hu)

theorem throughout_of_eachStep (hstep : ∀ s a t, I s → P s a → S.step s a = some t → I t)
    {as : List α} {s : σ} (hs : I s) (heach : S.EachStep P s as) : S.Throughout I s as := by
  induction as generalizing s with
  | nil => exact hs
  | cons a as ih =>
    obtain ⟨hp, hrest⟩ := heach
    exact ⟨hs, fun t ht => ih (hstep s a t hs hp ht) (hrest t ht)⟩

end Throughout

section Guarded
variable {P : σ → α → Prop} [∀ s a, Decidable (P s a)]

theorem guarded_step {s t : σ} {a : α} :
    (S.guarded P).step s a = some t ↔ P s a ∧ S.step s a = some t := by
  unfold guarded
  by_cases h : P s a <;> simp [h]

theorem Reachable.unguarded {s : σ} (h : (S.guarded P).Reachable s) : S.Reachable s := by
  refine h.invariant S.Reachable (fun s hs => Reachable.init hs) fun s a t hs ht => ?_
  exact hs.step (guarded_step.mp ht).2

end Guarded
end System
end RknpuDriver.Lib
