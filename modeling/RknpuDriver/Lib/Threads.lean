import Mathlib.Algebra.BigOperators.Group.Multiset.Basic
import Mathlib.Algebra.GroupWithZero.Nat
import Mathlib.Algebra.Order.Group.Multiset
import Mathlib.Data.Multiset.Count

/-! # Interleaved threads

A thread is the list of atomic blocks it still has to run. Running its first block replaces
the block by the blocks it calls for; the other threads do not move. Nothing depends on which
thread a block waits in, so invariants are stated over `pending`, the multiset of all waiting
blocks: one step takes one block out of it and puts the called blocks in.

`weigh w` adds up what the waiting blocks weigh. With the weight `1` on some blocks and `0` on
the others it counts blocks; a step changes it by what the block and the blocks it calls for
weigh.
-/

namespace RknpuDriver.Lib
set_option autoImplicit false

variable {Op : Type}

/-- All blocks that some thread still has to run. -/
def pending (threads : List (List Op)) : Multiset Op := (threads.flatten : Multiset Op)

/-- The next block of thread `tid`, and what it runs after it. -/
def nextBlock (threads : List (List Op)) (tid : ℕ) : Option (Op × List Op) :=
  match threads[tid]? with
  | some (op :: rest) => some (op, rest)
  | _ => none

/-- The threads after the first block of thread `tid` has called for `ops`. -/
def advance (threads : List (List Op)) (tid : ℕ) (ops rest : List Op) : List (List Op) :=
  threads.set tid (ops ++ rest)

@[simp] theorem pending_nil : pending ([] : List (List Op)) = 0 := rfl

theorem pending_cons (thread : List Op) (threads : List (List Op)) :
    pending (thread :: threads) = (thread : Multiset Op) + pending threads := by
  unfold pending
  rw [List.flatten_cons, Multiset.coe_add]

theorem pending_append (threads threads' : List (List Op)) :
    pending (threads ++ threads') = pending threads + pending threads' := by
  unfold pending
  rw [List.flatten_append, Multiset.coe_add]

theorem pending_spawn (threads : List (List Op)) (ops : List Op) :
    pending (threads ++ [ops]) = pending threads + (ops : Multiset Op) := by
  rw [pending_append]
  simp [pending]

theorem pending_advance {threads : List (List Op)} {tid : ℕ} {op : Op} {rest : List Op}
    (h : nextBlock threads tid = some (op, rest)) :
    ∃ others, pending threads = op ::ₘ others ∧
      ∀ ops, pending (advance threads tid ops rest) = (ops : Multiset Op) + others := by
  unfold nextBlock at h
  split at h
  · rename_i op' rest' hget
    cases h
    obtain ⟨hlt, helem⟩ := List.getElem?_eq_some_iff.mp hget
    have hsplit : threads = threads.take tid ++ (op :: rest) :: threads.drop (tid + 1) := by
      rw [← helem, List.getElem_cons_drop, List.take_append_drop]
    refine ⟨pending (threads.take tid) + (rest : Multiset Op) + pending (threads.drop (tid + 1)),
      ?_, fun ops => ?_⟩
    · calc pending threads
          = pending (threads.take tid) + pending ((op :: rest) :: threads.drop (tid + 1)) := by
            rw [← pending_append, ← hsplit]
        _ = _ := by rw [pending_cons, ← Multiset.cons_coe, Multiset.cons_add, Multiset.add_cons,
            add_assoc]
    · unfold advance
      rw [List.set_eq_take_append_cons_drop, if_pos hlt, pending_append, pending_cons,
        ← Multiset.coe_add]
      ac_rfl
  · cases h

theorem mem_pending_of_nextBlock {threads : List (List Op)} {tid : ℕ} {op : Op}
    {rest : List Op} (h : nextBlock threads tid = some (op, rest)) : op ∈ pending threads := by
  obtain ⟨others, hop, -⟩ := pending_advance h
  rw [hop]
  exact Multiset.mem_cons_self op others

theorem count_exec [DecidableEq Op] {todo todo' others : Multiset Op} {op : Op} {calls : List Op}
    (hop : todo = op ::ₘ others) (htodo : todo' = (calls : Multiset Op) + others) (x : Op) :
    todo'.count x + (if op = x then 1 else 0) = calls.count x + todo.count x := by
  have hswap : (if x = op then 1 else 0) = if op = x then 1 else 0 := if_congr eq_comm rfl rfl
  rw [hop, htodo, Multiset.count_add, Multiset.coe_count, Multiset.count_cons, hswap]
  omega

/-- What the waiting blocks weigh together. -/
def weigh (w : Op → ℕ) (threads : List (List Op)) : ℕ := ((pending threads).map w).sum

@[simp] theorem weigh_nil (w : Op → ℕ) : weigh w [] = 0 := rfl

theorem weigh_spawn (w : Op → ℕ) (threads : List (List Op)) (ops : List Op) :
    weigh w (threads ++ [ops]) = weigh w threads + (ops.map w).sum := by
  simp [weigh, pending_spawn]

theorem weigh_advance {threads : List (List Op)} {tid : ℕ} {op : Op} {rest : List Op}
    (h : nextBlock threads tid = some (op, rest)) (w : Op → ℕ) (ops : List Op) :
    weigh w (advance threads tid ops rest) + w op = weigh w threads + (ops.map w).sum := by
  obtain ⟨others, hop, hadv⟩ := pending_advance h
  rw [weigh, weigh, hop, hadv, Multiset.map_add, Multiset.sum_add, Multiset.map_cons,
    Multiset.sum_cons, Multiset.map_coe, Multiset.sum_coe]
  omega

theorem le_weigh {threads : List (List Op)} {op : Op} (h : op ∈ pending threads)
    (w : Op → ℕ) : w op ≤ weigh w threads := by
  obtain ⟨others, hothers⟩ := Multiset.exists_cons_of_mem h
  rw [weigh, hothers, Multiset.map_cons, Multiset.sum_cons]
  exact Nat.le_add_right _ _

theorem mem_pending {threads : List (List Op)} {op : Op} :
    op ∈ pending threads ↔ ∃ thread ∈ threads, op ∈ thread := by
  unfold pending
  rw [Multiset.mem_coe, List.mem_flatten]

/-! ## Which thread a block waits in -/

/-- Every waiting block, with its thread, satisfies `P`. -/
def Located (P : ℕ → Op → Prop) (threads : List (List Op)) : Prop :=
  ∀ tid thread, threads[tid]? = some thread → ∀ op ∈ thread, P tid op

section
variable {P Q : ℕ → Op → Prop} {threads : List (List Op)} {tid : ℕ} {op : Op} {ops rest : List Op}

theorem getElem_of_nextBlock (h : nextBlock threads tid = some (op, rest)) :
    threads[tid]? = some (op :: rest) := by
  unfold nextBlock at h
  split at h
  · rename_i op' rest' hget
    cases h
    exact hget
  · cases h

theorem Located.next (hloc : Located P threads) (h : nextBlock threads tid = some (op, rest)) :
    P tid op :=
  hloc tid _ (getElem_of_nextBlock h) op List.mem_cons_self

theorem Located.pending (hloc : Located P threads) (h : op ∈ Lib.pending threads) :
    ∃ tid, P tid op := by
  obtain ⟨thread, hthread, hop⟩ := mem_pending.mp h
  obtain ⟨tid, hget⟩ := List.mem_iff_getElem?.mp hthread
  exact ⟨tid, hloc tid thread hget op hop⟩

theorem Located.imp (hloc : Located P threads) (h : ∀ tid thread op, threads[tid]? = some thread →
    op ∈ thread → P tid op → Q tid op) : Located Q threads :=
  fun tid thread hget op hop => h tid thread op hget hop (hloc tid thread hget op hop)

theorem mem_pending_of_getElem {thread : List Op} (hget : threads[tid]? = some thread)
    (hop : op ∈ thread) : op ∈ Lib.pending threads :=
  mem_pending.mpr ⟨thread, List.mem_of_getElem? hget, hop⟩

theorem length_advance (threads : List (List Op)) (tid : ℕ) (ops rest : List Op) :
    (Lib.advance threads tid ops rest).length = threads.length := by
  unfold Lib.advance
  exact List.length_set

theorem Located.advance (hloc : Located P threads) (h : nextBlock threads tid = some (op, rest))
    (hops : ∀ x ∈ ops, P tid x) : Located P (Lib.advance threads tid ops rest) := by
  intro i thread hget x hx
  unfold Lib.advance at hget
  rw [List.getElem?_set] at hget
  split_ifs at hget with hi hlt
  · subst hi
    cases hget
    obtain hx | hx := List.mem_append.mp hx
    · exact hops x hx
    · exact hloc tid _ (getElem_of_nextBlock h) x (List.mem_cons_of_mem op hx)
  · exact hloc i thread hget x hx

theorem Located.spawn (hloc : Located P threads) (hops : ∀ x ∈ ops, P threads.length x) :
    Located P (threads ++ [ops]) := by
  intro i thread hget x hx
  rw [List.getElem?_append] at hget
  split_ifs at hget with hlt
  · exact hloc i thread hget x hx
  · obtain ⟨hi, hthread⟩ := List.getElem?_eq_some_iff.mp hget
    simp only [List.length_singleton] at hi
    have hzero : i = threads.length := by omega
    subst hzero
    simp only [Nat.sub_self, List.getElem_cons_zero] at hthread
    subst hthread
    exact hops x hx

end
end RknpuDriver.Lib
