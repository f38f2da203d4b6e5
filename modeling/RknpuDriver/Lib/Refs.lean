import Mathlib.Data.Multiset.Count
import Mathlib.Data.Multiset.AddSub
import Mathlib.Data.Nat.Notation

/-! # Reference counts

Objects that are freed when their count reaches zero. `held` is a multiset with one occurrence
of an object for each reference that somebody owns. The counts are `Exact` for `held` when they
are the multiplicities, and the objects that are freed are those nobody holds. A reference that
is taken or given back moves one occurrence; to put a reference that is held keeps the counts
exact, and the objects that are held are never freed.
-/

namespace RknpuDriver.Lib
set_option autoImplicit false

structure Refs (ι : Type) where
  count : ι → ℕ
  freed : ι → Bool

namespace Refs
variable {ι : Type} [DecidableEq ι]

def empty : Refs ι := ⟨fun _ => 0, fun _ => false⟩

/-- A new object, with the reference of the one who allocates it. -/
def alloc (r : Refs ι) (o : ι) : Refs ι where
  count x := if x = o then 1 else r.count x
  freed x := if x = o then false else r.freed x

def get (r : Refs ι) (o : ι) : Refs ι :=
  { r with count := fun x => if x = o then r.count x + 1 else r.count x }

/-- A count that is zero already stays zero. -/
def put (r : Refs ι) (o : ι) : Refs ι where
  count x := if x = o then r.count x - 1 else r.count x
  freed x := if x = o then r.freed x || r.count x == 1 else r.freed x

/-- The object is freed whatever its count is. -/
def destroy (r : Refs ι) (o : ι) : Refs ι where
  count x := if x = o then 0 else r.count x
  freed x := if x = o then true else r.freed x

def putAll (r : Refs ι) (os : List ι) : Refs ι := os.foldl put r

/-- The counts are the references held, and the known objects nobody holds are freed. -/
structure Exact (r : Refs ι) (known : ι → Prop) (held : Multiset ι) : Prop where
  count_eq : ∀ o, r.count o = held.count o
  freed_iff : ∀ o, r.freed o = true ↔ known o ∧ r.count o = 0
  known_of_mem : ∀ o ∈ held, known o

variable {r : Refs ι} {known : ι → Prop} {held : Multiset ι} {o : ι}

namespace Exact

theorem empty (known : ι → Prop) (hnone : ∀ o, ¬ known o) : Exact empty known 0 := by
  refine ⟨fun o => ?_, fun o => ?_, fun o ho => ?_⟩
  · rw [Multiset.count_zero]
    rfl
  · simp [Refs.empty, hnone o]
  · exact absurd ho (Multiset.notMem_zero o)

theorem pos_iff (h : Exact r known held) : 0 < r.count o ↔ o ∈ held := by
  rw [h.count_eq, Multiset.count_pos]

theorem alive (h : Exact r known held) (ho : o ∈ held) : r.freed o = false := by
  have hpos : 0 < r.count o := h.pos_iff.mpr ho
  rw [Bool.eq_false_iff]
  intro hf
  have hzero : r.count o = 0 := ((h.freed_iff o).mp hf).2
  omega

theorem released (h : Exact r known held) (hk : known o) (ho : o ∉ held) :
    r.count o = 0 ∧ r.freed o = true := by
  have hzero : r.count o = 0 := by
    rw [h.count_eq]
    exact Multiset.count_eq_zero.mpr ho
  exact ⟨hzero, (h.freed_iff o).mpr ⟨hk, hzero⟩⟩

theorem alloc {known' : ι → Prop} (h : Exact r known held) (ho : ¬ known o)
    (hk : ∀ x, known' x ↔ known x ∨ x = o) : Exact (r.alloc o) known' (o ::ₘ held) := by
  have hnone : held.count o = 0 :=
    Multiset.count_eq_zero.mpr fun hmem => ho (h.known_of_mem o hmem)
  refine ⟨fun x => ?_, fun x => ?_, fun x hx => ?_⟩
  · by_cases hx : x = o
    · subst hx
      simp [Refs.alloc, hnone]
    · rw [Multiset.count_cons_of_ne hx, ← h.count_eq x]
      simp [Refs.alloc, hx]
  · by_cases hx : x = o
    · simp [Refs.alloc, hx]
    · simp [Refs.alloc, hx, hk, h.freed_iff x]
  · rw [hk]
    obtain rfl | hx := Multiset.mem_cons.mp hx
    · exact Or.inr rfl
    · exact Or.inl (h.known_of_mem x hx)

theorem get (h : Exact r known held) (ho : o ∈ held) : Exact (r.get o) known (o ::ₘ held) := by
  have hpos : 0 < r.count o := h.pos_iff.mpr ho
  refine ⟨fun x => ?_, fun x => ?_, fun x hx => ?_⟩
  · by_cases hx : x = o
    · subst hx
      simp [Refs.get, h.count_eq x]
    · rw [Multiset.count_cons_of_ne hx, ← h.count_eq x]
      simp [Refs.get, hx]
  · show r.freed x = true ↔ known x ∧ (if x = o then r.count x + 1 else r.count x) = 0
    rw [h.freed_iff x]
    split_ifs with hx
    · subst hx
      simp [Nat.ne_of_gt hpos]
    · rfl
  · obtain rfl | hx := Multiset.mem_cons.mp hx
    · exact h.known_of_mem x ho
    · exact h.known_of_mem x hx

theorem put (h : Exact r known (o ::ₘ held)) : Exact (r.put o) known held := by
  have hcount : r.count o = held.count o + 1 := by
    rw [h.count_eq, Multiset.count_cons_self]
  have hknown : known o := h.known_of_mem o (Multiset.mem_cons_self o held)
  refine ⟨fun x => ?_, fun x => ?_, fun x hx => h.known_of_mem x (Multiset.mem_cons_of_mem hx)⟩
  · by_cases hx : x = o
    · subst hx
      simp [Refs.put, hcount]
    · simp [Refs.put, hx, h.count_eq x, Multiset.count_cons_of_ne hx]
  · by_cases hx : x = o
    · subst hx
      have hf : r.freed x = false := h.alive (Multiset.mem_cons_self x held)
      simp [Refs.put, hf, hknown, hcount]
    · simp [Refs.put, hx, h.freed_iff x]

/-- To destroy an object only its creator holds is to put it. -/
theorem destroy (h : Exact r known (o ::ₘ held)) (ho : o ∉ held) :
    Exact (r.destroy o) known held := by
  have hsame : r.destroy o = r.put o := by
    have hcount : r.count o = 1 := by
      rw [h.count_eq, Multiset.count_cons_self, Multiset.count_eq_zero.mpr ho]
    unfold Refs.destroy Refs.put
    congr 1
    · funext x
      split_ifs with hx
      · rw [hx, hcount]
      · rfl
    · funext x
      split_ifs with hx
      · rw [hx, hcount]
        simp
      · rfl
  rw [hsame]
  exact h.put

theorem putAll {os : List ι} (h : Exact r known (os + held)) : Exact (r.putAll os) known held := by
  induction os generalizing r with
  | nil =>
    rw [Multiset.coe_nil, Multiset.zero_add] at h
    exact h
  | cons o os ih =>
    rw [← Multiset.cons_coe, Multiset.cons_add] at h
    exact ih h.put

end Exact
end Refs

/-! ## Lists of holders -/

section Holders
variable {ι β : Type} [DecidableEq β] (f : β → ι) {l : List β} {b : β}

/-- The references of a list of holders of one object each. -/
def holders (l : List β) : Multiset ι := (l.map f : List ι)

omit [DecidableEq β] in
theorem mem_holders {o : ι} : o ∈ holders f l ↔ ∃ b ∈ l, f b = o := by
  rw [holders, Multiset.mem_coe, List.mem_map]

omit [DecidableEq β] in
theorem holders_snoc : holders f (l ++ [b]) = f b ::ₘ holders f l := by
  rw [holders, List.map_append, List.map_singleton, holders, Multiset.cons_coe]
  exact Multiset.coe_eq_coe.mpr (List.perm_append_singleton _ _)

theorem holders_erase (hb : b ∈ l) : holders f l = f b ::ₘ holders f (l.erase b) := by
  rw [holders, holders, Multiset.cons_coe, ← List.map_cons]
  exact Multiset.coe_eq_coe.mpr ((List.perm_cons_erase hb).map f)

omit [DecidableEq β] in
theorem holders_filter (p : β → Bool) :
    holders f l = ((l.filter p).map f : List ι) + holders f (l.filter fun b => !p b) := by
  rw [holders, holders, Multiset.coe_add, ← List.map_append]
  exact Multiset.coe_eq_coe.mpr ((List.filter_append_perm p l).symm.map f)

end Holders
end RknpuDriver.Lib
