import RknpuDriver.Lib.Layout
import Mathlib.Logic.Function.Basic
import Mathlib.Tactic.SplitIfs

/-! # Address ranges that are handed out and mapped

A range of addresses is allocated for an owner and mapped for it; later the mapping is cleared and
the range is given back, by calls that name an address and a size only.

* `Agrees`: exactly the ranges of the live owners are allocated and mapped.
* `Agrees.map`, `Agrees.giveBack`: a new owner with a range that is free, and one whose whole range
  is cleared and given back.
* `Agrees.leftover`: an owner that is gone while an address of it is still mapped.
-/

namespace RknpuDriver.Lib
set_option autoImplicit false

/-- `table x` is the owner for whom address `x` is mapped. -/
structure Mappings (κ : Type) where
  table : ℕ → Option κ
  ranges : List Segment

namespace Mappings
variable {κ : Type}

def empty : Mappings κ := ⟨fun _ => none, []⟩

/-- The addresses of a segment. -/
def Inside (s : Segment) (x : ℕ) : Prop := s.start ≤ x ∧ x < s.start + s.length

instance (s : Segment) (x : ℕ) : Decidable (Inside s x) := inferInstanceAs (Decidable (_ ∧ _))

def map (m : Mappings κ) (k : κ) (s : Segment) : Mappings κ where
  table x := if Inside s x then some k else m.table x
  ranges := s :: m.ranges

def unmap (m : Mappings κ) (s : Segment) : Mappings κ :=
  { m with table := fun x => if Inside s x then none else m.table x }

/-- The allocation that an address is in is given back as a whole. -/
def release (m : Mappings κ) (x : ℕ) : Mappings κ :=
  { m with ranges := m.ranges.filter fun s => ¬ Inside s x }

/-- No allocation has an address of the segment. -/
def Free (m : Mappings κ) (s : Segment) : Prop :=
  ∀ r ∈ m.ranges, r.start + r.length ≤ s.start ∨ s.start + s.length ≤ r.start

instance (m : Mappings κ) (s : Segment) : Decidable (m.Free s) :=
  inferInstanceAs (Decidable (∀ r ∈ m.ranges, _))

/-- The mapped addresses are those of the live owners, and so are the allocations. -/
structure Agrees (live : κ → Option Segment) (m : Mappings κ) : Prop where
  table : ∀ x k, m.table x = some k ↔ ∃ s, live k = some s ∧ Inside s x
  ranges : ∀ r, r ∈ m.ranges ↔ ∃ k, live k = some r

theorem agrees_empty : Agrees (fun _ => none) (empty : Mappings κ) := by
  refine ⟨fun x k => ⟨fun h => ?_, fun h => ?_⟩, fun r => ⟨fun h => ?_, fun h => ?_⟩⟩
  · cases h
  · obtain ⟨s, hs, -⟩ := h
    cases hs
  · exact (List.not_mem_nil h).elim
  · obtain ⟨k, hk⟩ := h
    cases hk

section
variable {live : κ → Option Segment} {m : Mappings κ} {k k' : κ} {s s' : Segment} {x : ℕ}

theorem Agrees.owner (h : Agrees live m) (hs : live k = some s) (hs' : live k' = some s')
    (hx : Inside s x) (hx' : Inside s' x) : k = k' := by
  have hk := (h.table x k).mpr ⟨s, hs, hx⟩
  have hk' := (h.table x k').mpr ⟨s', hs', hx'⟩
  rw [hk] at hk'
  exact Option.some.inj hk'

variable [DecidableEq κ]

theorem Agrees.map (h : Agrees live m) (hfresh : live k = none) (hfree : m.Free s) :
    Agrees (Function.update live k (some s)) (m.map k s) := by
  have hother : ∀ k', k' ≠ k → Function.update live k (some s) k' = live k' := fun k' hk' =>
    Function.update_of_ne hk' _ _
  have hapart : ∀ k' s', live k' = some s' → ∀ x, Inside s' x → ¬ Inside s x := by
    intro k' s' hs' x hx' hx
    have hmem := (h.ranges s').mpr ⟨k', hs'⟩
    obtain hlow | hhigh := hfree s' hmem
    · have := hx'.2
      have := hx.1
      omega
    · have := hx'.1
      have := hx.2
      omega
  refine ⟨fun x k' => ?_, fun r => ?_⟩
  · show (if Inside s x then some k else m.table x) = some k' ↔ _
    by_cases hk : k' = k
    · subst hk
      rw [Function.update_self]
      split_ifs with hx
      · exact iff_of_true rfl ⟨s, rfl, hx⟩
      · rw [h.table, hfresh]
        constructor
        · rintro ⟨s', hs', -⟩
          cases hs'
        · rintro ⟨s', hs', hx'⟩
          cases hs'
          exact absurd hx' hx
    · rw [hother k' hk]
      split_ifs with hx
      · refine iff_of_false (fun hcon => hk (Option.some.inj hcon).symm) ?_
        rintro ⟨s', hs', hx'⟩
        exact hapart k' s' hs' x hx' hx
      · exact h.table x k'
  · show r ∈ s :: m.ranges ↔ _
    rw [List.mem_cons, h.ranges]
    constructor
    · rintro (rfl | ⟨k', hk'⟩)
      · exact ⟨k, Function.update_self _ _ _⟩
      · refine ⟨k', ?_⟩
        rw [hother k']
        · exact hk'
        · rintro rfl
          rw [hfresh] at hk'
          cases hk'
    · rintro ⟨k', hk'⟩
      by_cases hk : k' = k
      · subst hk
        rw [Function.update_self] at hk'
        exact Or.inl (Option.some.inj hk').symm
      · rw [hother k' hk] at hk'
        exact Or.inr ⟨k', hk'⟩

theorem Agrees.giveBack (h : Agrees live m) (hs : live k = some s) (hpos : 0 < s.length) :
    Agrees (Function.update live k none) ((m.unmap s).release s.start) := by
  have hother : ∀ k', k' ≠ k → Function.update live k none k' = live k' := fun k' hk' =>
    Function.update_of_ne hk' _ _
  have hstart : Inside s s.start := ⟨Nat.le_refl _, Nat.lt_add_of_pos_right hpos⟩
  refine ⟨fun x k' => ?_, fun r => ?_⟩
  · show (if Inside s x then none else m.table x) = some k' ↔ _
    by_cases hk : k' = k
    · subst hk
      rw [Function.update_self]
      refine iff_of_false ?_ ?_
      · intro hcon
        split_ifs at hcon with hx
        obtain ⟨s', hs', hx'⟩ := (h.table x k').mp hcon
        rw [hs] at hs'
        cases hs'
        exact hx hx'
      · rintro ⟨s', hs', -⟩
        cases hs'
    · rw [hother k' hk]
      split_ifs with hx
      · refine iff_of_false (by simp) ?_
        rintro ⟨s', hs', hx'⟩
        exact hk (h.owner hs' hs hx' hx)
      · exact h.table x k'
  · show r ∈ m.ranges.filter _ ↔ _
    rw [List.mem_filter, h.ranges, decide_eq_true_eq]
    constructor
    · rintro ⟨⟨k', hk'⟩, hr⟩
      refine ⟨k', ?_⟩
      rw [hother k']
      · exact hk'
      · rintro rfl
        rw [hs] at hk'
        cases hk'
        exact hr hstart
    · rintro ⟨k', hk'⟩
      have hk : k' ≠ k := by
        rintro rfl
        rw [Function.update_self] at hk'
        cases hk'
      rw [hother k' hk] at hk'
      exact ⟨⟨k', hk'⟩, fun hcon => hk (h.owner hk' hs hcon hstart)⟩

/-- An address of the owner is mapped still. -/
theorem Agrees.leftover (hx : m.table x = some k) : ¬ Agrees (Function.update live k none) m := by
  intro h
  obtain ⟨s, hs, -⟩ := (h.table x k).mp hx
  rw [Function.update_self] at hs
  cases hs

end
end Mappings
end RknpuDriver.Lib
