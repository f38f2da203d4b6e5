import Mathlib.Algebra.BigOperators.Group.List.Basic
import Mathlib.Algebra.GroupWithZero.Nat
import Mathlib.Data.Finset.Card

/-! # Disjoint owners of numbered cells

A list of owners, each holding a finite set of cells, and a Boolean map of the used cells.
`Owned cells owners used` says that the owners' sets are pairwise disjoint and that a cell is
used exactly when some owner holds it. Adding an owner of unused cells and removing any owner
keep it, and the number of used cells below a bound is the sum of the owners' sizes.
-/

namespace RknpuDriver.Lib
set_option autoImplicit false

variable {α : Type} (cells : α → Finset ℕ)

structure Owned (owners : List α) (used : ℕ → Bool) : Prop where
  disjoint : owners.Pairwise fun a b => Disjoint (cells a) (cells b)
  used_iff : ∀ i, used i = true ↔ ∃ a ∈ owners, i ∈ cells a

variable {cells}

namespace Owned
variable {owners : List α} {used : ℕ → Bool}

theorem nil : Owned cells [] fun _ => false := ⟨List.Pairwise.nil, by simp⟩

theorem push (h : Owned cells owners used) (a : α) (hfree : ∀ i ∈ cells a, used i = false) :
    Owned cells (owners ++ [a]) fun i => decide (i ∈ cells a) || used i := by
  refine ⟨List.pairwise_append.mpr ⟨h.disjoint, List.pairwise_singleton _ _, ?_⟩, ?_⟩
  · intro b hb c hc
    rw [List.mem_singleton] at hc
    subst hc
    rw [Finset.disjoint_left]
    intro i hib hic
    have hused : used i = true := (h.used_iff i).mpr ⟨b, hb, hib⟩
    rw [hfree i hic] at hused
    exact Bool.false_ne_true hused
  · intro i
    simp only [Bool.or_eq_true, decide_eq_true_eq, h.used_iff, List.mem_append,
      List.mem_singleton]
    constructor
    · rintro (hi | ⟨b, hb, hi⟩)
      · exact ⟨a, Or.inr rfl, hi⟩
      · exact ⟨b, Or.inl hb, hi⟩
    · rintro ⟨b, hb | rfl, hi⟩
      · exact Or.inr ⟨b, hb, hi⟩
      · exact Or.inl hi

theorem perm {owners' : List α} (h : Owned cells owners used) (hp : owners.Perm owners') :
    Owned cells owners' used := by
  refine ⟨(hp.pairwise_iff (fun hd => hd.symm)).mp h.disjoint, fun i => ?_⟩
  rw [h.used_iff i]
  exact exists_congr fun a => and_congr_left' hp.mem_iff

theorem pop {a : α} (h : Owned cells (a :: owners) used) :
    Owned cells owners fun i => !decide (i ∈ cells a) && used i := by
  obtain ⟨ha, hd⟩ := List.pairwise_cons.mp h.disjoint
  refine ⟨hd, fun i => ?_⟩
  simp only [Bool.and_eq_true, Bool.not_eq_true', decide_eq_false_iff_not, h.used_iff,
    List.mem_cons]
  constructor
  · rintro ⟨hi, b, rfl | hb, hib⟩
    · exact absurd hib hi
    · exact ⟨b, hb, hib⟩
  · rintro ⟨b, hb, hib⟩
    exact ⟨Finset.disjoint_right.mp (ha b hb) hib, b, Or.inr hb, hib⟩

theorem erase {a : α} {k : ℕ} (h : Owned cells owners used) (ha : owners[k]? = some a) :
    Owned cells (owners.eraseIdx k) fun i => !decide (i ∈ cells a) && used i := by
  obtain ⟨hk, rfl⟩ := List.getElem?_eq_some_iff.mp ha
  exact (h.perm (List.getElem_cons_eraseIdx_perm hk).symm).pop

/-- Counting: when all owned cells are below `n`, the sizes add up to the used cells. -/
theorem sum_card (h : Owned cells owners used) {n : ℕ} (hn : ∀ a ∈ owners, ∀ i ∈ cells a, i < n) :
    (owners.map fun a => (cells a).card).sum = ((Finset.range n).filter fun i => used i).card := by
  induction owners generalizing used with
  | nil =>
    have hnone : ∀ i, used i = false := fun i => by simpa using h.used_iff i
    simp [hnone]
  | cons a owners ih =>
    have hrest := ih h.pop fun b hb => hn b (List.mem_cons_of_mem a hb)
    have hsplit : ((Finset.range n).filter fun i => used i) =
        cells a ∪ (Finset.range n).filter fun i => !decide (i ∈ cells a) && used i := by
      ext i
      simp only [Finset.mem_filter, Finset.mem_range, Finset.mem_union, Bool.and_eq_true,
        Bool.not_eq_true', decide_eq_false_iff_not]
      constructor
      · rintro ⟨hi, hu⟩
        by_cases hia : i ∈ cells a
        · exact Or.inl hia
        · exact Or.inr ⟨hi, hia, hu⟩
      · rintro (hia | ⟨hi, -, hu⟩)
        · exact ⟨hn a (List.mem_cons_self ..) i hia,
            (h.used_iff i).mpr ⟨a, List.mem_cons_self .., hia⟩⟩
        · exact ⟨hi, hu⟩
    have hdisj : Disjoint (cells a)
        ((Finset.range n).filter fun i => !decide (i ∈ cells a) && used i) := by
      rw [Finset.disjoint_left]
      intro i hia hi
      simp [hia] at hi
    rw [List.map_cons, List.sum_cons, hrest, hsplit, Finset.card_union_of_disjoint hdisj]

theorem sum_card_le (h : Owned cells owners used) {n : ℕ}
    (hn : ∀ a ∈ owners, ∀ i ∈ cells a, i < n) :
    (owners.map fun a => (cells a).card).sum ≤ n := by
  rw [h.sum_card hn]
  simpa using Finset.card_filter_le (Finset.range n) fun i => used i = true

end Owned
/-! ## Owners among the entries of a list -/

section Entries
variable {β : Type} {l : List α} {k : ℕ} {a : α}

theorem perm_first (h : l[k]? = some a) : l.Perm (a :: l.eraseIdx k) := by
  obtain ⟨hk, rfl⟩ := List.getElem?_eq_some_iff.mp h
  exact (List.getElem_cons_eraseIdx_perm hk).symm

theorem perm_filterMap (f : α → Option β) (h : l[k]? = some a) :
    (l.filterMap f).Perm ((f a).toList ++ (l.eraseIdx k).filterMap f) := by
  have hp := (perm_first h).filterMap f
  cases hf : f a with
  | none => simpa [List.filterMap_cons, hf] using hp
  | some b => simpa [List.filterMap_cons, hf] using hp

/-- Two entries that hold the same cell are the same entry. -/
theorem Owned.index_eq {cells : β → Finset ℕ} {f : α → Option β} {used : ℕ → Bool}
    (h : Owned cells (l.filterMap f) used) {i j k : ℕ} {a b : α} {x y : β} (ha : l[j]? = some a)
    (hb : l[k]? = some b) (hx : f a = some x) (hy : f b = some y) (hix : i ∈ cells x)
    (hiy : i ∈ cells y) : j = k := by
  have hpair := List.pairwise_filterMap.mp h.disjoint
  obtain ⟨hj, rfl⟩ := List.getElem?_eq_some_iff.mp ha
  obtain ⟨hk, rfl⟩ := List.getElem?_eq_some_iff.mp hb
  have hapart := List.pairwise_iff_getElem.mp hpair
  obtain hlt | heq | hgt := Nat.lt_trichotomy j k
  · exact absurd hiy (Finset.disjoint_left.mp (hapart j k hj hk hlt x hx y hy) hix)
  · exact heq
  · exact absurd hix (Finset.disjoint_left.mp (hapart k j hk hj hgt y hy x hx) hiy)

theorem Owned.existsUnique {cells : β → Finset ℕ} {f : α → Option β} {used : ℕ → Bool}
    (h : Owned cells (l.filterMap f) used) {i : ℕ} (hi : used i = true) :
    ∃! k : ℕ, ∃ a x, l[k]? = some a ∧ f a = some x ∧ i ∈ cells x := by
  obtain ⟨x, hx, hix⟩ := (h.used_iff i).mp hi
  obtain ⟨a, ha, hax⟩ := List.mem_filterMap.mp hx
  obtain ⟨k, hk⟩ := List.mem_iff_getElem?.mp ha
  refine ⟨k, ⟨a, x, hk, hax, hix⟩, ?_⟩
  rintro j ⟨b, y, hj, hby, hiy⟩
  exact h.index_eq hj hk hby hax hiy hix

end Entries
end RknpuDriver.Lib
