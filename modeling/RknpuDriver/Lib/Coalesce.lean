import Mathlib.Data.Nat.Notation
import Mathlib.Data.List.Chain

/-! # Groups of a list, and a compaction in place

`coalesce joins l` reads a list and puts each element into the group that it has last begun, when
`joins` says so, and into a new one otherwise. A program that does this in place writes the groups
over the elements it has read: `overlay write l results` is the list with the first results
written over its first entries.

* `flatten_coalesce`, `ne_nil_of_mem_coalesce`: the groups are runs of the list, none of them
  empty.
* `coalesce_concat_cases`: what the next element does.
* `isChain_of_mem_coalesce`: what `joins` demands of neighbours holds in each group.
* `modify_overlay_last`, `modify_overlay_next`: a write behind the read cursor.
-/

namespace RknpuDriver.Lib
set_option autoImplicit false

/-! ## Groups -/

section Coalesce
variable {α : Type} (joins : List α → α → Bool)

/-- The groups after one more element. -/
def extend (gs : List (List α)) (x : α) : List (List α) :=
  match gs.getLast? with
  | none => [[x]]
  | some g => if joins g x then gs.dropLast ++ [g ++ [x]] else gs ++ [[x]]

def coalesce (l : List α) : List (List α) := l.foldl (extend joins) []

variable {joins} {l : List α} {x : α}

theorem coalesce_concat (l : List α) (x : α) :
    coalesce joins (l ++ [x]) = extend joins (coalesce joins l) x := by
  rw [coalesce, coalesce, List.foldl_append, List.foldl_cons, List.foldl_nil]

theorem extend_joined {gs : List (List α)} {g : List α} (h : joins g x = true) :
    extend joins (gs ++ [g]) x = gs ++ [g ++ [x]] := by
  rw [extend, List.getLast?_concat]
  show (if joins g x then (gs ++ [g]).dropLast ++ [g ++ [x]] else gs ++ [g] ++ [[x]]) = _
  rw [if_pos h, List.dropLast_concat]

theorem extend_apart {gs : List (List α)} {g : List α} (h : ¬ joins g x = true) :
    extend joins (gs ++ [g]) x = gs ++ [g] ++ [[x]] := by
  rw [extend, List.getLast?_concat]
  exact if_neg h

variable (joins) in
/-- What an element does to the groups of the list before it. -/
theorem extend_cases (gs : List (List α)) (x : α) :
    (gs = [] ∧ extend joins gs x = [[x]]) ∨
      (∃ init g, gs = init ++ [g] ∧ joins g x = true ∧ extend joins gs x = init ++ [g ++ [x]]) ∨
      ∃ init g, gs = init ++ [g] ∧ ¬ joins g x = true ∧ extend joins gs x = gs ++ [[x]] := by
  obtain rfl | ⟨init, g, rfl⟩ := gs.eq_nil_or_concat'
  · exact Or.inl ⟨rfl, rfl⟩
  · by_cases h : joins g x = true
    · exact Or.inr (Or.inl ⟨init, g, rfl, h, extend_joined h⟩)
    · exact Or.inr (Or.inr ⟨init, g, rfl, h, extend_apart h⟩)

variable (joins) in
theorem flatten_coalesce (l : List α) : (coalesce joins l).flatten = l := by
  induction l using List.reverseRecOn with
  | nil => rfl
  | append_singleton l x ih =>
    rw [coalesce_concat]
    obtain ⟨hnil, hnew⟩ | ⟨init, g, hgs, -, hnew⟩ | ⟨init, g, hgs, -, hnew⟩ :=
      extend_cases joins (coalesce joins l) x
    · rw [hnil] at ih
      rw [hnew, ← ih]
      rfl
    · rw [hnew, List.flatten_concat, ← List.append_assoc, ← List.flatten_concat, ← hgs, ih]
    · rw [hnew, List.flatten_concat, ih]

theorem ne_nil_of_mem_coalesce {g : List α} (h : g ∈ coalesce joins l) : g ≠ [] := by
  induction l using List.reverseRecOn generalizing g with
  | nil => cases h
  | append_singleton l x ih =>
    rw [coalesce_concat] at h
    obtain ⟨-, hnew⟩ | ⟨init, g', hgs, -, hnew⟩ | ⟨init, g', -, -, hnew⟩ :=
      extend_cases joins (coalesce joins l) x
    · rw [hnew, List.mem_singleton] at h
      rw [h]
      exact List.cons_ne_nil x []
    · rw [hnew, List.mem_append, List.mem_singleton] at h
      obtain h | rfl := h
      · refine ih ?_
        rw [hgs]
        exact List.mem_append_left _ h
      · exact List.append_ne_nil_of_right_ne_nil _ (List.cons_ne_nil x [])
    · rw [hnew, List.mem_append, List.mem_singleton] at h
      obtain h | rfl := h
      · exact ih h
      · exact List.cons_ne_nil x []

variable (joins) in
theorem length_coalesce_le (l : List α) : (coalesce joins l).length ≤ l.length := by
  induction l using List.reverseRecOn with
  | nil => exact Nat.le_refl 0
  | append_singleton l x ih =>
    rw [coalesce_concat, List.length_append]
    obtain ⟨-, hnew⟩ | ⟨init, g, hgs, -, hnew⟩ | ⟨init, g, -, -, hnew⟩ :=
      extend_cases joins (coalesce joins l) x
    · rw [hnew]
      exact Nat.le_add_left 1 _
    · rw [hgs, List.length_append] at ih
      rw [hnew, List.length_append]
      exact Nat.le_succ_of_le ih
    · rw [hnew, List.length_append]
      exact Nat.succ_le_succ ih

theorem coalesce_eq_nil : coalesce joins l = [] ↔ l = [] := by
  constructor
  · intro h
    rw [← flatten_coalesce joins l, h]
    rfl
  · rintro rfl
    rfl

variable (joins) in
theorem coalesce_last (l : List α) (y : α) :
    ∃ init g, coalesce joins (l ++ [y]) = init ++ [g ++ [y]] := by
  rw [coalesce_concat]
  obtain ⟨-, hnew⟩ | ⟨init, g, -, -, hnew⟩ | ⟨-, -, -, -, hnew⟩ :=
    extend_cases joins (coalesce joins l) y
  · exact ⟨[], [], hnew⟩
  · exact ⟨init, g, hnew⟩
  · exact ⟨_, [], hnew⟩

variable (joins) in
/-- The element after `y` comes into the group that ends with `y`, or begins one. -/
theorem coalesce_concat_cases (l : List α) (y x : α) :
    ∃ init g, coalesce joins (l ++ [y]) = init ++ [g ++ [y]] ∧
      ((joins (g ++ [y]) x = true ∧
          coalesce joins (l ++ [y] ++ [x]) = init ++ [g ++ [y] ++ [x]]) ∨
        (¬ joins (g ++ [y]) x = true ∧
          coalesce joins (l ++ [y] ++ [x]) = init ++ [g ++ [y]] ++ [[x]])) := by
  obtain ⟨init, g, hgs⟩ := coalesce_last joins l y
  refine ⟨init, g, hgs, ?_⟩
  rw [coalesce_concat (l ++ [y]), hgs]
  by_cases h : joins (g ++ [y]) x = true
  · exact Or.inl ⟨h, extend_joined h⟩
  · exact Or.inr ⟨h, extend_apart h⟩

/-- What `joins` demands of neighbours holds in each group. -/
theorem isChain_of_mem_coalesce {R : α → α → Prop}
    (hjoins : ∀ g y x, joins (g ++ [y]) x = true → R y x) {g : List α}
    (h : g ∈ coalesce joins l) : g.IsChain R := by
  induction l using List.reverseRecOn generalizing g with
  | nil => cases h
  | append_singleton l x ih =>
    rw [coalesce_concat] at h
    obtain ⟨-, hnew⟩ | ⟨init, g', hgs, hjoin, hnew⟩ | ⟨init, g', -, -, hnew⟩ :=
      extend_cases joins (coalesce joins l) x
    · rw [hnew, List.mem_singleton] at h
      rw [h]
      exact List.isChain_singleton x
    · rw [hnew, List.mem_append, List.mem_singleton] at h
      rw [hgs] at ih
      obtain h | rfl := h
      · exact ih (List.mem_append_left _ h)
      · refine List.isChain_append.mpr
          ⟨ih (List.mem_append_right _ List.mem_cons_self), List.isChain_singleton x, ?_⟩
        intro y hy z hz
        obtain ⟨g'', rfl⟩ := List.getLast?_eq_some_iff.mp (Option.mem_def.mp hy)
        obtain rfl : x = z := by simpa using hz
        exact hjoins g'' y x hjoin
    · rw [hnew, List.mem_append, List.mem_singleton] at h
      obtain h | rfl := h
      · exact ih h
      · exact List.isChain_singleton x

end Coalesce

/-! ## Results written over a list -/

section Overlay
variable {α β γ : Type} (write : β → α → α)

/-- The list with the first results written over its first entries. -/
def overlay : List α → List β → List α
  | as, [] => as
  | [], _ :: _ => []
  | a :: as, b :: bs => write b a :: overlay as bs

variable {write} {as cs : List α} {bs : List β}

@[simp] theorem overlay_nil (as : List α) : overlay write as [] = as := by
  cases as <;> rfl

@[simp] theorem overlay_cons (a : α) (as : List α) (b : β) (bs : List β) :
    overlay write (a :: as) (b :: bs) = write b a :: overlay write as bs := rfl

theorem length_overlay (as : List α) (bs : List β) :
    (overlay write as bs).length = as.length := by
  induction as generalizing bs with
  | nil => cases bs <;> rfl
  | cons a as ih =>
    cases bs with
    | nil => rfl
    | cons b bs => rw [overlay_cons, List.length_cons, List.length_cons, ih]

theorem overlay_append (cs : List α) (h : bs.length ≤ as.length) :
    overlay write (as ++ cs) bs = overlay write as bs ++ cs := by
  induction as generalizing bs with
  | nil =>
    obtain rfl : bs = [] := List.length_eq_zero_iff.mp (Nat.le_zero.mp h)
    rw [overlay_nil, overlay_nil]
  | cons a as ih =>
    cases bs with
    | nil => rw [overlay_nil, overlay_nil]
    | cons b bs =>
      rw [List.cons_append, overlay_cons, overlay_cons, ih (Nat.le_of_succ_le_succ h),
        List.cons_append]

theorem getElem?_length_append (as : List α) (a : α) (cs : List α) :
    (as ++ a :: cs)[as.length]? = some a := by
  rw [List.getElem?_append_right (Nat.le_refl _), Nat.sub_self, List.getElem?_cons_zero]

theorem modify_length_append (f : α → α) (as : List α) (a : α) (cs : List α) :
    (as ++ a :: cs).modify as.length f = as ++ f a :: cs := by
  induction as with
  | nil => rfl
  | cons a' as ih => rw [List.cons_append, List.length_cons, List.modify_succ_cons, ih]; rfl

/-- A write to the entry that the last result has been written over. -/
theorem modify_overlay_last {f : α → α} {b b' : β} (hf : ∀ a, f (write b a) = write b' a)
    (as : List α) (bs : List β) :
    (overlay write as (bs ++ [b])).modify bs.length f = overlay write as (bs ++ [b']) := by
  induction as generalizing bs with
  | nil =>
    cases bs <;> rfl
  | cons a as ih =>
    cases bs with
    | nil =>
      rw [List.nil_append, List.nil_append, overlay_cons, overlay_cons, overlay_nil,
        List.length_nil, List.modify_zero_cons, hf]
    | cons c bs =>
      rw [List.cons_append, List.cons_append, overlay_cons, overlay_cons, List.length_cons,
        List.modify_succ_cons, ih]

/-- A write to the first entry that no result has been written over. -/
theorem modify_overlay_next {f : α → α} {b : β} (as : List α) (bs : List β)
    (hf : ∀ a, as[bs.length]? = some a → f a = write b a) :
    (overlay write as bs).modify bs.length f = overlay write as (bs ++ [b]) := by
  induction as generalizing bs with
  | nil => cases bs <;> rfl
  | cons a as ih =>
    cases bs with
    | nil =>
      rw [List.nil_append, overlay_cons, overlay_nil, overlay_nil, List.length_nil,
        List.modify_zero_cons, hf a rfl]
    | cons b' bs =>
      rw [List.cons_append, overlay_cons, overlay_cons, List.length_cons, List.modify_succ_cons,
        ih bs fun a' ha' => hf a' ha']

theorem map_take_overlay {read : α → γ} {result : β → γ}
    (hread : ∀ b a, read (write b a) = result b) (h : bs.length ≤ as.length) :
    ((overlay write as bs).take bs.length).map read = bs.map result := by
  induction as generalizing bs with
  | nil =>
    obtain rfl : bs = [] := List.length_eq_zero_iff.mp (Nat.le_zero.mp h)
    rfl
  | cons a as ih =>
    cases bs with
    | nil => rfl
    | cons b bs =>
      rw [overlay_cons, List.length_cons, List.take_succ_cons, List.map_cons, List.map_cons,
        hread, ih (Nat.le_of_succ_le_succ h)]

theorem drop_overlay (as : List α) (bs : List β) :
    (overlay write as bs).drop bs.length = as.drop bs.length := by
  induction as generalizing bs with
  | nil => cases bs <;> rfl
  | cons a as ih =>
    cases bs with
    | nil => rfl
    | cons b bs => rw [overlay_cons, List.length_cons, List.drop_succ_cons, List.drop_succ_cons, ih]

theorem map_overlay {keep : α → γ} (hkeep : ∀ b a, keep (write b a) = keep a) (as : List α)
    (bs : List β) : (overlay write as bs).map keep = as.map keep := by
  induction as generalizing bs with
  | nil => cases bs <;> rfl
  | cons a as ih =>
    cases bs with
    | nil => rfl
    | cons b bs => rw [overlay_cons, List.map_cons, List.map_cons, hkeep, ih]

end Overlay

end RknpuDriver.Lib
