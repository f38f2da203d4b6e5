import Mathlib.Algebra.GroupWithZero.Nat
import Mathlib.Data.Nat.Notation
import Mathlib.Data.List.Basic
import Mathlib.Tactic.SplitIfs

/-! # Address translations, and segments laid out in them

A `Translation` sends an address to the byte behind it, when there is one. A list of segments is
a sequence of bytes: `Segment.byteAt segs o` is the `o`-th of them. `layOut` maps the first
`length` bytes of a list one segment after another, through an operation that maps one segment
and may refuse to.

* `Translation.overlay`: a translation with a window replaced.
* `layOut_ok`: what a layout that nothing refused has mapped.
* `layOut_pieces`: each of its pieces was accepted.
* `layOut_refused_iff`, `layOut_used_iff`: when a layout is refused, and when it maps something.
* `Translation.Shows`: which part of a region a translation shows, as a list of windows.
-/

namespace RknpuDriver.Lib
set_option autoImplicit false

/-- What an address stands for, byte by byte. -/
abbrev Translation := ℕ → Option ℕ

namespace Translation

/-- The window of `n` bytes at `va` shows `f`. -/
def overlay (tr : Translation) (va n : ℕ) (f : Translation) : Translation :=
  fun x => if va ≤ x ∧ x < va + n then f (x - va) else tr x

/-- The `n` bytes at `va` are the `n` bytes at `pa`. -/
def mapRange (tr : Translation) (va pa n : ℕ) : Translation :=
  tr.overlay va n fun o => some (pa + o)

def unmapRange (tr : Translation) (va n : ℕ) : Translation := tr.overlay va n fun _ => none

variable {tr : Translation} {va n : ℕ} {f : Translation}

theorem overlay_add {o : ℕ} (ho : o < n) : tr.overlay va n f (va + o) = f o := by
  unfold overlay
  rw [if_pos ⟨by omega, by omega⟩, Nat.add_sub_cancel_left]

theorem overlay_outside {x : ℕ} (hx : x < va ∨ va + n ≤ x) : tr.overlay va n f x = tr x := by
  unfold overlay
  rw [if_neg (by omega)]

theorem overlay_empty : tr.overlay va 0 f = tr := by
  funext x
  exact overlay_outside (by omega)

theorem overlay_overlay (m : ℕ) (g : Translation) :
    (tr.overlay va n f).overlay (va + n) m g =
      tr.overlay va (n + m) fun o => if o < n then f o else g (o - n) := by
  funext x
  unfold overlay
  by_cases h1 : va ≤ x ∧ x < va + n
  · rw [if_neg (by omega), if_pos h1, if_pos (by omega)]
    exact (if_pos (by omega)).symm
  · by_cases h2 : va + n ≤ x ∧ x < va + n + m
    · rw [if_pos h2, if_pos (by omega), Nat.sub_add_eq]
      exact (if_neg (by omega)).symm
    · rw [if_neg h2, if_neg h1, if_neg (by omega)]

theorem overlay_congr {g : Translation} (h : ∀ o < n, f o = g o) :
    tr.overlay va n f = tr.overlay va n g := by
  funext x
  unfold overlay
  split_ifs with hx
  · exact h _ (by omega)
  · rfl

end Translation

/-- A run of consecutive bytes. -/
structure Segment where
  start : ℕ
  length : ℕ
  deriving DecidableEq, Repr

namespace Segment

def total (segs : List Segment) : ℕ := (segs.map Segment.length).sum

/-- The bytes of a list of segments, in order. -/
def byteAt : List Segment → Translation
  | [], _ => none
  | s :: segs, o => if o < s.length then some (s.start + o) else byteAt segs (o - s.length)

/-- The first `n` bytes, cut where the loops that walk a list stop. -/
def clip : ℕ → List Segment → List Segment
  | _, [] => []
  | n, s :: segs =>
    ⟨s.start, min n s.length⟩ ::
      if n - min n s.length = 0 then [] else clip (n - min n s.length) segs

@[simp] theorem total_nil : total [] = 0 := rfl

@[simp] theorem total_cons (s : Segment) (segs : List Segment) :
    total (s :: segs) = s.length + total segs := by simp [total]

theorem total_clip (n : ℕ) (segs : List Segment) : total (clip n segs) = min n (total segs) := by
  induction segs generalizing n with
  | nil => simp [clip]
  | cons s segs ih =>
    unfold clip
    rw [total_cons, total_cons]
    split_ifs with h
    · show min n s.length + 0 = _
      omega
    · show min n s.length + _ = _
      rw [ih]
      omega

theorem exists_of_mem_clip {n : ℕ} {segs : List Segment} {s : Segment} (h : s ∈ clip n segs) :
    ∃ t ∈ segs, s.start = t.start ∧ s.length ≤ t.length := by
  induction segs generalizing n with
  | nil => cases h
  | cons t segs ih =>
    unfold clip at h
    obtain rfl | h := List.mem_cons.mp h
    · exact ⟨t, List.mem_cons_self .., rfl, Nat.min_le_right _ _⟩
    · split_ifs at h
      · cases h
      · obtain ⟨u, hu, hpiece⟩ := ih h
        exact ⟨u, List.mem_cons_of_mem _ hu, hpiece⟩

theorem length_le_of_clip {n : ℕ} {segs : List Segment} {s : Segment} (h : s ∈ clip n segs) :
    s.length ≤ n := by
  induction segs generalizing n with
  | nil => cases h
  | cons t segs ih =>
    unfold clip at h
    obtain rfl | h := List.mem_cons.mp h
    · exact Nat.min_le_left _ _
    · split_ifs at h
      · cases h
      · exact Nat.le_trans (ih h) (Nat.sub_le _ _)

theorem byteAt_clip {n o : ℕ} (ho : o < n) (segs : List Segment) :
    byteAt (clip n segs) o = byteAt segs o := by
  induction segs generalizing n o with
  | nil => rfl
  | cons s segs ih =>
    unfold clip byteAt
    by_cases hs : o < s.length
    · rw [if_pos (by simp only; omega), if_pos hs]
    · rw [if_neg (by simp only; omega), if_neg hs]
      have hmin : min n s.length = s.length := by omega
      simp only [hmin]
      rw [if_neg (by omega)]
      exact ih (by omega)

theorem byteAt_join (a m n : ℕ) (segs : List Segment) :
    byteAt (⟨a, m⟩ :: ⟨a + m, n⟩ :: segs) = byteAt (⟨a, m + n⟩ :: segs) := by
  funext o
  simp only [byteAt]
  by_cases h1 : o < m
  · rw [if_pos h1, if_pos (by omega)]
  · rw [if_neg h1]
    by_cases h2 : o - m < n
    · rw [if_pos h2, if_pos (by omega)]
      congr 1
      omega
    · rw [if_neg h2, if_neg (by omega), Nat.sub_sub]

theorem exists_byteAt {segs : List Segment} {o : ℕ} (h : o < total segs) :
    ∃ p, byteAt segs o = some p := by
  induction segs generalizing o with
  | nil => exact absurd h (Nat.not_lt_zero _)
  | cons s segs ih =>
    rw [total_cons] at h
    unfold byteAt
    by_cases ho : o < s.length
    · exact ⟨s.start + o, if_pos ho⟩
    · rw [if_neg ho]
      exact ih (by omega)

theorem exists_byteAt_of_mem {segs : List Segment} {s : Segment} {p : ℕ} (hs : s ∈ segs)
    (hlow : s.start ≤ p) (hhigh : p < s.start + s.length) : ∃ o, byteAt segs o = some p := by
  induction segs with
  | nil => cases hs
  | cons t segs ih =>
    obtain rfl | hs := List.mem_cons.mp hs
    · refine ⟨p - s.start, ?_⟩
      unfold byteAt
      rw [if_pos (by omega), Nat.add_sub_cancel' hlow]
    · obtain ⟨o, ho⟩ := ih hs
      refine ⟨t.length + o, ?_⟩
      unfold byteAt
      rw [if_neg (by omega), Nat.add_sub_cancel_left]
      exact ho

theorem total_mod {segs : List Segment} {n : ℕ} (h : ∀ s ∈ segs, s.length % n = 0) :
    total segs % n = 0 := by
  induction segs with
  | nil => exact Nat.zero_mod n
  | cons s segs ih =>
    rw [total_cons, Nat.add_mod, h s (List.mem_cons_self ..),
      ih fun t ht => h t (List.mem_cons_of_mem _ ht)]
    exact Nat.zero_mod n

theorem mem_of_byteAt {segs : List Segment} {o p : ℕ} (h : byteAt segs o = some p) :
    ∃ s ∈ segs, s.start ≤ p ∧ p < s.start + s.length := by
  induction segs generalizing o with
  | nil => cases h
  | cons s segs ih =>
    unfold byteAt at h
    split_ifs at h with ho
    · cases h
      exact ⟨s, List.mem_cons_self .., by omega, by omega⟩
    · obtain ⟨s', hs', hp⟩ := ih h
      exact ⟨s', List.mem_cons_of_mem _ hs', hp⟩

end Segment

/-! ## Layouts -/

/-- How a layout ends: the first refusal, what is mapped by then and the bytes that are not. -/
structure Laid (ε : Type) where
  refused : Option ε
  tr : Translation
  left : ℕ

section LayOut
open Segment
variable {ε : Type} (put : ℕ → Translation → ℕ → ℕ → ℕ → Except ε Translation)

/-- Maps the first `length` bytes of the segments from `va` on; `put i tr va pa n` maps the
`i`-th piece. -/
def layOut : ℕ → List Segment → ℕ → ℕ → Translation → Laid ε
  | _, [], _, length, tr => ⟨none, tr, length⟩
  | i, s :: segs, va, length, tr =>
    match put i tr va s.start (min length s.length) with
    | .error e => ⟨some e, tr, length⟩
    | .ok tr =>
      if length - min length s.length = 0 then ⟨none, tr, 0⟩
      else layOut (i + 1) segs (va + min length s.length) (length - min length s.length) tr

variable {put} {i va length left : ℕ} {segs : List Segment} {tr tr' : Translation}

theorem layOut_left_le (i : ℕ) (segs : List Segment) (va length : ℕ) (tr : Translation) :
    (layOut put i segs va length tr).left ≤ length := by
  induction segs generalizing i va length tr with
  | nil => exact Nat.le_refl _
  | cons s segs ih =>
    unfold layOut
    split
    · exact Nat.le_refl _
    · split_ifs
      · exact Nat.zero_le _
      · exact Nat.le_trans (ih ..) (Nat.sub_le _ _)

theorem layOut_outside {x : ℕ}
    (hx : x < va ∨ va + (length - (layOut put i segs va length tr).left) ≤ x)
    (hput : ∀ s ∈ clip length segs, ∀ i tr va tr', put i tr va s.start s.length = .ok tr' →
      x < va ∨ va + s.length ≤ x → tr' x = tr x) :
    (layOut put i segs va length tr).tr x = tr x := by
  induction segs generalizing i va length tr with
  | nil => rfl
  | cons s segs ih =>
    unfold clip at hput
    unfold layOut at hx ⊢
    cases hret : put i tr va s.start (min length s.length) with
    | error e => rfl
    | ok mid =>
      have hfirst := hput _ (List.mem_cons_self ..) i tr va mid hret
      simp only [hret] at hx ⊢
      split_ifs at hput hx ⊢ with hleft
      · exact hfirst (by simp only at hx ⊢; omega)
      · have hle := @layOut_left_le _ put (i + 1) segs (va + min length s.length)
          (length - min length s.length) mid
        rw [ih (by omega) fun t ht => hput t (List.mem_cons_of_mem _ ht)]
        exact hfirst (by simp only; omega)

theorem layOut_mapped {x : ℕ} (hlow : va ≤ x)
    (hhigh : x < va + (length - (layOut put i segs va length tr).left))
    (hput : ∀ s ∈ clip length segs, ∀ i tr va tr', put i tr va s.start s.length = .ok tr' →
      tr' = tr.mapRange va s.start s.length) :
    (layOut put i segs va length tr).tr x ≠ none := by
  induction segs generalizing i va length tr with
  | nil =>
    simp only [layOut] at hhigh
    omega
  | cons s segs ih =>
    unfold clip at hput
    unfold layOut at hhigh ⊢
    cases hret : put i tr va s.start (min length s.length) with
    | error e =>
      simp only [hret] at hhigh
      omega
    | ok mid =>
      have hfirst := hput _ (List.mem_cons_self ..) i tr va mid hret
      have hmapped : x < va + min length s.length → mid x ≠ none := by
        intro hx
        obtain ⟨o, rfl⟩ : ∃ o, x = va + o := ⟨x - va, by omega⟩
        rw [hfirst, Translation.mapRange, Translation.overlay_add (by simp only; omega)]
        exact Option.some_ne_none _
      simp only [hret] at hhigh ⊢
      split_ifs at hput hhigh ⊢ with hleft
      · exact hmapped (by simp only at hhigh; omega)
      · have hrest : ∀ t ∈ clip (length - min length s.length) segs, ∀ i tr va tr',
            put i tr va t.start t.length = .ok tr' → tr' = tr.mapRange va t.start t.length :=
          fun t ht => hput t (List.mem_cons_of_mem _ ht)
        by_cases hx : x < va + min length s.length
        · rw [layOut_outside (Or.inl hx) fun t ht i tr va tr' hret' hout => by
            rw [hrest t ht i tr va tr' hret']
            exact Translation.overlay_outside hout]
          exact hmapped hx
        · exact ih (by omega) (by omega) hrest

theorem layOut_left_mod {m : ℕ} (hlength : length % m = 0)
    (hput : ∀ s ∈ clip length segs, ∀ i tr va tr', put i tr va s.start s.length = .ok tr' →
      s.length % m = 0) :
    (layOut put i segs va length tr).left % m = 0 := by
  induction segs generalizing i va length tr with
  | nil => exact hlength
  | cons s segs ih =>
    unfold clip at hput
    unfold layOut
    cases hret : put i tr va s.start (min length s.length) with
    | error e => exact hlength
    | ok mid =>
      have hfirst := hput _ (List.mem_cons_self ..) i tr va mid hret
      simp only
      split_ifs at hput ⊢ with hleft
      · exact Nat.zero_mod m
      · exact ih (Nat.sub_mod_eq_zero_of_mod_eq (hlength.trans hfirst.symm))
          fun t ht => hput t (List.mem_cons_of_mem _ ht)

/-- One of the pieces is not accepted. -/
def Refuses (accepts : ℕ → Segment → Prop) : ℕ → List Segment → Prop
  | _, [] => False
  | i, s :: segs => ¬ accepts i s ∨ Refuses accepts (i + 1) segs

/-- A piece that is not empty is accepted, and so are those before it. -/
def Begins (accepts : ℕ → Segment → Prop) : ℕ → List Segment → Prop
  | _, [] => False
  | i, s :: segs => accepts i s ∧ (0 < s.length ∨ Begins accepts (i + 1) segs)

section Accepted
variable {accepts : ℕ → Segment → Prop}

instance [∀ i s, Decidable (accepts i s)] :
    (i : ℕ) → (segs : List Segment) → Decidable (Refuses accepts i segs)
  | _, [] => .isFalse id
  | i, s :: segs =>
    have := instDecidableRefuses (i + 1) segs
    inferInstanceAs (Decidable (¬ accepts i s ∨ Refuses accepts (i + 1) segs))

instance [∀ i s, Decidable (accepts i s)] :
    (i : ℕ) → (segs : List Segment) → Decidable (Begins accepts i segs)
  | _, [] => .isFalse id
  | i, s :: segs =>
    have := instDecidableBegins (i + 1) segs
    inferInstanceAs (Decidable (accepts i s ∧ (0 < s.length ∨ Begins accepts (i + 1) segs)))

/-- A layout stops where a piece is refused. `A` is what is known of the addresses. -/
theorem layOut_refused_iff (A : ℕ → Prop) (hva : A va)
    (hput : ∀ s ∈ clip length segs, ∀ i tr va, A va →
      ((∃ tr', put i tr va s.start s.length = .ok tr') ↔ accepts i s) ∧
        (accepts i s → A (va + s.length))) :
    (layOut put i segs va length tr).refused ≠ none ↔ Refuses accepts i (clip length segs) := by
  induction segs generalizing i va length tr with
  | nil => exact iff_of_false (fun h => h rfl) id
  | cons s segs ih =>
    unfold clip at hput ⊢
    obtain ⟨hacc, hnext⟩ := hput _ (List.mem_cons_self ..) i tr va hva
    unfold layOut Refuses
    cases hret : put i tr va s.start (min length s.length) with
    | error e =>
      refine iff_of_true (Option.some_ne_none e) (Or.inl fun h => ?_)
      obtain ⟨tr', hok⟩ := hacc.mpr h
      rw [hret] at hok
      cases hok
    | ok mid =>
      have hfirst : accepts i ⟨s.start, min length s.length⟩ := hacc.mp ⟨mid, hret⟩
      simp only
      split_ifs at hput ⊢ with hleft
      · exact iff_of_false (fun h => h rfl) (not_or.mpr ⟨not_not_intro hfirst, id⟩)
      · rw [ih (hnext hfirst) fun t ht => hput t (List.mem_cons_of_mem _ ht)]
        exact (or_iff_right (not_not_intro hfirst)).symm

/-- A layout uses up something where a piece that is not empty is accepted. -/
theorem layOut_used_iff (A : ℕ → Prop) (hva : A va)
    (hput : ∀ s ∈ clip length segs, ∀ i tr va, A va →
      ((∃ tr', put i tr va s.start s.length = .ok tr') ↔ accepts i s) ∧
        (accepts i s → A (va + s.length))) :
    (layOut put i segs va length tr).left < length ↔ Begins accepts i (clip length segs) := by
  induction segs generalizing i va length tr with
  | nil => exact iff_of_false (Nat.lt_irrefl length) id
  | cons s segs ih =>
    unfold clip at hput ⊢
    obtain ⟨hacc, hnext⟩ := hput _ (List.mem_cons_self ..) i tr va hva
    unfold layOut Begins
    cases hret : put i tr va s.start (min length s.length) with
    | error e =>
      refine iff_of_false (Nat.lt_irrefl length) fun h => ?_
      obtain ⟨tr', hok⟩ := hacc.mpr h.1
      rw [hret] at hok
      cases hok
    | ok mid =>
      have hfirst : accepts i ⟨s.start, min length s.length⟩ := hacc.mp ⟨mid, hret⟩
      rw [and_iff_right hfirst]
      simp only
      split_ifs at hput ⊢ with hleft
      · show 0 < length ↔ 0 < min length s.length ∨ False
        rw [or_false]
        omega
      · have hle := @layOut_left_le _ put (i + 1) segs (va + min length s.length)
          (length - min length s.length) mid
        by_cases hpos : 0 < min length s.length
        · exact iff_of_true (by omega) (Or.inl hpos)
        · have hrest : (layOut put (i + 1) segs (va + min length s.length)
              (length - min length s.length) mid).left < length - min length s.length ↔ _ :=
            ih (hnext hfirst) fun t ht => hput t (List.mem_cons_of_mem _ ht)
          rw [or_iff_right hpos, ← hrest]
          omega

end Accepted

/-- Every piece of a layout that nothing refused was accepted. -/
theorem layOut_pieces (h : layOut put i segs va length tr = ⟨none, tr', left⟩) :
    ∀ s ∈ clip length segs, ∃ i tr va tr', put i tr va s.start s.length = .ok tr' := by
  induction segs generalizing i va length tr with
  | nil => simp [clip]
  | cons s segs ih =>
    unfold layOut at h
    unfold clip
    cases hput : put i tr va s.start (min length s.length) with
    | error e => simp [hput] at h
    | ok mid =>
      rw [hput] at h
      simp only at h
      intro t ht
      obtain rfl | ht := List.mem_cons.mp ht
      · exact ⟨i, tr, va, mid, hput⟩
      · split_ifs at h ht with hleft
        · cases ht
        · exact ih h t ht

/-- **A layout that nothing refused** shows, from `va` on, the bytes of the list, when each of
its pieces is mapped as a range. -/
theorem layOut_ok (h : layOut put i segs va length tr = ⟨none, tr', left⟩)
    (hput : ∀ s ∈ clip length segs, ∀ i tr va tr', put i tr va s.start s.length = .ok tr' →
      tr' = tr.mapRange va s.start s.length) :
    tr' = tr.overlay va (total (clip length segs)) (byteAt (clip length segs)) := by
  induction segs generalizing i va length tr with
  | nil =>
    cases h
    exact Translation.overlay_empty.symm
  | cons s segs ih =>
    unfold layOut at h
    unfold clip at hput ⊢
    cases hret : put i tr va s.start (min length s.length) with
    | error e => simp [hret] at h
    | ok mid =>
      rw [hret] at h
      simp only at h
      have hmid := hput _ (List.mem_cons_self ..) i tr va mid hret
      rw [total_cons]
      split_ifs at h hput ⊢ with hleft
      · cases h
        rw [hmid, total_nil, Nat.add_zero]
        refine Translation.overlay_congr fun o ho => ?_
        unfold byteAt
        rw [if_pos ho]
      · have hrest := ih h fun t ht => hput t (List.mem_cons_of_mem _ ht)
        rw [hrest, hmid]
        exact Translation.overlay_overlay ..

/-- A layout whose pieces are all accepted is not refused. `A` is what is known of the
addresses. -/
theorem layOut_accepts (A : ℕ → Prop) (hva : A va)
    (hput : ∀ s ∈ clip length segs, ∀ i tr va, A va → A (va + s.length) ∧
      ∃ tr', put i tr va s.start s.length = .ok tr') :
    (layOut put i segs va length tr).refused = none := by
  induction segs generalizing i va length tr with
  | nil => rfl
  | cons s segs ih =>
    unfold clip at hput
    obtain ⟨hnext, mid, hmid⟩ := hput _ (List.mem_cons_self ..) i tr va hva
    unfold layOut
    simp only at hmid hnext
    rw [hmid]
    simp only
    split_ifs with hleft
    · rfl
    · rw [if_neg hleft] at hput
      exact ih hnext fun t ht => hput t (List.mem_cons_of_mem _ ht)

end LayOut

/-! ## Windows -/

/-- `n` addresses from `va` on, which show the bytes from `pa` on. -/
structure Window where
  va : ℕ
  pa : ℕ
  n : ℕ
  deriving DecidableEq, Repr

namespace Window

def Shown (w : Window) (x p : ℕ) : Prop := w.va ≤ x ∧ x < w.va + w.n ∧ p = w.pa + (x - w.va)

/-- The `n` addresses from `va` on lie outside the window. -/
def Clear (w : Window) (va n : ℕ) : Prop := w.va + w.n ≤ va ∨ va + n ≤ w.va

theorem Clear.outside {w : Window} {va n x p : ℕ} (h : w.Clear va n) (hx : w.Shown x p) :
    x < va ∨ va + n ≤ x := by
  obtain ⟨hlow, hhigh, -⟩ := hx
  obtain h | h := h
  · exact Or.inl (by omega)
  · exact Or.inr (by omega)

end Window

namespace Translation
variable {region : ℕ → Prop} {tr : Translation} {ws ws' : List Window} {w : Window} {va n : ℕ}
  {f : Translation}

/-- Of a region, `tr` shows the windows and nothing else. -/
def Shows (region : ℕ → Prop) (tr : Translation) (ws : List Window) : Prop :=
  ∀ x p, region p → (tr x = some p ↔ ∃ w ∈ ws, w.Shown x p)

theorem Shows.nil : Shows region (fun _ => none) [] := by
  intro x p _
  simp

theorem Shows.perm (h : Shows region tr ws) (hp : ws.Perm ws') : Shows region tr ws' := by
  intro x p hregion
  rw [h x p hregion]
  exact exists_congr fun w => and_congr_left' hp.mem_iff

/-- What happens away from the windows and does not show the region is not seen. -/
theorem Shows.overlay (h : Shows region tr ws) (hclear : ∀ w ∈ ws, w.Clear va n)
    (hhidden : ∀ o < n, ∀ p, f o = some p → ¬ region p) :
    Shows region (tr.overlay va n f) ws := by
  intro x p hregion
  rw [← h x p hregion]
  unfold Translation.overlay
  split_ifs with hx
  · constructor
    · intro hf
      exact absurd hregion (hhidden (x - va) (by omega) p hf)
    · intro hshown
      obtain ⟨w, hw, hxw⟩ := (h x p hregion).mp hshown
      obtain hout | hout := (hclear w hw).outside hxw
      · omega
      · omega
  · exact Iff.rfl

theorem Shows.push (h : Shows region tr ws) (hclear : ∀ u ∈ ws, u.Clear w.va w.n) :
    Shows region (tr.mapRange w.va w.pa w.n) (w :: ws) := by
  intro x p hregion
  rw [List.exists_mem_cons_iff]
  unfold Translation.mapRange Translation.overlay
  split_ifs with hx
  · constructor
    · intro hp
      exact Or.inl ⟨hx.1, hx.2, (Option.some.inj hp).symm⟩
    · rintro (⟨-, -, hp⟩ | ⟨u, hu, hxu⟩)
      · rw [hp]
      · obtain hout | hout := (hclear u hu).outside hxu
        · omega
        · omega
  · rw [h x p hregion]
    constructor
    · exact Or.inr
    · rintro (⟨hlow, hhigh, -⟩ | hrest)
      · exact absurd ⟨hlow, hhigh⟩ hx
      · exact hrest

theorem Shows.pop (h : Shows region tr (w :: ws)) (hclear : ∀ u ∈ ws, u.Clear w.va w.n) :
    Shows region (tr.unmapRange w.va w.n) ws := by
  intro x p hregion
  have hold := h x p hregion
  rw [List.exists_mem_cons_iff] at hold
  unfold Translation.unmapRange Translation.overlay
  split_ifs with hx
  · constructor
    · intro hp
      cases hp
    · rintro ⟨u, hu, hxu⟩
      obtain hout | hout := (hclear u hu).outside hxu
      · omega
      · omega
  · rw [hold]
    constructor
    · rintro (⟨hlow, hhigh, -⟩ | hrest)
      · exact absurd ⟨hlow, hhigh⟩ hx
      · exact hrest
    · exact Or.inr

end Translation
end RknpuDriver.Lib
