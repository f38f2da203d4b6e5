import RknpuDriver.Lib.Layout
import Mathlib.Data.List.Basic

/-! # The bytes of a scatter-gather list

A list of segments is a list of bytes, one segment after another. A window of it is a run of
these bytes, cut at the ends of the segments; it is what a loop over the list has to visit when
it is given an offset and a length.

* `Segment.window`: the pieces of a run of bytes, none of them empty.
* `bytes_window`: a window has the bytes of the run, in order.
* `window_inside`: a piece lies in one segment.
* `Segment.piece`, `pieces_window`: the pieces of a window, segment by segment.
-/

namespace RknpuDriver.Lib
set_option autoImplicit false

/-! ## Runs of a list -/

section Runs
variable {α : Type} {l : List α} {a b n : ℕ}

theorem mem_drop_take {x : α} :
    x ∈ (l.drop a).take n ↔ ∃ j, a ≤ j ∧ j < a + n ∧ l[j]? = some x := by
  rw [List.mem_iff_getElem?]
  constructor
  · rintro ⟨i, hi⟩
    rw [List.getElem?_take] at hi
    split_ifs at hi with hlt
    rw [List.getElem?_drop] at hi
    exact ⟨a + i, by omega, by omega, hi⟩
  · rintro ⟨j, hlow, hhigh, hj⟩
    refine ⟨j - a, ?_⟩
    rw [List.getElem?_take, if_pos (by omega), List.getElem?_drop, Nat.add_sub_cancel' hlow]
    exact hj

/-- In a list without repetition, a run lies in a prefix only where its places do. -/
theorem run_subset_take (hnodup : l.Nodup) (hb : b ≤ l.length) :
    (∀ x ∈ (l.drop a).take (b - a), x ∈ l.take n) ↔ b ≤ a ∨ b ≤ n := by
  have htake : l.take n = (l.drop 0).take n := by rw [List.drop_zero]
  simp only [htake, mem_drop_take]
  constructor
  · intro h
    by_contra hout
    have hlast : b - 1 < l.length := by omega
    obtain ⟨j, -, hj, hget⟩ := h l[b - 1]
      ⟨b - 1, by omega, by omega, List.getElem?_eq_getElem hlast⟩
    have hsame := (List.getElem?_inj hlast hnodup).mp
      ((List.getElem?_eq_getElem hlast).trans hget.symm)
    omega
  · rintro hin x ⟨j, hlow, hhigh, hj⟩
    exact ⟨j, Nat.zero_le _, by omega, hj⟩

end Runs

/-! ## Segments -/

namespace Segment

/-- The addresses of a segment. -/
def addrs (s : Segment) : List ℕ := List.range' s.start s.length

/-- The addresses of a list of segments, in order. -/
def bytes (segs : List Segment) : List ℕ := segs.flatMap addrs

/-- The pieces of the `n` bytes from byte `a` on. -/
def window : ℕ → ℕ → List Segment → List Segment
  | _, _, [] => []
  | a, n, s :: segs =>
    if s.length ≤ a then window (a - s.length) n segs
    else if n = 0 then []
    else ⟨s.start + a, min n (s.length - a)⟩ :: window 0 (n - min n (s.length - a)) segs

/-- The segments that begin before byte `n`. -/
def before : ℕ → List Segment → List Segment
  | _, [] => []
  | n, s :: segs => if n = 0 then [] else s :: before (n - s.length) segs

variable {s : Segment} {segs : List Segment} {a n : ℕ}

@[simp] theorem length_addrs (s : Segment) : s.addrs.length = s.length := List.length_range'

@[simp] theorem bytes_nil : bytes [] = [] := rfl

@[simp] theorem bytes_cons (s : Segment) (segs : List Segment) :
    bytes (s :: segs) = s.addrs ++ bytes segs := rfl

theorem bytes_append (segs segs' : List Segment) :
    bytes (segs ++ segs') = bytes segs ++ bytes segs' := List.flatMap_append

theorem length_bytes (segs : List Segment) : (bytes segs).length = total segs := by
  induction segs with
  | nil => rfl
  | cons s segs ih => rw [bytes_cons, List.length_append, length_addrs, ih, total_cons]

theorem mem_addrs {x : ℕ} : x ∈ s.addrs ↔ s.start ≤ x ∧ x < s.start + s.length :=
  List.mem_range'_1

theorem mem_bytes {x : ℕ} : x ∈ bytes segs ↔ ∃ s ∈ segs, s.start ≤ x ∧ x < s.start + s.length := by
  unfold bytes
  rw [List.mem_flatMap]
  exact exists_congr fun s => and_congr_right fun _ => mem_addrs

/-- The two ways to say which byte is at a place of a list. -/
theorem getElem?_bytes (segs : List Segment) (o : ℕ) : (bytes segs)[o]? = byteAt segs o := by
  induction segs generalizing o with
  | nil => rfl
  | cons s segs ih =>
    rw [bytes_cons]
    unfold byteAt
    by_cases ho : o < s.length
    · rw [if_pos ho, List.getElem?_append_left (by rwa [length_addrs]), addrs,
        List.getElem?_range' ho, Nat.one_mul]
    · rw [if_neg ho, List.getElem?_append_right (by rw [length_addrs]; omega), length_addrs]
      exact ih (o - s.length)

theorem bytes_filter (segs : List Segment) :
    bytes (segs.filter fun s => 0 < s.length) = bytes segs := by
  induction segs with
  | nil => rfl
  | cons s segs ih =>
    by_cases hs : 0 < s.length
    · rw [List.filter_cons_of_pos (by simpa using hs), bytes_cons, bytes_cons, ih]
    · rw [List.filter_cons_of_neg (by simpa using hs), bytes_cons, ih]
      have hempty : s.addrs = [] := by
        unfold addrs
        rw [Nat.eq_zero_of_not_pos hs]
        rfl
      rw [hempty, List.nil_append]

/-! ## Windows -/

theorem window_zero (a : ℕ) (segs : List Segment) : window a 0 segs = [] := by
  induction segs generalizing a with
  | nil => rfl
  | cons s segs ih =>
    unfold window
    rw [if_pos rfl]
    split_ifs
    · exact ih _
    · rfl

/-- **A window has the bytes of its run**, each once and in order. -/
theorem bytes_window (a n : ℕ) (segs : List Segment) :
    bytes (window a n segs) = ((bytes segs).drop a).take n := by
  induction segs generalizing a n with
  | nil => simp [window]
  | cons s segs ih =>
    rw [bytes_cons]
    unfold window
    by_cases hs : s.length ≤ a
    · have hskip : s.addrs.drop a = [] := List.drop_of_length_le (by rwa [length_addrs])
      rw [if_pos hs, ih, List.drop_append, hskip, length_addrs, List.nil_append]
    · rw [if_neg hs]
      by_cases hn : n = 0
      · rw [if_pos hn, hn, List.take_zero]
        rfl
      · have hdrop : s.addrs.drop a = List.range' (s.start + a) (s.length - a) := by
          unfold addrs
          rw [List.drop_range', Nat.mul_one]
        have htake : (List.range' (s.start + a) (s.length - a)).take n =
            List.range' (s.start + a) (min n (s.length - a)) := by
          obtain hn' | hn' := Nat.le_total n (s.length - a)
          · rw [List.take_range'_of_length_ge hn', Nat.min_eq_left hn']
          · rw [List.take_range'_of_length_le hn', Nat.min_eq_right hn']
        have hrest : a - s.length = 0 := by omega
        rw [if_neg hn, bytes_cons, ih, List.drop_zero, List.drop_append, length_addrs, hrest,
          List.drop_zero, hdrop, List.take_append, htake, List.length_range']
        congr 2
        omega

theorem mem_bytes_window {x : ℕ} :
    x ∈ bytes (window a n segs) ↔ ∃ j, a ≤ j ∧ j < a + n ∧ byteAt segs j = some x := by
  rw [bytes_window, mem_drop_take]
  simp only [getElem?_bytes]

theorem window_pos {p : Segment} (hp : p ∈ window a n segs) : 0 < p.length := by
  induction segs generalizing a n with
  | nil => cases hp
  | cons s segs ih =>
    unfold window at hp
    split_ifs at hp with hs hn
    · exact ih hp
    · cases hp
    · obtain rfl | hp := List.mem_cons.mp hp
      · show 0 < min n (s.length - a)
        omega
      · exact ih hp

theorem window_inside {p : Segment} (hp : p ∈ window a n segs) :
    ∃ s ∈ segs, s.start ≤ p.start ∧ p.start + p.length ≤ s.start + s.length := by
  induction segs generalizing a n with
  | nil => cases hp
  | cons s segs ih =>
    unfold window at hp
    split_ifs at hp with hs hn
    · obtain ⟨t, ht, hin⟩ := ih hp
      exact ⟨t, List.mem_cons_of_mem _ ht, hin⟩
    · cases hp
    · obtain rfl | hp := List.mem_cons.mp hp
      · refine ⟨s, List.mem_cons_self .., Nat.le_add_right _ _, ?_⟩
        show s.start + a + min n (s.length - a) ≤ _
        omega
      · obtain ⟨t, ht, hin⟩ := ih hp
        exact ⟨t, List.mem_cons_of_mem _ ht, hin⟩

theorem total_window (a n : ℕ) (segs : List Segment) :
    total (window a n segs) = min n (total segs - a) := by
  rw [← length_bytes, bytes_window, List.length_take, List.length_drop, length_bytes]

/-! ## Segments by their place -/

/-- The segments of a list, each with the byte that it begins at; the first one begins at `p`. -/
def placed : ℕ → List Segment → List (ℕ × Segment)
  | _, [] => []
  | p, s :: segs => (p, s) :: placed (p + s.length) segs

/-- What of a segment lies in the `n` bytes from byte `a` on. -/
def piece (a n : ℕ) (q : ℕ × Segment) : Segment :=
  ⟨q.2.start + (max a q.1 - q.1), min (a + n) (q.1 + q.2.length) - max a q.1⟩

theorem placed_segs (p : ℕ) (segs : List Segment) : (placed p segs).map Prod.snd = segs := by
  induction segs generalizing p with
  | nil => rfl
  | cons s segs ih => exact congrArg (s :: ·) (ih _)

theorem le_of_mem_placed {p : ℕ} {q : ℕ × Segment} (hq : q ∈ placed p segs) :
    p ≤ q.1 ∧ q.1 + q.2.length ≤ p + total segs := by
  induction segs generalizing p with
  | nil => cases hq
  | cons s segs ih =>
    rw [total_cons]
    obtain rfl | hq := List.mem_cons.mp hq
    · exact ⟨Nat.le_refl p, by simp only; omega⟩
    · have := ih hq
      omega

/-- The pieces that are not empty make up the window. -/
theorem pieces_window (p : ℕ) (segs : List Segment) :
    ((placed p segs).map (piece a n)).filter (fun s => 0 < s.length) =
      window (a - p) (a + n - max a p) segs := by
  induction segs generalizing p with
  | nil => rfl
  | cons s segs ih =>
    unfold placed window
    rw [List.map_cons]
    by_cases hs : s.length ≤ a - p
    · have hempty : ¬ 0 < (piece a n (p, s)).length := by
        simp only [piece]
        omega
      rw [if_pos hs, List.filter_cons_of_neg (by simpa using hempty), ih]
      congr 1 <;> omega
    · rw [if_neg hs]
      by_cases hn : a + n - max a p = 0
      · have hempty : ¬ 0 < (piece a n (p, s)).length := by
          simp only [piece]
          omega
        have hrest : a + n - max a (p + s.length) = 0 := by omega
        rw [if_pos hn, List.filter_cons_of_neg (by simpa using hempty), ih, hrest, window_zero]
      · have hfirst : piece a n (p, s) =
            ⟨s.start + (a - p), min (a + n - max a p) (s.length - (a - p))⟩ := by
          unfold piece
          congr 1 <;> simp only <;> omega
        have hpos : 0 < (piece a n (p, s)).length := by
          rw [hfirst]
          simp only
          omega
        rw [if_neg hn, List.filter_cons_of_pos (by simpa using hpos), ih, hfirst]
        congr 2 <;> omega

end Segment

/-- A list of fewer than `m` segments, each of fewer than `m` bytes. -/
structure ScatterList (m : ℕ) where
  segs : List Segment
  length_lt : ∀ s ∈ segs, s.length < m
  count_lt : segs.length < m

theorem ScatterList.total_lt {m : ℕ} (t : ScatterList m) : Segment.total t.segs < m * m := by
  have hle : ∀ segs : List Segment, (∀ s ∈ segs, s.length < m) →
      Segment.total segs ≤ segs.length * m := by
    intro segs hlt
    induction segs with
    | nil => exact Nat.zero_le _
    | cons s segs ih =>
      rw [Segment.total_cons, List.length_cons, Nat.succ_mul]
      have hs := hlt s (List.mem_cons_self ..)
      have hrest := ih fun u hu => hlt u (List.mem_cons_of_mem _ hu)
      omega
  have hpos : 0 < m := Nat.zero_lt_of_lt t.count_lt
  exact Nat.lt_of_le_of_lt (hle t.segs t.length_lt)
    ((Nat.mul_lt_mul_right hpos).mpr t.count_lt)

end RknpuDriver.Lib
