import RknpuDriver.Lib.Scatter
import Mathlib.Data.List.Chain
import Mathlib.Data.List.Pairwise

/-! # Segments that meet

A run of segments each of which begins where the one before it ends fills one segment, its span.

* `addrs_span`: the bytes of the span.
* `cuts_span`: an address inside the span is inside one of the segments, or between two of them.
* `not_cuts_between`: where two of them meet is inside of neither.
* `pairwise_span`: the spans of runs that follow each other do so too.
* `eq_of_cuts`: no address is inside two of them.
-/

namespace RknpuDriver.Lib
set_option autoImplicit false

namespace Segment

def Meets (s t : Segment) : Prop := s.start + s.length = t.start

/-- Segment `s` ends before `t` begins, or where it does. -/
def Before (s t : Segment) : Prop := s.start + s.length ≤ t.start

/-- The segment that a run fills. -/
def span : List Segment → Segment
  | [] => ⟨0, 0⟩
  | s :: segs => ⟨s.start, total (s :: segs)⟩

/-- `x` has bytes of the segment on both sides. -/
def Cuts (x : ℕ) (s : Segment) : Prop := s.start < x ∧ x < s.start + s.length

variable {s t : Segment} {segs : List Segment} {x : ℕ}

@[simp] theorem length_span (segs : List Segment) : (span segs).length = total segs := by
  cases segs <;> rfl

theorem total_append (segs segs' : List Segment) :
    total (segs ++ segs') = total segs + total segs' := by
  induction segs with
  | nil => exact (Nat.zero_add _).symm
  | cons s segs ih => rw [List.cons_append, total_cons, total_cons, ih, Nat.add_assoc]

theorem span_append (hsegs : segs ≠ []) (segs' : List Segment) :
    (span (segs ++ segs')).start = (span segs).start := by
  cases segs with
  | nil => exact absurd rfl hsegs
  | cons s segs => rfl

theorem addrs_span (h : segs.IsChain Meets) : (span segs).addrs = bytes segs := by
  induction segs with
  | nil => rfl
  | cons s segs ih =>
    cases segs with
    | nil =>
      rw [bytes_cons, bytes_nil, List.append_nil]
      rfl
    | cons t segs =>
      obtain ⟨hmeet, hrest⟩ := List.isChain_cons_cons.mp h
      have hspan : span (t :: segs) = ⟨s.start + s.length, total (t :: segs)⟩ := by
        rw [hmeet]
        rfl
      rw [bytes_cons, ← ih hrest, hspan]
      show List.range' s.start (total (s :: t :: segs)) = _ ++ List.range' _ _
      rw [total_cons, addrs, ← List.range'_append_1]

theorem span_end (h : (segs ++ [s]).IsChain Meets) :
    (span (segs ++ [s])).start + total (segs ++ [s]) = s.start + s.length := by
  induction segs with
  | nil => rfl
  | cons t segs ih =>
    cases segs with
    | nil =>
      have hmeet : t.start + t.length = s.start := (List.isChain_cons_cons.mp h).1
      show t.start + total [t, s] = _
      rw [total_cons, total_cons, total_nil]
      omega
    | cons u segs =>
      obtain ⟨hmeet, hrest⟩ := List.isChain_cons_cons.mp h
      have hlast := ih hrest
      have hstart : t.start + t.length = u.start := hmeet
      rw [List.cons_append, span] at hlast
      show t.start + total (t :: (u :: segs ++ [s])) = _
      rw [total_cons, ← hlast]
      show _ = u.start + _
      rw [← hstart, Nat.add_assoc]
      rfl

theorem mem_span (h : segs.IsChain Meets) (hs : s ∈ segs) :
    (span segs).start ≤ s.start ∧ s.start + s.length ≤ (span segs).start + total segs := by
  induction segs with
  | nil => cases hs
  | cons t segs ih =>
    rw [total_cons]
    show t.start ≤ s.start ∧ s.start + s.length ≤ t.start + _
    obtain rfl | hs := List.mem_cons.mp hs
    · exact ⟨Nat.le_refl _, by omega⟩
    · cases segs with
      | nil => cases hs
      | cons u segs =>
        obtain ⟨hmeet, hrest⟩ := List.isChain_cons_cons.mp h
        obtain ⟨hlow, hhigh⟩ := ih hrest hs
        have hstart : t.start + t.length = (span (u :: segs)).start := hmeet
        omega

theorem start_of_append {left right : List Segment} (h : (left ++ s :: right).IsChain Meets)
    (hleft : left ≠ []) : (span (left ++ s :: right)).start + total left = s.start := by
  obtain ⟨left, t, rfl⟩ := left.eq_nil_or_concat'.resolve_left hleft
  obtain ⟨hchain, -, hmeets⟩ := List.isChain_append.mp h
  have hmeet : t.start + t.length = s.start := by
    refine hmeets t ?_ s ?_
    · rw [List.getLast?_concat]
      rfl
    · rfl
  rw [span_append hleft, span_end hchain, hmeet]

/-- No segment has bytes on both sides of the end of another. -/
theorem not_cuts_between {left right : List Segment} (h : (left ++ right).IsChain Meets)
    (hleft : left ≠ []) (hs : s ∈ left ++ right) :
    ¬ Cuts ((span (left ++ right)).start + total left) s := by
  rintro ⟨hlow, hhigh⟩
  obtain ⟨hchain, hchain', -⟩ := List.isChain_append.mp h
  obtain hs | hs := List.mem_append.mp hs
  · have hin := (mem_span hchain hs).2
    rw [span_append hleft] at hhigh
    omega
  · cases right with
    | nil => cases hs
    | cons t right =>
      have hin := (mem_span hchain' hs).1
      rw [start_of_append h hleft] at hlow
      have hstart : (span (t :: right)).start = t.start := rfl
      omega

/-- An address with bytes of the span on both sides is inside a segment, or between two runs that
both have bytes. -/
theorem cuts_span (h : segs.IsChain Meets) :
    Cuts x (span segs) ↔ (∃ s ∈ segs, Cuts x s) ∨
      ∃ left right, segs = left ++ right ∧ 0 < total left ∧ 0 < total right ∧
        x = (span segs).start + total left := by
  induction segs with
  | nil =>
    constructor
    · rintro ⟨hlow, hhigh⟩
      exact absurd hhigh (Nat.not_lt.mpr hlow.le)
    · rintro (⟨s, hs, -⟩ | ⟨left, right, hsplit, hleft, -⟩)
      · cases hs
      · obtain ⟨rfl, -⟩ := List.append_eq_nil_iff.mp hsplit.symm
        exact absurd hleft (Nat.lt_irrefl 0)
  | cons s segs ih =>
    have hcut : Cuts x (span (s :: segs)) ↔
        s.start < x ∧ x < s.start + (s.length + total segs) := by
      rw [← total_cons]
      rfl
    have hrest : segs.IsChain Meets := List.IsChain.of_cons h
    have hnext : 0 < total segs → (span segs).start = s.start + s.length := by
      intro hpos
      cases segs with
      | nil => exact absurd hpos (Nat.lt_irrefl 0)
      | cons t segs => exact (List.isChain_cons_cons.mp h).1.symm
    constructor
    · intro hx
      obtain ⟨hlow, hhigh⟩ := hcut.mp hx
      by_cases hs : x < s.start + s.length
      · exact Or.inl ⟨s, List.mem_cons_self, hlow, hs⟩
      · have hstart := hnext (by omega)
        by_cases hx' : x = s.start + s.length
        · refine Or.inr ⟨[s], segs, rfl, ?_, by omega, ?_⟩
          · rw [total_cons, total_nil]
            omega
          · rw [total_cons, total_nil]
            exact hx'
        · have hin : Cuts x (span segs) := by
            rw [Cuts, hstart, length_span]
            omega
          obtain ⟨u, hu, hcuts⟩ | ⟨left, right, rfl, hleft, hright, hxl⟩ := (ih hrest).mp hin
          · exact Or.inl ⟨u, List.mem_cons_of_mem _ hu, hcuts⟩
          · refine Or.inr ⟨s :: left, right, rfl, ?_, hright, ?_⟩
            · rw [total_cons]
              omega
            · show x = s.start + total (s :: left)
              rw [total_cons]
              omega
    · rintro (⟨u, hu, hlow, hhigh⟩ | ⟨left, right, hsplit, hleft, hright, hxl⟩)
      · refine hcut.mpr ?_
        obtain rfl | hu := List.mem_cons.mp hu
        · omega
        · have hin := (ih hrest).mpr (Or.inl ⟨u, hu, hlow, hhigh⟩)
          rw [Cuts, length_span] at hin
          have hstart := hnext (by omega)
          omega
      · refine hcut.mpr ?_
        have htotal : s.length + total segs = total left + total right := by
          rw [← total_cons, hsplit, total_append]
        have hx : x = s.start + total left := hxl
        omega

/-- The spans of the runs of ordered segments are ordered. -/
theorem pairwise_span {runs : List (List Segment)} (hruns : ∀ run ∈ runs, run.IsChain Meets)
    (hne : ∀ run ∈ runs, run ≠ []) (h : runs.flatten.Pairwise Before) :
    (runs.map span).Pairwise Before := by
  refine List.pairwise_map.mpr ((List.pairwise_flatten.mp h).2.imp_of_mem ?_)
  intro run run' hrun hrun' hbefore
  obtain ⟨run, s, rfl⟩ := run.eq_nil_or_concat'.resolve_left (hne _ hrun)
  obtain ⟨t, run', rfl⟩ := List.exists_cons_of_ne_nil (hne _ hrun')
  have hlast : s.start + s.length ≤ t.start :=
    hbefore s (List.mem_append_right _ List.mem_cons_self) t List.mem_cons_self
  show _ + (span (run ++ [s])).length ≤ t.start
  rw [length_span, span_end (hruns _ hrun)]
  exact hlast

theorem eq_of_cuts (h : segs.IsChain Meets) (hs : s ∈ segs) (ht : t ∈ segs) (hsx : Cuts x s)
    (htx : Cuts x t) : s = t := by
  have hbefore : segs.IsChain Before := h.imp fun s t hmeet => le_of_eq hmeet
  have htrans : IsTrans Segment Before := ⟨fun a b c hab hbc => by unfold Before at *; omega⟩
  have hpair := List.isChain_iff_pairwise.mp hbefore
  have hsymm : Std.Symm fun s t => Before s t ∨ Before t s := ⟨fun _ _ hab => hab.symm⟩
  by_contra hne
  have hapart := (hpair.imp Or.inl).forall (R := fun s t => Before s t ∨ Before t s) hs ht hne
  unfold Before at hapart
  unfold Cuts at hsx htx
  omega

end Segment

end RknpuDriver.Lib
