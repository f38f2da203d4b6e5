import RknpuDriver.Lib.System
import RknpuDriver.Lib.Ownership
import RknpuDriver.Mm.Pool
import Mathlib.Order.Interval.Finset.Nat

/-! # Every history of a pool

The users of a pool hold the objects that `rknpu_mm_alloc` gave them and free each at most
once. `poolSystem mm` runs any sequence of allocations (any size, any outcome of `kzalloc`)
and releases of live objects, from the pool `mm`. `Consistent` ties the bitmap, the counter
and the live objects together; every reachable state of a created pool is consistent.
-/

namespace RknpuDriver.Mm
open RknpuDriver.Lib
set_option autoImplicit false

/-- The chunks of an object. -/
def RknpuMmObj.chunks (obj : RknpuMmObj) : Finset ℕ := Finset.Icc obj.rangeStart obj.rangeEnd

/-- A pool and the objects its users hold. -/
structure PoolState where
  mm : RknpuMm
  live : List RknpuMmObj

inductive PoolCall where
  | alloc (size : UInt32) (objOk : Bool)
  | free (index : ℕ)
  deriving DecidableEq, Repr

def poolStep (s : PoolState) : PoolCall → Option PoolState
  | .alloc size objOk =>
    match rknpuMmAlloc s.mm size objOk with
    | none => none
    | some (.error _) => some s
    | some (.ok (mm, obj)) => some ⟨mm, s.live ++ [obj]⟩
  | .free index =>
    match s.live[index]? with
    | none => none
    | some obj => (rknpuMmFree s.mm obj).map fun mm => ⟨mm, s.live.eraseIdx index⟩

/-- What a call does: nothing when it fails, or what it returns joins the live objects or leaves
them. -/
theorem poolStep_cases {s t : PoolState} {call : PoolCall} (h : poolStep s call = some t) :
    (t = s ∧ ∃ size objOk e, call = .alloc size objOk ∧
        rknpuMmAlloc s.mm size objOk = some (.error e)) ∨
      (∃ size objOk mm obj, call = .alloc size objOk ∧
        rknpuMmAlloc s.mm size objOk = some (.ok (mm, obj)) ∧ t = ⟨mm, s.live ++ [obj]⟩) ∨
      ∃ index obj mm, call = .free index ∧ s.live[index]? = some obj ∧
        rknpuMmFree s.mm obj = some mm ∧ t = ⟨mm, s.live.eraseIdx index⟩ := by
  cases call with
  | alloc size objOk =>
    simp only [poolStep] at h
    split at h
    · cases h
    · rename_i e hret
      cases h
      exact Or.inl ⟨rfl, size, objOk, e, rfl, hret⟩
    · rename_i mm obj hret
      cases h
      exact Or.inr (Or.inl ⟨size, objOk, mm, obj, rfl, hret, rfl⟩)
  | free index =>
    simp only [poolStep] at h
    split at h
    · cases h
    · rename_i obj hobj
      obtain ⟨mm, hmm, rfl⟩ := Option.map_eq_some_iff.mp h
      exact Or.inr (Or.inr ⟨index, obj, mm, rfl, hobj, hmm, rfl⟩)

def poolSystem (mm : RknpuMm) : System PoolState PoolCall where
  init s := s = ⟨mm, []⟩
  step := poolStep

/-- The bitmap, the counter and the live objects agree. -/
structure Consistent (s : PoolState) : Prop where
  nonempty : ∀ obj ∈ s.live, obj.rangeStart ≤ obj.rangeEnd
  inside : ∀ obj ∈ s.live, obj.rangeEnd < s.mm.totalChunks
  owned : Owned RknpuMmObj.chunks s.live s.mm.bitmap
  counted : s.mm.freeChunks + (s.live.map fun obj => obj.chunks.card).sum = s.mm.totalChunks
  total_lt : s.mm.totalChunks < 2 ^ 32

theorem mem_chunks {obj : RknpuMmObj} {i : ℕ} :
    i ∈ obj.chunks ↔ obj.rangeStart ≤ i ∧ i ≤ obj.rangeEnd := Finset.mem_Icc

theorem card_chunks (obj : RknpuMmObj) :
    obj.chunks.card = obj.rangeEnd + 1 - obj.rangeStart := Nat.card_Icc _ _

theorem apart_of_disjoint {a b : RknpuMmObj} (ha : a.rangeStart ≤ a.rangeEnd)
    (hb : b.rangeStart ≤ b.rangeEnd) (h : Disjoint a.chunks b.chunks) :
    a.rangeEnd < b.rangeStart ∨ b.rangeEnd < a.rangeStart := by
  by_contra hcon
  have hmax : max a.rangeStart b.rangeStart ∈ a.chunks := mem_chunks.mpr (by omega)
  exact Finset.disjoint_left.mp h hmax (mem_chunks.mpr (by omega))

/-- Inside a pool, the length computed in `unsigned int` is the length. -/
theorem chunkCount_eq {obj : RknpuMmObj} (hne : obj.rangeStart ≤ obj.rangeEnd)
    (hlt : obj.rangeEnd + 1 < 2 ^ 32) : obj.chunkCount = obj.chunks.card := by
  unfold RknpuMmObj.chunkCount
  rw [u32Sub_of_le hne (by omega), u32_of_lt (by omega), card_chunks]
  omega

theorem consistent_of_create {memSize chunkSize : UInt32} {mmOk bitmapOk : Bool} {mm : RknpuMm}
    (h : rknpuMmCreate memSize chunkSize mmOk bitmapOk = .ok mm) : Consistent ⟨mm, []⟩ := by
  unfold rknpuMmCreate at h
  split_ifs at h
  cases h
  refine ⟨by simp, by simp, Owned.nil, by simp, ?_⟩
  exact lt_of_le_of_lt (Nat.div_le_self _ _) memSize.toNat_lt

theorem Consistent.alloc {s : PoolState} (hs : Consistent s) {mm : RknpuMm} {obj : RknpuMmObj}
    {size : UInt32} {objOk : Bool} (h : rknpuMmAlloc s.mm size objOk = some (.ok (mm, obj))) :
    Consistent ⟨mm, s.live ++ [obj]⟩ := by
  obtain ⟨hne, hin, hfree, rfl⟩ := rknpuMmAlloc_ok h
  have hlive := hs.owned.push obj fun i hi =>
    hfree i (mem_chunks.mp hi).1 (mem_chunks.mp hi).2
  have hinside : ∀ o ∈ s.live ++ [obj], o.rangeEnd < s.mm.totalChunks := by
    intro o ho
    rcases List.mem_append.mp ho with ho | ho
    · exact hs.inside o ho
    · rw [List.mem_singleton.mp ho]
      exact hin
  have hroom : (s.live.map fun o => o.chunks.card).sum + obj.chunks.card ≤ s.mm.totalChunks := by
    have hle := hlive.sum_card_le (n := s.mm.totalChunks) fun o ho i hi =>
      lt_of_le_of_lt (mem_chunks.mp hi).2 (hinside o ho)
    simpa using hle
  have hcount := hs.counted
  have htotal := hs.total_lt
  refine ⟨?_, hinside, ?_, ?_, htotal⟩
  · intro o ho
    rcases List.mem_append.mp ho with ho | ho
    · exact hs.nonempty o ho
    · rw [List.mem_singleton.mp ho]
      exact hne
  · simpa only [mem_chunks] using hlive
  · have hsub : u32Sub s.mm.freeChunks obj.chunkCount = s.mm.freeChunks - obj.chunks.card := by
      rw [chunkCount_eq hne (by omega)]
      exact u32Sub_of_le (by omega) (by omega)
    simp only [hsub, List.map_append, List.sum_append, List.map_cons, List.map_nil,
      List.sum_singleton]
    omega

theorem Consistent.free {s : PoolState} (hs : Consistent s) {mm : RknpuMm} {obj : RknpuMmObj}
    {index : ℕ} (hobj : s.live[index]? = some obj) (h : rknpuMmFree s.mm obj = some mm) :
    Consistent ⟨mm, s.live.eraseIdx index⟩ := by
  obtain rfl := rknpuMmFree_some h
  have hmem : obj ∈ s.live := List.mem_of_getElem? hobj
  have hsub : ∀ o ∈ s.live.eraseIdx index, o ∈ s.live := fun o ho => List.mem_of_mem_eraseIdx ho
  have hcount := hs.counted
  have htotal := hs.total_lt
  have hsum : (s.live.map fun o => o.chunks.card).sum =
      obj.chunks.card + ((s.live.eraseIdx index).map fun o => o.chunks.card).sum := by
    obtain ⟨hk, rfl⟩ := List.getElem?_eq_some_iff.mp hobj
    have hp := (List.getElem_cons_eraseIdx_perm hk).map fun o : RknpuMmObj => o.chunks.card
    rw [← hp.sum_eq, List.map_cons, List.sum_cons]
  refine ⟨fun o ho => hs.nonempty o (hsub o ho), fun o ho => hs.inside o (hsub o ho), ?_, ?_,
    htotal⟩
  · have hpop := hs.owned.erase hobj
    simpa only [mem_chunks] using hpop
  · have hin := hs.inside obj hmem
    have hadd : u32 (s.mm.freeChunks + obj.chunkCount) = s.mm.freeChunks + obj.chunks.card := by
      rw [chunkCount_eq (hs.nonempty obj hmem) (by omega)]
      exact u32_of_lt (by omega)
    simp only [hadd]
    omega

theorem Consistent.perm {mm : RknpuMm} {live live' : List RknpuMmObj}
    (hs : Consistent ⟨mm, live⟩) (hp : live.Perm live') : Consistent ⟨mm, live'⟩ := by
  refine ⟨fun obj hobj => hs.nonempty obj (hp.mem_iff.mpr hobj),
    fun obj hobj => hs.inside obj (hp.mem_iff.mpr hobj), hs.owned.perm hp, ?_, hs.total_lt⟩
  have hsum := (hp.map fun o : RknpuMmObj => o.chunks.card).sum_eq
  have hcount := hs.counted
  simp only at hcount ⊢
  omega

theorem consistent_step {s t : PoolState} {call : PoolCall} (hs : Consistent s)
    (h : poolStep s call = some t) : Consistent t := by
  obtain ⟨rfl, -⟩ | ⟨size, objOk, mm, obj, -, hret, rfl⟩ | ⟨index, obj, mm, -, hobj, hmm, rfl⟩ :=
    poolStep_cases h
  · exact hs
  · exact hs.alloc hret
  · exact hs.free hobj hmm

theorem Consistent.reachable {mm : RknpuMm} (h0 : Consistent ⟨mm, []⟩) {s : PoolState}
    (h : (poolSystem mm).Reachable s) : Consistent s := by
  refine h.invariant Consistent (fun t ht => ?_) fun _ _ _ hs ht => consistent_step hs ht
  rw [show t = ⟨mm, []⟩ from ht]
  exact h0

theorem step_sizes {s t : PoolState} {call : PoolCall} (h : poolStep s call = some t) :
    t.mm = { s.mm with bitmap := t.mm.bitmap, freeChunks := t.mm.freeChunks } := by
  obtain ⟨rfl, -⟩ | ⟨size, objOk, mm, obj, -, hret, rfl⟩ | ⟨index, obj, mm, -, -, hmm, rfl⟩ :=
    poolStep_cases h
  · rfl
  · rw [(rknpuMmAlloc_ok hret).2.2.2]
  · rw [rknpuMmFree_some hmm]

theorem reachable_sizes {mm : RknpuMm} {s : PoolState} (h : (poolSystem mm).Reachable s) :
    s.mm = { mm with bitmap := s.mm.bitmap, freeChunks := s.mm.freeChunks } := by
  refine h.invariant
    (fun t => t.mm = { mm with bitmap := t.mm.bitmap, freeChunks := t.mm.freeChunks })
    (fun t ht => ?_) fun s _ t hs ht => ?_
  · rw [show t = ⟨mm, []⟩ from ht]
  · rw [step_sizes ht, hs]

/-- **Every history of a created pool**: the live ranges are non-empty, pairwise disjoint and
inside the pool; a bit is set exactly when a live range holds it; the free counter is the total
less the lengths of the live ranges. -/
theorem pool_consistent {memSize chunkSize : UInt32} {mmOk bitmapOk : Bool} {mm : RknpuMm}
    (hcreate : rknpuMmCreate memSize chunkSize mmOk bitmapOk = .ok mm) {s : PoolState}
    (hs : (poolSystem mm).Reachable s) :
    (∀ obj ∈ s.live, obj.rangeStart ≤ obj.rangeEnd ∧ obj.rangeEnd < mm.totalChunks) ∧
      s.live.Pairwise (fun a b => a.rangeEnd < b.rangeStart ∨ b.rangeEnd < a.rangeStart) ∧
      (∀ i, s.mm.bitmap i = true ↔ ∃ obj ∈ s.live, obj.rangeStart ≤ i ∧ i ≤ obj.rangeEnd) ∧
      (s.live.map fun obj => obj.rangeEnd - obj.rangeStart + 1).sum ≤ mm.totalChunks ∧
      s.mm.freeChunks =
        mm.totalChunks - (s.live.map fun obj => obj.rangeEnd - obj.rangeStart + 1).sum := by
  have hc := (consistent_of_create hcreate).reachable hs
  have htotal : s.mm.totalChunks = mm.totalChunks := by rw [reachable_sizes hs]
  have hlen : (s.live.map fun obj => obj.rangeEnd - obj.rangeStart + 1) =
      s.live.map fun obj => obj.chunks.card := by
    refine List.map_congr_left fun obj hobj => ?_
    have := hc.nonempty obj hobj
    rw [card_chunks]
    omega
  have hcount := hc.counted
  refine ⟨fun obj hobj => ⟨hc.nonempty obj hobj, htotal ▸ hc.inside obj hobj⟩, ?_, ?_, ?_, ?_⟩
  · exact hc.owned.disjoint.imp_of_mem fun {a b} ha hb hd =>
      apart_of_disjoint (hc.nonempty a ha) (hc.nonempty b hb) hd
  · intro i
    simp only [hc.owned.used_iff i, mem_chunks]
  · rw [hlen]
    omega
  · rw [hlen]
    omega

/-- A pool of three pages. -/
def threeChunks : RknpuMm := ⟨fun _ => false, 1, 4096, 3, 3⟩

theorem pool_consistent_three_chunks :
    ∃ s, (poolSystem threeChunks).run ⟨threeChunks, []⟩
        [.alloc 5000 true, .alloc 9000 true, .alloc 4096 true, .free 0] = some s ∧
      s.live = [⟨2, 2⟩] ∧
      (∀ i, s.mm.bitmap i = true ↔ ∃ obj ∈ s.live, obj.rangeStart ≤ i ∧ i ≤ obj.rangeEnd) ∧
      s.mm.freeChunks = 3 - 1 := by
  have hrun : ((poolSystem threeChunks).run ⟨threeChunks, []⟩
      [.alloc 5000 true, .alloc 9000 true, .alloc 4096 true, .free 0]).map (fun s => s.live) =
      some [⟨2, 2⟩] := by decide +kernel
  obtain ⟨s, hs, hlive⟩ := Option.map_eq_some_iff.mp hrun
  obtain ⟨-, -, hbits, -, hfree⟩ := @pool_consistent 12288 4096 true true threeChunks rfl s
    ⟨_, _, rfl, hs⟩
  refine ⟨s, hs, hlive, hbits, ?_⟩
  rw [hfree, hlive]
  rfl

end RknpuDriver.Mm
