import RknpuDriver.Dma32.Mmap
import RknpuDriver.Lib.System

/-! # `dma32_heap_vmap` and `dma32_heap_vunmap`

The users of a kernel mapping share it: the first one makes it from an array of all the pages of the
table, the last one takes it down. Each call holds the buffer's lock from its first to its last
access, so the calls follow one another; `log` records them. `vmap_cnt` is a natural number: the
DMA-BUF core calls these functions for its own first and last user of a buffer only.
-/

namespace RknpuDriver.Dma32
open RknpuDriver.Lib RknpuDriver.Buffer
set_option autoImplicit false

/-! ## The page array -/

/-- `for (j = 0; j < npages_this; j++) *(tmp++) = page++`. -/
def fillEntry : ℕ → ℕ → List ℕ → List ℕ
  | 0, _, pages => pages
  | n + 1, page, pages => fillEntry n (page + 1) (pages ++ [page])

/-- The loop of `dma32_heap_vmap` over the table. -/
def fillTable : List SgEntry → List ℕ → List ℕ
  | [], pages => pages
  | sg :: table, pages => fillTable table (fillEntry (sg.length / pageSize) sg.page.pfn pages)

def Dma32HeapBuffer.npages (buffer : Dma32HeapBuffer) : ℕ :=
  u32 (pageAlign buffer.len / pageSize)

/-- The array of `npages` entries that is given to `vmap`: `none` when the loop writes past its
end, or leaves an entry that `vmap` reads. -/
def pageArray (buffer : Dma32HeapBuffer) : Option (List ℕ) :=
  let pages := fillTable buffer.sgTable []
  if pages.length = buffer.npages then some pages else none

theorem fillEntry_eq (n page : ℕ) (pages : List ℕ) :
    fillEntry n page pages = pages ++ List.range' page n := by
  induction n generalizing page pages with
  | zero => simp [fillEntry]
  | succ n ih =>
    unfold fillEntry
    rw [ih, List.append_assoc, List.range'_succ]
    rfl

theorem fillTable_eq (table : List SgEntry) (pages : List ℕ) :
    fillTable table pages = pages ++ tablePages table := by
  induction table generalizing pages with
  | nil => exact (List.append_nil pages).symm
  | cons sg table ih =>
    have hpfn : sg.segment.start / pageSize = sg.page.pfn := Nat.mul_div_cancel _ (by decide)
    have hpages : tablePages (sg :: table) =
        List.range' (sg.segment.start / pageSize) (sg.length / pageSize) ++ tablePages table := rfl
    unfold fillTable
    rw [ih, fillEntry_eq, hpages, hpfn, List.append_assoc]

namespace Built
variable {len : ℕ} {buffer : Dma32HeapBuffer} {history : List (Transfer Block)}

theorem total_segments (hb : Built len buffer history) :
    Segment.total (buffer.sgTable.map SgEntry.segment) = len := by
  unfold Segment.total
  rw [List.map_map, ← hb.total]
  rfl

theorem len_le (hb : Built len buffer history) : len ≤ 2 ^ 32 := by
  have htotal : Block.total (buffer.sgTable.map SgEntry.page) = len := by
    unfold Block.total
    rw [List.map_map, ← hb.total]
    refine congrArg List.sum (List.map_congr_left fun sg hsg => ?_)
    exact (hb.length_eq sg hsg).symm
  rw [← htotal]
  refine Block.total_le (List.pairwise_map.mpr hb.disjoint) fun b hbmem => ?_
  obtain ⟨sg, hsg, rfl⟩ := List.mem_map.mp hbmem
  have hpos := sg.page.size_pos
  have hlast := hb.low sg hsg (sg.page.phys + sg.page.size - 1) (by omega) (by omega)
  omega

theorem npages_eq (hb : Built len buffer history) :
    buffer.npages = (tablePages buffer.sgTable).length := by
  have hle := hb.len_le
  have hwhole := hb.whole
  have hcount := hb.wholePages.total
  rw [hb.total_segments] at hcount
  unfold Dma32HeapBuffer.npages pageAlign u32
  rw [hb.len_eq]
  simp only [pageSize] at *
  omega

theorem pageArray_eq (hb : Built len buffer history) :
    pageArray buffer = some (tablePages buffer.sgTable) := by
  unfold pageArray
  rw [fillTable_eq, List.nil_append, hb.npages_eq]
  exact if_pos rfl

/-- Entry `k` of the array is the page that byte `k * PAGE_SIZE` of the buffer lies at the
beginning of. -/
theorem page_at (hb : Built len buffer history) {k : ℕ} (hk : k < buffer.npages) :
    ∃ page, (tablePages buffer.sgTable)[k]? = some page ∧
      Segment.byteAt (buffer.sgTable.map SgEntry.segment) (k * pageSize) =
        some (page * pageSize) := by
  rw [hb.npages_eq] at hk
  refine ⟨_, List.getElem?_eq_getElem hk, ?_⟩
  rw [hb.wholePages.byteAt, Nat.mul_div_cancel _ (by decide), Nat.mul_mod_left,
    List.getElem?_eq_getElem hk, Option.map_some, Nat.add_zero]

end Built

/-! ## Calls -/

/-- What `kvmalloc_array` and `vmap` return. -/
structure VmapOutcome where
  pagesOk : Bool
  vaddr : Option ℕ

/-- How a call ends. `vmapped` gives its caller an address; `vunmapped` has lowered the count, with
the argument of `vunmap` when it calls that; `warned` has found the count at zero. -/
inductive VmapCall where
  | vmapped (vaddr : Option ℕ)
  | failed
  | vunmapped (area : Option (Option ℕ))
  | warned
  deriving DecidableEq, Repr

def dma32HeapVmap (buffer : Dma32HeapBuffer) (out : VmapOutcome) :
    Option (VmapCall × Dma32HeapBuffer) :=
  if buffer.vmapCnt ≠ 0 then
    some (.vmapped buffer.vaddr, { buffer with vmapCnt := buffer.vmapCnt + 1 })
  else if out.pagesOk = false then some (.failed, buffer)
  else
    match pageArray buffer, out.vaddr with
    | none, _ => none
    | some _, none => some (.failed, buffer)
    | some _, some vaddr =>
      some (.vmapped (some vaddr),
        { buffer with vaddr := some vaddr, vmapCnt := buffer.vmapCnt + 1 })

def dma32HeapVunmap (buffer : Dma32HeapBuffer) : VmapCall × Dma32HeapBuffer :=
  if buffer.vmapCnt = 0 then (.warned, buffer)
  else if buffer.vmapCnt - 1 = 0 then
    (.vunmapped (some buffer.vaddr), { buffer with vmapCnt := buffer.vmapCnt - 1, vaddr := none })
  else (.vunmapped none, { buffer with vmapCnt := buffer.vmapCnt - 1 })

/-- A call, and `vmap_cnt` before and after it. -/
structure VmapEntry where
  call : VmapCall
  before : ℕ
  after : ℕ
  deriving DecidableEq, Repr

/-- `log` has the newest call first. -/
structure VmapState where
  buffer : Dma32HeapBuffer
  log : List VmapEntry

inductive VmapLabel where
  | vmap (out : VmapOutcome)
  | vunmap

def VmapState.record (s : VmapState) (ret : VmapCall × Dma32HeapBuffer) : VmapState :=
  ⟨ret.2, ⟨ret.1, s.buffer.vmapCnt, ret.2.vmapCnt⟩ :: s.log⟩

def vmapStep (s : VmapState) : VmapLabel → Option VmapState
  | .vmap out => (dma32HeapVmap s.buffer out).map s.record
  | .vunmap => some (s.record (dma32HeapVunmap s.buffer))

def vmapSystem (buffer : Dma32HeapBuffer) : System VmapState VmapLabel where
  init s := s = ⟨buffer, []⟩
  step := vmapStep

namespace VmapEntry

def succeeded (r : VmapEntry) : Bool :=
  match r.call with
  | .vmapped _ => true
  | _ => false

/-- An effective `vunmap`. -/
def released (r : VmapEntry) : Bool :=
  match r.call with
  | .vunmapped _ => true
  | _ => false

/-- The call takes the count to zero. -/
def toZero (r : VmapEntry) : Bool := 0 < r.before ∧ r.after = 0

/-- The address that the call gives to its caller, or that it takes down. -/
def address (r : VmapEntry) : Option (Option ℕ) :=
  match r.call with
  | .vmapped vaddr => some vaddr
  | .vunmapped area => area
  | _ => none

end VmapEntry

/-- The calls since the count was zero. -/
def users (log : List VmapEntry) : List VmapEntry := log.takeWhile fun r => !r.toZero

/-- Each call sees or takes down the address that the calls before it saw since the count was
zero. -/
def Coherent : List VmapEntry → Prop
  | [] => True
  | r :: log =>
    (∀ v, r.address = some v → ∀ x ∈ users log, ∀ w, x.address = some w → v = w) ∧ Coherent log

/-- What holds of a buffer and of the calls so far. -/
structure Shared (buffer : Dma32HeapBuffer) (log : List VmapEntry) : Prop where
  mapped_iff : buffer.vaddr.isSome = true ↔ 0 < buffer.vmapCnt
  counted : buffer.vmapCnt + log.countP VmapEntry.released = log.countP VmapEntry.succeeded
  coherent : Coherent log
  seen : ∀ r ∈ log, ∀ v, r.address = some v → v.isSome = true
  down_iff : ∀ r ∈ log, (∃ v, r.call = .vunmapped (some v)) ↔ r.toZero = true
  current : ∀ r ∈ users log, ∀ v, r.address = some v → v = buffer.vaddr ∧ 0 < buffer.vmapCnt

theorem Shared.record {buffer buffer' : Dma32HeapBuffer} {log : List VmapEntry} {r : VmapEntry}
    (hs : Shared buffer log) (hmapped : buffer'.vaddr.isSome = true ↔ 0 < buffer'.vmapCnt)
    (hcounted : buffer'.vmapCnt + (if r.released then 1 else 0) =
      buffer.vmapCnt + if r.succeeded then 1 else 0)
    (hdown : (∃ v, r.call = .vunmapped (some v)) ↔ r.toZero = true)
    (haddress : ∀ v, r.address = some v → v.isSome = true ∧
      (0 < buffer.vmapCnt → v = buffer.vaddr) ∧
      (r.toZero = false → v = buffer'.vaddr ∧ 0 < buffer'.vmapCnt))
    (hkeep : r.toZero = false → 0 < buffer.vmapCnt →
      buffer'.vaddr = buffer.vaddr ∧ 0 < buffer'.vmapCnt) :
    Shared buffer' (r :: log) := by
  refine ⟨hmapped, ?_, ⟨fun v hv x hx w hw => ?_, hs.coherent⟩, ?_, ?_, ?_⟩
  · have hbefore := hs.counted
    rw [List.countP_cons, List.countP_cons]
    omega
  · obtain ⟨hsame, hpos⟩ := hs.current x hx w hw
    rw [(haddress v hv).2.1 hpos, hsame]
  · intro x hx v hv
    obtain rfl | hx := List.mem_cons.mp hx
    · exact (haddress v hv).1
    · exact hs.seen x hx v hv
  · intro x hx
    obtain rfl | hx := List.mem_cons.mp hx
    · exact hdown
    · exact hs.down_iff x hx
  · intro x hx v hv
    unfold users at hx
    cases hzero : r.toZero with
    | true =>
      rw [List.takeWhile_cons_of_neg (by simp [hzero])] at hx
      cases hx
    | false =>
      rw [List.takeWhile_cons_of_pos (by simp [hzero])] at hx
      obtain rfl | hx := List.mem_cons.mp hx
      · exact (haddress v hv).2.2 hzero
      · obtain ⟨hsame, hpos⟩ := hs.current x hx v hv
        obtain ⟨hvaddr, hpos'⟩ := hkeep hzero hpos
        exact ⟨hsame.trans hvaddr.symm, hpos'⟩

section
variable {buffer : Dma32HeapBuffer} {log : List VmapEntry}

theorem Shared.quiet {call : VmapCall} (hs : Shared buffer log)
    (hcall : call = .failed ∨ call = .warned) :
    Shared buffer (⟨call, buffer.vmapCnt, buffer.vmapCnt⟩ :: log) := by
  have hzero : (⟨call, buffer.vmapCnt, buffer.vmapCnt⟩ : VmapEntry).toZero = false := by
    unfold VmapEntry.toZero
    simp only [decide_eq_false_iff_not]
    omega
  obtain rfl | rfl := hcall
  all_goals
    refine hs.record hs.mapped_iff rfl ?_ (fun v hv => ?_) fun _ hpos => ⟨rfl, hpos⟩
    · rw [hzero]
      exact iff_of_false (fun ⟨v, hv⟩ => by cases hv) (by decide)
    · cases hv

theorem Shared.vmap (hs : Shared buffer log) {pages : List ℕ}
    (hpages : pageArray buffer = some pages) (out : VmapOutcome) :
    ∃ call buffer', dma32HeapVmap buffer out = some (call, buffer') ∧
      pageArray buffer' = some pages ∧
      Shared buffer' (⟨call, buffer.vmapCnt, buffer'.vmapCnt⟩ :: log) := by
  unfold dma32HeapVmap
  by_cases hshared : buffer.vmapCnt ≠ 0
  · have hpos : 0 < buffer.vmapCnt := Nat.pos_of_ne_zero hshared
    rw [if_pos hshared]
    refine ⟨_, _, rfl, hpages, hs.record ?_ rfl ?_ (fun v hv => ?_) fun _ _ => ⟨rfl, ?_⟩⟩
    · exact iff_of_true (hs.mapped_iff.mpr hpos) (Nat.succ_pos _)
    · refine iff_of_false (fun ⟨v, hv⟩ => by cases hv) ?_
      simp [VmapEntry.toZero]
    · cases hv
      exact ⟨hs.mapped_iff.mpr hpos, fun _ => rfl, fun _ => ⟨rfl, Nat.succ_pos _⟩⟩
    · exact Nat.succ_pos _
  rw [if_neg hshared]
  by_cases halloc : out.pagesOk = false
  · rw [if_pos halloc]
    exact ⟨_, _, rfl, hpages, hs.quiet (Or.inl rfl)⟩
  rw [if_neg halloc, hpages]
  cases hvaddr : out.vaddr with
  | none => exact ⟨_, _, rfl, hpages, hs.quiet (Or.inl rfl)⟩
  | some vaddr =>
    refine ⟨_, _, rfl, hpages, hs.record ?_ rfl ?_ (fun v hv => ?_) fun _ hpos => ?_⟩
    · exact iff_of_true rfl (Nat.succ_pos _)
    · refine iff_of_false (fun ⟨v, hv⟩ => by cases hv) ?_
      simp [VmapEntry.toZero]
    · cases hv
      exact ⟨rfl, fun hpos => absurd hpos (by omega), fun _ => ⟨rfl, Nat.succ_pos _⟩⟩
    · omega

theorem Shared.vunmap (hs : Shared buffer log) :
    Shared (dma32HeapVunmap buffer).2
      (⟨(dma32HeapVunmap buffer).1, buffer.vmapCnt, (dma32HeapVunmap buffer).2.vmapCnt⟩ ::
        log) := by
  unfold dma32HeapVunmap
  by_cases hnone : buffer.vmapCnt = 0
  · rw [if_pos hnone]
    exact hs.quiet (Or.inr rfl)
  rw [if_neg hnone]
  have hpos : 0 < buffer.vmapCnt := Nat.pos_of_ne_zero hnone
  by_cases hlast : buffer.vmapCnt - 1 = 0
  · rw [if_pos hlast]
    have hzero : ∀ call, (⟨call, buffer.vmapCnt, buffer.vmapCnt - 1⟩ : VmapEntry).toZero =
        true := by
      intro call
      simp [VmapEntry.toZero, hlast, hpos]
    refine hs.record ?_ ?_ ?_ (fun v hv => ?_) fun hz => ?_
    · exact iff_of_false (by simp) (Nat.not_lt_of_le (Nat.le_of_eq hlast))
    · exact Nat.sub_add_cancel hpos
    · exact iff_of_true ⟨_, rfl⟩ (hzero _)
    · cases hv
      refine ⟨hs.mapped_iff.mpr hpos, fun _ => rfl, fun hz => ?_⟩
      rw [hzero] at hz
      cases hz
    · rw [hzero] at hz
      cases hz
  · rw [if_neg hlast]
    refine hs.record ?_ ?_ ?_ (fun v hv => ?_) fun _ _ => ⟨rfl, Nat.pos_of_ne_zero hlast⟩
    · exact iff_of_true (hs.mapped_iff.mpr hpos) (Nat.pos_of_ne_zero hlast)
    · exact Nat.sub_add_cancel hpos
    · refine iff_of_false (fun ⟨v, hv⟩ => by cases hv) ?_
      simp [VmapEntry.toZero, hlast]
    · cases hv

end

theorem shared_run {buffer₀ : Dma32HeapBuffer} {pages : List ℕ} (labels : List VmapLabel)
    {s : VmapState} (hpages : pageArray s.buffer = some pages) (hs : Shared s.buffer s.log) :
    ∃ t, (vmapSystem buffer₀).run s labels = some t ∧ Shared t.buffer t.log := by
  induction labels generalizing s with
  | nil => exact ⟨s, rfl, hs⟩
  | cons label labels ih =>
    cases label with
    | vmap out =>
      obtain ⟨call, buffer', hret, hpages', hs'⟩ := hs.vmap hpages out
      obtain ⟨t, ht, htshared⟩ := @ih (s.record (call, buffer')) hpages' hs'
      refine ⟨t, ?_, htshared⟩
      rw [System.run_cons]
      show ((dma32HeapVmap s.buffer out).map s.record).bind _ = _
      rw [hret]
      exact ht
    | vunmap =>
      have hsame : pageArray (dma32HeapVunmap s.buffer).2 = some pages := by
        rw [← hpages]
        unfold dma32HeapVunmap
        split_ifs <;> rfl
      obtain ⟨t, ht, htshared⟩ := @ih (s.record (dma32HeapVunmap s.buffer)) hsame hs.vunmap
      exact ⟨t, ht, htshared⟩

/-- The kernel mapping of a buffer that was allocated. Its page array has `npages` entries, which
are the pages of the buffer in order; and after any calls the address is there exactly while the
count is positive, the count is that of the users, the users between two transitions to zero see
one address, and the area is taken down at the transition and at no other time. -/
theorem dma32_heap_vmap_exact {A : PageAllocator} {len : UInt64} {out : AllocateOutcome}
    {buffer : Dma32HeapBuffer} {history : List (Transfer Block)}
    (h : dma32HeapAllocate A len out = some (.ok buffer, history)) :
    (∃ pages, pageArray buffer = some pages ∧ pages.length = buffer.npages ∧
      ∀ k < buffer.npages, ∃ page, pages[k]? = some page ∧
        Segment.byteAt (buffer.sgTable.map SgEntry.segment) (k * pageSize) =
          some (page * pageSize)) ∧
    ∀ labels, ∃ t, (vmapSystem buffer).run ⟨buffer, []⟩ labels = some t ∧
      Shared t.buffer t.log := by
  have hb := dma32HeapAllocate_ok h
  refine ⟨⟨_, hb.pageArray_eq, hb.npages_eq.symm, fun k hk => hb.page_at hk⟩, fun labels => ?_⟩
  refine shared_run labels hb.pageArray_eq ⟨?_, ?_, trivial, ?_, ?_, ?_⟩
  · rw [hb.unmapped.1, hb.unmapped.2]
    decide
  · rw [hb.unmapped.1]
    rfl
  · exact fun r hr => absurd hr List.not_mem_nil
  · exact fun r hr => absurd hr List.not_mem_nil
  · exact fun r hr => absurd hr List.not_mem_nil

theorem allocate_twoPages : ∃ history, dma32HeapAllocate bumpAllocator 8192 allCallsSucceed =
    some (.ok ⟨8192, [⟨⟨0, 0⟩, 4096⟩, ⟨⟨0, 1⟩, 4096⟩], 0, none⟩, history) :=
  ⟨_, rfl⟩

/-- Two users come and go. -/
theorem dma32_heap_vmap_exact_twoPages : ∃ t,
    (vmapSystem ⟨8192, [⟨⟨0, 0⟩, 4096⟩, ⟨⟨0, 1⟩, 4096⟩], 0, none⟩).run
      ⟨⟨8192, [⟨⟨0, 0⟩, 4096⟩, ⟨⟨0, 1⟩, 4096⟩], 0, none⟩, []⟩
      [.vmap ⟨true, some 0x7000⟩, .vmap ⟨true, none⟩, .vunmap, .vunmap] = some t ∧
    t.log = [⟨.vunmapped (some (some 0x7000)), 1, 0⟩, ⟨.vunmapped none, 2, 1⟩,
      ⟨.vmapped (some 0x7000), 1, 2⟩, ⟨.vmapped (some 0x7000), 0, 1⟩] ∧
    Shared t.buffer t.log := by
  obtain ⟨history, hret⟩ := allocate_twoPages
  obtain ⟨t, ht, hshared⟩ := (dma32_heap_vmap_exact hret).2
    [.vmap ⟨true, some 0x7000⟩, .vmap ⟨true, none⟩, .vunmap, .vunmap]
  refine ⟨t, ht, ?_, hshared⟩
  obtain rfl := Option.some.inj ht
  rfl

end RknpuDriver.Dma32
