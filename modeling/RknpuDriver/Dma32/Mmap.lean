import RknpuDriver.Dma32.Allocate

/-! # `dma32_heap_mmap`

The loop maps the blocks of the table one after another from `vm_start` on, the last one cut at
`vm_end`. `dma_buf_mmap` lets through any window that lies in the buffer; the loop starts at page
zero for each of them.

* `dma32_heap_mmap_window`: which windows show what they ask for.
-/

namespace RknpuDriver.Dma32
open RknpuDriver.Lib RknpuDriver.Buffer
set_option autoImplicit false

/-! ## Pages of a table -/

def SgEntry.segment (sg : SgEntry) : Segment := ⟨sg.page.phys, sg.length⟩

/-- The pages of a table, in its order. -/
def tablePages (table : List SgEntry) : List ℕ := sgPages (table.map SgEntry.segment)

/-- The entries are whole pages, and no page is in the table twice. -/
structure WholePages (table : List SgEntry) : Prop where
  length_mod : ∀ sg ∈ table, sg.length % pageSize = 0
  distinct : (tablePages table).Nodup

theorem byteAt_sgPages {sgl : List Segment} (hstart : ∀ s ∈ sgl, s.start % pageSize = 0)
    (hlength : ∀ s ∈ sgl, s.length % pageSize = 0) (o : ℕ) :
    Segment.byteAt sgl o =
      (sgPages sgl)[o / pageSize]?.map fun p => p * pageSize + o % pageSize := by
  induction sgl generalizing o with
  | nil => rfl
  | cons s sgl ih =>
    have hs := hstart s List.mem_cons_self
    have hl := hlength s List.mem_cons_self
    have hrest := ih (fun t ht => hstart t (List.mem_cons_of_mem _ ht))
      (fun t ht => hlength t (List.mem_cons_of_mem _ ht)) (o - s.length)
    have hpages : sgPages (s :: sgl) =
        List.range' (s.start / pageSize) (s.length / pageSize) ++ sgPages sgl := rfl
    unfold Segment.byteAt
    rw [hpages]
    simp only [pageSize] at hs hl hrest ⊢
    by_cases ho : o < s.length
    · rw [if_pos ho, List.getElem?_append_left (by rw [List.length_range']; omega),
        List.getElem?_range' (by omega), Option.map_some]
      congr 1
      omega
    · have hindex : o / 4096 - s.length / 4096 = (o - s.length) / 4096 := by omega
      have hmod : (o - s.length) % 4096 = o % 4096 := by omega
      rw [if_neg ho, List.getElem?_append_right (by rw [List.length_range']; omega),
        List.length_range', hindex, hrest, hmod]

theorem length_sgPages (sgl : List Segment) (hlength : ∀ s ∈ sgl, s.length % pageSize = 0) :
    (sgPages sgl).length * pageSize = Segment.total sgl := by
  induction sgl with
  | nil => rfl
  | cons s sgl ih =>
    have hl := hlength s List.mem_cons_self
    have hrest := ih fun t ht => hlength t (List.mem_cons_of_mem _ ht)
    have hpages : sgPages (s :: sgl) =
        List.range' (s.start / pageSize) (s.length / pageSize) ++ sgPages sgl := rfl
    rw [hpages, List.length_append, List.length_range', Segment.total_cons, Nat.add_mul, hrest,
      Nat.div_mul_cancel (Nat.dvd_of_mod_eq_zero hl)]

namespace WholePages
variable {table : List SgEntry}

theorem start_mod (sg : SgEntry) : sg.segment.start % pageSize = 0 := Nat.mul_mod_left _ _

theorem segment_mod (hw : WholePages table) :
    ∀ s ∈ table.map SgEntry.segment, s.length % pageSize = 0 := by
  intro s hs
  obtain ⟨sg, hsg, rfl⟩ := List.mem_map.mp hs
  exact hw.length_mod sg hsg

theorem byteAt (hw : WholePages table) (o : ℕ) :
    Segment.byteAt (table.map SgEntry.segment) o =
      (tablePages table)[o / pageSize]?.map fun p => p * pageSize + o % pageSize := by
  refine byteAt_sgPages (fun s hs => ?_) hw.segment_mod o
  obtain ⟨sg, -, rfl⟩ := List.mem_map.mp hs
  exact start_mod sg

theorem total (hw : WholePages table) :
    Segment.total (table.map SgEntry.segment) = (tablePages table).length * pageSize :=
  (length_sgPages _ hw.segment_mod).symm

end WholePages

theorem Built.wholePages {len : ℕ} {buffer : Dma32HeapBuffer} {history : List (Transfer Block)}
    (hb : Built len buffer history) : WholePages buffer.sgTable := by
  have hpages : ∀ sg ∈ buffer.sgTable, List.range' (sg.segment.start / pageSize)
      (sg.segment.length / pageSize) = List.range' sg.page.pfn (2 ^ sg.page.order) := by
    intro sg hsg
    have hstart : sg.segment.start / pageSize = sg.page.pfn := Nat.mul_div_cancel _ (by decide)
    have hlength : sg.segment.length / pageSize = 2 ^ sg.page.order := by
      show sg.length / pageSize = _
      rw [hb.length_eq sg hsg, Block.size_eq, Nat.mul_div_cancel_left _ (by decide)]
    rw [hstart, hlength]
  refine ⟨fun sg hsg => ?_, ?_⟩
  · rw [hb.length_eq sg hsg]
    exact size_mod _
  · unfold tablePages sgPages
    rw [List.flatMap_map, List.nodup_flatMap]
    refine ⟨fun sg _ => List.nodup_range', ?_⟩
    refine (hb.disjoint.imp_of_mem fun {sg sg'} hsg hsg' hdis => ?_)
    rw [Function.onFun, hpages sg hsg, hpages sg' hsg', List.disjoint_left]
    intro p hp hp'
    rw [List.mem_range'_1] at hp hp'
    exact Finset.disjoint_left.mp hdis (Finset.mem_Ico.mpr hp) (Finset.mem_Ico.mpr hp')

/-! ## The loop -/

/-- The loop of `dma32_heap_mmap`; `rets` are the results of `remap_pfn_range`. -/
def mmapLoop (rets : ℕ → ℤ) (vmEnd : ℕ) :
    ℕ → List SgEntry → ℕ → Translation → Except ℤ Translation
  | _, [], _, tr => .ok tr
  | i, sg :: table, addr, tr =>
    let remainder := u64Sub vmEnd addr
    let len := if remainder < sg.length then remainder else sg.length
    match remapPfnRange (rets i) tr addr sg.page.pfn len with
    | .error e => .error e
    | .ok tr =>
      let addr := (addr + len) % 2 ^ 64
      if vmEnd ≤ addr then .ok tr else mmapLoop rets vmEnd (i + 1) table addr tr

/-- `dma32_heap_mmap`: what it leaves in the page tables. It does not look at `vm_pgoff`. -/
def dma32HeapMmap (buffer : Dma32HeapBuffer) (vma : Vma) (_vmPgoff : ℕ) (rets : ℕ → ℤ)
    (tr : Translation) : Except ℤ Translation :=
  mmapLoop rets vma.vmEnd 0 buffer.sgTable vma.vmStart tr

theorem mmapLoop_eq_layOut {rets : ℕ → ℤ} {vmEnd : ℕ} (hend : vmEnd < 2 ^ 64) (table : List SgEntry)
    {i addr : ℕ} (haddr : addr ≤ vmEnd) {tr tr' : Translation}
    (h : mmapLoop rets vmEnd i table addr tr = .ok tr') :
    ∃ left, layOut (fun i tr va pa n => remapPfnRange (rets i) tr va (pa / pageSize) n) i
      (table.map SgEntry.segment) addr (vmEnd - addr) tr = ⟨none, tr', left⟩ := by
  induction table generalizing i addr tr with
  | nil =>
    cases h
    exact ⟨_, rfl⟩
  | cons sg table ih =>
    have hmin : (if vmEnd - addr < sg.length then vmEnd - addr else sg.length) =
        min (vmEnd - addr) sg.length := by
      split_ifs <;> omega
    have hpfn : sg.segment.start / pageSize = sg.page.pfn :=
      Nat.mul_div_cancel _ (by decide)
    unfold mmapLoop at h
    simp only [u64Sub_of_le haddr hend, hmin] at h
    rw [List.map_cons]
    unfold layOut
    simp only [hpfn, show sg.segment.length = sg.length from rfl]
    cases hret : remapPfnRange (rets i) tr addr sg.page.pfn (min (vmEnd - addr) sg.length) with
    | error e =>
      rw [hret] at h
      cases h
    | ok mid =>
      simp only [hret] at h ⊢
      have hsum : (addr + min (vmEnd - addr) sg.length) % 2 ^ 64 =
          addr + min (vmEnd - addr) sg.length := Nat.mod_eq_of_lt (by omega)
      rw [hsum] at h
      by_cases hdone : vmEnd ≤ addr + min (vmEnd - addr) sg.length
      · rw [if_pos hdone] at h
        cases h
        rw [if_pos (by omega)]
        exact ⟨0, rfl⟩
      · rw [if_neg hdone] at h
        rw [if_neg (by omega), Nat.sub_sub]
        exact ih (by omega) h

theorem mod_of_mem_clip {n m : ℕ} {segs : List Segment} {s : Segment} (hn : n % m = 0)
    (hsegs : ∀ t ∈ segs, t.length % m = 0) (h : s ∈ Segment.clip n segs) : s.length % m = 0 := by
  induction segs generalizing n with
  | nil => cases h
  | cons t segs ih =>
    have ht := hsegs t List.mem_cons_self
    have hmin : min n t.length % m = 0 := by
      obtain hle | hle := Nat.le_total n t.length
      · rwa [Nat.min_eq_left hle]
      · rwa [Nat.min_eq_right hle]
    unfold Segment.clip at h
    obtain rfl | h := List.mem_cons.mp h
    · exact hmin
    · split_ifs at h with hdone
      · cases h
      · refine ih ?_ (fun u hu => hsegs u (List.mem_cons_of_mem _ hu)) h
        exact (Nat.mod_eq_zero_of_dvd
          (Nat.dvd_sub (Nat.dvd_of_mod_eq_zero hn) (Nat.dvd_of_mod_eq_zero hmin)))

/-- The page tables after a call that succeeds: the beginning of the buffer, from `vm_start` to
`vm_end` or as far as it goes. -/
theorem dma32HeapMmap_ok {buffer : Dma32HeapBuffer} (hw : WholePages buffer.sgTable) {vma : Vma}
    {vmPgoff : ℕ} {rets : ℕ → ℤ} {tr tr' : Translation}
    (h : dma32HeapMmap buffer vma vmPgoff rets tr = .ok tr') :
    tr' = tr.overlay vma.vmStart
      (min vma.size (Segment.total (buffer.sgTable.map SgEntry.segment)))
      (Segment.byteAt (buffer.sgTable.map SgEntry.segment)) := by
  obtain ⟨left, hlaid⟩ := mmapLoop_eq_layOut vma.end_lt buffer.sgTable vma.ordered h
  have hmapped := layOut_ok hlaid fun s hs i tr va tr' hput => ?_
  · rw [hmapped, Segment.total_clip]
    refine Translation.overlay_congr fun o ho => ?_
    exact Segment.byteAt_clip (Nat.lt_of_lt_of_le ho (Nat.min_le_left _ _)) _
  · obtain ⟨t, ht, hstart, -⟩ := Segment.exists_of_mem_clip hs
    obtain ⟨sg, hsg, rfl⟩ := List.mem_map.mp ht
    have hlen := mod_of_mem_clip vma.size_aligned hw.segment_mod hs
    have hlt := Segment.length_le_of_clip hs
    have hend := vma.end_lt
    refine remapPfnRange_ok hput ?_ hlen (by omega)
    rw [hstart]
    exact WholePages.start_mod sg

/-! ## The window -/

/-- Every page of the mapping is the page of the buffer that was asked for there. -/
def ShowsWindow (buffer : Dma32HeapBuffer) (vma : Vma) (vmPgoff : ℕ) (tr : Translation) : Prop :=
  ∀ k < vma.size / pageSize, ∃ page, (tablePages buffer.sgTable)[vmPgoff + k]? = some page ∧
    ∀ o < pageSize, tr (vma.vmStart + k * pageSize + o) = some (page * pageSize + o)

theorem dma32HeapMmap_page {buffer : Dma32HeapBuffer} (hw : WholePages buffer.sgTable) {vma : Vma}
    {vmPgoff : ℕ} {rets : ℕ → ℤ} {tr tr' : Translation} {k : ℕ}
    (hfits : vma.size / pageSize ≤ (tablePages buffer.sgTable).length)
    (h : dma32HeapMmap buffer vma vmPgoff rets tr = .ok tr') (hk : k < vma.size / pageSize) :
    ∃ page, (tablePages buffer.sgTable)[k]? = some page ∧
      ∀ o < pageSize, tr' (vma.vmStart + k * pageSize + o) = some (page * pageSize + o) := by
  have hlt : k < (tablePages buffer.sgTable).length := Nat.lt_of_lt_of_le hk hfits
  refine ⟨_, List.getElem?_eq_getElem hlt, fun o ho => ?_⟩
  have hsize := vma.size_aligned
  rw [dma32HeapMmap_ok hw h, hw.total, Nat.add_assoc, Translation.overlay_add, hw.byteAt]
  · have hdiv : (k * pageSize + o) / pageSize = k := by
      simp only [pageSize] at *
      omega
    have hmod : (k * pageSize + o) % pageSize = o := by
      simp only [pageSize] at *
      omega
    rw [hdiv, hmod, List.getElem?_eq_getElem hlt]
    rfl
  · simp only [pageSize] at *
    omega

/-- Nothing is mapped outside of the VMA; and it shows the window that was asked for exactly when
the window begins at the first page. -/
theorem dma32_heap_mmap_window {buffer : Dma32HeapBuffer} (hw : WholePages buffer.sgTable)
    {vma : Vma} (hne : vma.vmStart < vma.vmEnd) {vmPgoff : ℕ}
    (hadmitted : vmPgoff + vma.size / pageSize ≤ (tablePages buffer.sgTable).length)
    {rets : ℕ → ℤ} {tr tr' : Translation}
    (h : dma32HeapMmap buffer vma vmPgoff rets tr = .ok tr') :
    (ShowsWindow buffer vma vmPgoff tr' ↔ vmPgoff = 0) ∧
      ∀ x, vma.vmEnd ≤ x → tr' x = tr x := by
  have hfits : vma.size / pageSize ≤ (tablePages buffer.sgTable).length := by omega
  have hpos : 0 < vma.size / pageSize := by
    have hmod := vma.size_aligned
    have hsize : 0 < vma.size := Nat.sub_pos_of_lt hne
    simp only [pageSize] at *
    omega
  refine ⟨⟨fun hshows => ?_, fun hzero k hk => ?_⟩, fun x hx => ?_⟩
  · obtain ⟨page, hpage, hbytes⟩ := hshows 0 hpos
    obtain ⟨first, hfirst, hbytes'⟩ := dma32HeapMmap_page hw hfits h hpos
    have hsame := (hbytes 0 (by decide)).symm.trans (hbytes' 0 (by decide))
    obtain rfl : page = first := by
      have hmul := Option.some.inj hsame
      simp only [pageSize] at hmul
      omega
    have hindex := (List.getElem?_inj (List.getElem?_eq_some_iff.mp hfirst).1 hw.distinct).mp
      (hfirst.trans hpage.symm)
    omega
  · rw [hzero, Nat.zero_add]
    exact dma32HeapMmap_page hw hfits h hk
  · rw [dma32HeapMmap_ok hw h]
    refine Translation.overlay_outside (Or.inr ?_)
    have hsize : vma.vmStart + vma.size = vma.vmEnd := Nat.add_sub_cancel' vma.ordered
    have hmin := Nat.min_le_left vma.size (Segment.total (buffer.sgTable.map SgEntry.segment))
    omega

def twoBlocks : Dma32HeapBuffer :=
  ⟨8192, [⟨⟨0, 16⟩, 4096⟩, ⟨⟨0, 40⟩, 4096⟩], 0, none⟩

theorem wholePages_twoBlocks : WholePages twoBlocks.sgTable := ⟨by decide, by decide⟩

def onePageVma : Vma := ⟨0x10000, 0x11000, by decide, by decide, by decide, by decide⟩

theorem dma32_heap_mmap_window_first : ∃ tr',
    dma32HeapMmap twoBlocks onePageVma 0 (fun _ => 0) (fun _ => none) = .ok tr' ∧
      ShowsWindow twoBlocks onePageVma 0 tr' := by
  have hret : dma32HeapMmap twoBlocks onePageVma 0 (fun _ => 0) (fun _ => none) = .ok _ := rfl
  exact ⟨_, hret,
    (dma32_heap_mmap_window wholePages_twoBlocks (by decide) (by decide) hret).1.mpr rfl⟩

/-- The second page is asked for, and the first is mapped. -/
theorem dma32_heap_mmap_second : ∃ tr',
    dma32HeapMmap twoBlocks onePageVma 1 (fun _ => 0) (fun _ => none) = .ok tr' ∧
      tr' 0x10000 = some (16 * 4096) ∧ (tablePages twoBlocks.sgTable)[1]? = some 40 ∧
      ¬ ShowsWindow twoBlocks onePageVma 1 tr' := by
  refine ⟨_, rfl, rfl, rfl, fun hshows => ?_⟩
  obtain ⟨page, hpage, hbytes⟩ := hshows 0 (by decide)
  cases hpage
  exact absurd (hbytes 0 (by decide)) (by decide)

end RknpuDriver.Dma32
