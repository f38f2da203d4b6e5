import RknpuDriver.Basic
import RknpuDriver.Lib.Layout

/-! # Pages, scatter-gather tables and mappings

A page is its frame number, and `struct page **` a list of them. The kernel services below are
the ones that `rknpu_gem.c` builds its views of a buffer from: tables of pages, the IOMMU's
translation and the page tables of a `vm_area_struct`. Each takes what it returns (`ret`) when
its own checks pass.
-/

namespace RknpuDriver.Buffer
open RknpuDriver.Lib
set_option autoImplicit false

abbrev enxio : ℤ := 6
abbrev eagain : ℤ := 11

abbrev pageSize : ℕ := 4096

/-- `unsigned long` subtraction. -/
def u64Sub (a b : ℕ) : ℕ := (a + 2 ^ 64 - b) % 2 ^ 64

theorem u64Sub_of_le {a b : ℕ} (hb : b ≤ a) (ha : a < 2 ^ 64) : u64Sub a b = a - b := by
  unfold u64Sub
  omega

/-! ## Tables of pages -/

def pageSegment (p : ℕ) : Segment := ⟨p * pageSize, pageSize⟩

/-- The entry of `n` pages from `start` on is extended while the next page is its neighbour. -/
def mergePages (maxPages : ℕ) : ℕ → ℕ → List ℕ → List Segment
  | start, n, [] => [⟨start * pageSize, n * pageSize⟩]
  | start, n, p :: pages =>
    if n < maxPages ∧ p = start + n then mergePages maxPages start (n + 1) pages
    else ⟨start * pageSize, n * pageSize⟩ :: mergePages maxPages p 1 pages

/-- The table of `drm_prime_pages_to_sg`: neighbouring pages share an entry, of at most
`maxPages` pages. -/
def pagesToSg (maxPages : ℕ) : List ℕ → List Segment
  | [] => []
  | p :: pages => mergePages maxPages p 1 pages

/-- The pages that `for_each_sgtable_page` visits. -/
def sgPages (sgl : List Segment) : List ℕ :=
  sgl.flatMap fun s => List.range' (s.start / pageSize) (s.length / pageSize)

/-- `drm_prime_sg_to_page_array`. -/
def drmPrimeSgToPageArray (sgl : List Segment) (maxEntries : ℕ) : Except ℤ (List ℕ) :=
  if maxEntries < (sgPages sgl).length then .error (-1) else .ok (sgPages sgl)

theorem sgPages_mergePages (maxPages start n : ℕ) (pages : List ℕ) :
    sgPages (mergePages maxPages start n pages) = List.range' start n ++ pages := by
  induction pages generalizing start n with
  | nil => simp [mergePages, sgPages]
  | cons p pages ih =>
    unfold mergePages
    split_ifs with hnext
    · rw [ih, hnext.2, List.range'_concat, Nat.one_mul, List.append_assoc]
      rfl
    · show List.range' (start * pageSize / pageSize) (n * pageSize / pageSize) ++
        sgPages (mergePages maxPages p 1 pages) = _
      rw [ih, Nat.mul_div_cancel _ (by decide), Nat.mul_div_cancel _ (by decide)]
      rfl

theorem sgPages_pagesToSg (maxPages : ℕ) (pages : List ℕ) :
    sgPages (pagesToSg maxPages pages) = pages := by
  cases pages with
  | nil => rfl
  | cons p pages => exact sgPages_mergePages maxPages p 1 pages

theorem total_mergePages (maxPages start n : ℕ) (pages : List ℕ) :
    Segment.total (mergePages maxPages start n pages) = (n + pages.length) * pageSize := by
  induction pages generalizing start n with
  | nil => simp [mergePages]
  | cons p pages ih =>
    unfold mergePages
    split_ifs with hnext
    · rw [ih, List.length_cons, Nat.add_right_comm n 1, Nat.add_assoc]
    · rw [Segment.total_cons, ih, List.length_cons, ← Nat.add_mul, Nat.add_comm 1]

theorem total_pagesToSg (maxPages : ℕ) (pages : List ℕ) :
    Segment.total (pagesToSg maxPages pages) = pages.length * pageSize := by
  cases pages with
  | nil => rfl
  | cons p pages =>
    show Segment.total (mergePages maxPages p 1 pages) = _
    rw [total_mergePages, List.length_cons, Nat.add_comm]

theorem byteAt_mergePages (maxPages start n : ℕ) (pages : List ℕ) :
    Segment.byteAt (mergePages maxPages start n pages) =
      Segment.byteAt (⟨start * pageSize, n * pageSize⟩ :: pages.map pageSegment) := by
  induction pages generalizing start n with
  | nil => rfl
  | cons p pages ih =>
    unfold mergePages
    split_ifs with hnext
    · have hjoin := Segment.byteAt_join (start * pageSize) (n * pageSize) pageSize
        (pages.map pageSegment)
      rw [ih, List.map_cons, Nat.succ_mul, ← hjoin, ← Nat.add_mul, ← hnext.2]
      rfl
    · funext o
      simp only [List.map_cons, Segment.byteAt, ih, pageSegment, Nat.one_mul]

theorem total_pageSegments (pages : List ℕ) :
    Segment.total (pages.map pageSegment) = pages.length * pageSize := by
  induction pages with
  | nil => rfl
  | cons p pages ih =>
    rw [List.map_cons, Segment.total_cons, ih, List.length_cons, Nat.succ_mul, Nat.add_comm]
    rfl

/-- Byte `o` of a list of pages. -/
theorem byteAt_pages (pages : List ℕ) (o : ℕ) :
    Segment.byteAt (pages.map pageSegment) o =
      pages[o / pageSize]?.map fun p => p * pageSize + o % pageSize := by
  induction pages generalizing o with
  | nil => rfl
  | cons p pages ih =>
    rw [List.map_cons]
    unfold Segment.byteAt
    by_cases ho : o < pageSize
    · rw [if_pos (show o < (pageSegment p).length from ho), Nat.div_eq_of_lt ho,
        Nat.mod_eq_of_lt ho]
      rfl
    · have hdiv : o / pageSize = (o - pageSize) / pageSize + 1 := by
        rw [Nat.div_eq_sub_div (by decide) (Nat.le_of_not_lt ho)]
      have hmod : (o - pageSize) % pageSize = o % pageSize :=
        (Nat.mod_eq_sub_mod (Nat.le_of_not_lt ho)).symm
      rw [if_neg (show ¬ o < (pageSegment p).length from ho), hdiv, List.getElem?_cons_succ,
        ← hmod]
      exact ih (o - pageSize)

/-- Different offsets in a list of different pages are different bytes. -/
theorem byteAt_pages_inj {pages : List ℕ} (hdistinct : pages.Nodup) {o o' x : ℕ}
    (h : Segment.byteAt (pages.map pageSegment) o = some x)
    (h' : Segment.byteAt (pages.map pageSegment) o' = some x) : o = o' := by
  rw [byteAt_pages] at h h'
  obtain ⟨p, hp, hx⟩ := Option.map_eq_some_iff.mp h
  obtain ⟨p', hp', hx'⟩ := Option.map_eq_some_iff.mp h'
  have hmod := Nat.mod_lt o (show 0 < pageSize by decide)
  have hmod' := Nat.mod_lt o' (show 0 < pageSize by decide)
  obtain rfl : p = p' := by
    have := congrArg (· / pageSize) (hx.trans hx'.symm)
    simpa [Nat.add_comm, Nat.add_mul_div_right, Nat.div_eq_of_lt hmod,
      Nat.div_eq_of_lt hmod'] using this
  have hdiv : o / pageSize = o' / pageSize :=
    (List.getElem?_inj (List.getElem?_eq_some_iff.mp hp).1 hdistinct).mp (hp.trans hp'.symm)
  have hrest : o % pageSize = o' % pageSize := by omega
  rw [← Nat.div_add_mod o pageSize, ← Nat.div_add_mod o' pageSize, hdiv, hrest]

/-- Byte `o` of a table made from pages. -/
theorem byteAt_pagesToSg (maxPages : ℕ) (pages : List ℕ) (o : ℕ) :
    Segment.byteAt (pagesToSg maxPages pages) o =
      pages[o / pageSize]?.map fun p => p * pageSize + o % pageSize := by
  rw [← byteAt_pages]
  cases pages with
  | nil => rfl
  | cons p pages =>
    show Segment.byteAt (mergePages maxPages p 1 pages) o = _
    rw [byteAt_mergePages, Nat.one_mul]
    rfl

/-! ## The IOMMU -/

/-- `iommu_map`: the IOMMU maps whole pages, and a call that fails leaves nothing mapped. -/
def iommuMap (ret : ℤ) (tr : Translation) (iova paddr size : ℕ) : Except ℤ Translation :=
  if iova % pageSize ≠ 0 ∨ paddr % pageSize ≠ 0 ∨ size % pageSize ≠ 0 then .error (-einval)
  else if ret < 0 then .error ret
  else .ok (tr.mapRange iova paddr size)

/-- `iommu_unmap`. -/
def iommuUnmap (tr : Translation) (iova size : ℕ) : Translation :=
  if iova % pageSize ≠ 0 ∨ size % pageSize ≠ 0 then tr else tr.unmapRange iova size

theorem iommuMap_ok {ret : ℤ} {tr tr' : Translation} {iova paddr size : ℕ}
    (h : iommuMap ret tr iova paddr size = .ok tr') :
    iova % pageSize = 0 ∧ paddr % pageSize = 0 ∧ size % pageSize = 0 ∧
      tr' = tr.mapRange iova paddr size := by
  unfold iommuMap at h
  split_ifs at h with halign hret
  cases h
  push Not at halign
  exact ⟨halign.1, halign.2.1, halign.2.2, rfl⟩

/-! ## The page tables of a process -/

/-- The address range of a `struct vm_area_struct`. -/
structure Vma where
  vmStart : ℕ
  vmEnd : ℕ
  ordered : vmStart ≤ vmEnd
  start_aligned : vmStart % pageSize = 0
  end_aligned : vmEnd % pageSize = 0
  end_lt : vmEnd < 2 ^ 64

namespace Vma

/-- `vma->vm_end - vma->vm_start`. -/
def size (vma : Vma) : ℕ := vma.vmEnd - vma.vmStart

theorem size_aligned (vma : Vma) : vma.size % pageSize = 0 := by
  have h1 := vma.start_aligned
  have h2 := vma.end_aligned
  unfold size
  simp only [pageSize] at *
  omega

end Vma

/-- `remap_pfn_range`: whole pages, from a page-aligned address on. -/
def remapPfnRange (ret : ℤ) (tr : Translation) (addr pfn size : ℕ) : Except ℤ Translation :=
  if addr % pageSize ≠ 0 then .error (-einval)
  else if ret < 0 then .error ret
  else .ok (tr.mapRange addr (pfn * pageSize) (pageAlign size))

/-- `vm_insert_page`. -/
def vmInsertPage (ret : ℤ) (vma : Vma) (tr : Translation) (addr page : ℕ) :
    Except ℤ Translation :=
  if addr < vma.vmStart ∨ vma.vmEnd ≤ addr then .error (-efault)
  else if ret < 0 then .error ret
  else .ok (tr.mapRange addr (page * pageSize) pageSize)

/-- `dma_mmap_attrs` of a buffer with the given pages, from its first page on. -/
def dmaMmapAttrs (ret : ℤ) (vma : Vma) (pages : List ℕ) : Except ℤ Translation :=
  if pages.length < vma.size / pageSize then .error (-enxio)
  else if ret < 0 then .error ret
  else .ok (Translation.overlay (fun _ => none) vma.vmStart vma.size
    (Segment.byteAt (pages.map pageSegment)))

theorem remapPfnRange_ok {ret : ℤ} {tr tr' : Translation} {addr paddr size : ℕ}
    (h : remapPfnRange ret tr addr (paddr / pageSize) size = .ok tr')
    (hp : paddr % pageSize = 0) (hs : size % pageSize = 0) (hlt : size < 2 ^ 64) :
    tr' = tr.mapRange addr paddr size := by
  unfold remapPfnRange at h
  split_ifs at h
  cases h
  have hsize : pageAlign size = size := by
    unfold pageAlign
    simp only [pageSize] at *
    omega
  have hpaddr : paddr / pageSize * pageSize = paddr :=
    Nat.div_mul_cancel (Nat.dvd_of_mod_eq_zero hp)
  rw [hsize, hpaddr]

theorem vmInsertPage_ok {ret : ℤ} {vma : Vma} {tr tr' : Translation} {addr page : ℕ}
    (h : vmInsertPage ret vma tr addr page = .ok tr') :
    tr' = tr.mapRange addr (page * pageSize) pageSize := by
  unfold vmInsertPage at h
  split_ifs at h
  cases h
  rfl

theorem dmaMmapAttrs_ok {ret : ℤ} {vma : Vma} {pages : List ℕ} {tr : Translation}
    (h : dmaMmapAttrs ret vma pages = .ok tr) :
    vma.size / pageSize ≤ pages.length ∧
      tr = Translation.overlay (fun _ => none) vma.vmStart vma.size
        (Segment.byteAt (pages.map pageSegment)) := by
  unfold dmaMmapAttrs at h
  split_ifs at h with hlong
  cases h
  exact ⟨Nat.le_of_not_lt hlong, rfl⟩

end RknpuDriver.Buffer
