import RknpuDriver.Basic
import RknpuDriver.Buffer.Pages
import RknpuDriver.Lib.Ownership
import RknpuDriver.Lib.Transfers
import Mathlib.Algebra.BigOperators.Ring.List
import Mathlib.Algebra.Order.BigOperators.Group.List
import Mathlib.Algebra.Order.Ring.Nat
import Mathlib.Algebra.Ring.Nat
import Mathlib.Order.Interval.Finset.Nat

/-! # `dma32_heap_allocate`

A buffer of the DMA32 heap is gathered from blocks of the page allocator, the largest that still
fit first, and their order never rises again. A block at or above 4 GiB is given back at once. The
blocks are moved to a scatter-gather table, and whatever fails afterwards gives them back from
there, whatever fails before from the list.

The page allocator is outside of the heap: it fails as it likes, and what it gives is naturally
aligned and not in use.
-/

namespace RknpuDriver.Dma32
open RknpuDriver.Lib
open RknpuDriver.Buffer (pageSize)
set_option autoImplicit false

abbrev eintr : ℤ := 4

/-! ## Blocks of pages -/

/-- A compound page, by its first frame. -/
structure Block where
  order : ℕ
  pfn : ℕ
  deriving DecidableEq, Repr

/-- `page_to_phys`. -/
def Block.phys (b : Block) : ℕ := b.pfn * pageSize

/-- `page_size`. -/
def Block.size (b : Block) : ℕ := pageSize <<< b.order

def Block.frames (b : Block) : Finset ℕ := Finset.Ico b.pfn (b.pfn + 2 ^ b.order)

/-- What the blocks have together. -/
def Block.total (blocks : List Block) : ℕ := (blocks.map Block.size).sum

/-- `alloc_pages`, which may look at all that happened since the call of the heap began. -/
structure PageAllocator where
  allocPages : List (Transfer Block) → ℕ → Option ℕ
  aligned : ∀ {history order pfn}, allocPages history order = some pfn → 2 ^ order ∣ pfn
  apart : ∀ {history order pfn held}, allocPages history order = some pfn →
    hold [] history = some held → ∀ b ∈ held, Disjoint b.frames (Block.mk order pfn).frames

/-! ## Gathering -/

def orders : List ℕ := [8, 4, 0]

/-- The loop of `alloc_largest_available_dma32` over what is left of `orders`. -/
def tryOrders (A : PageAllocator) (size maxOrder : ℕ) :
    List ℕ → List (Transfer Block) → Option Block × List (Transfer Block)
  | [], history => (none, history)
  | order :: rest, history =>
    if size < pageSize <<< order then tryOrders A size maxOrder rest history
    else if maxOrder < order then tryOrders A size maxOrder rest history
    else
      match A.allocPages history order with
      | none => tryOrders A size maxOrder rest history
      | some pfn =>
        let page : Block := ⟨order, pfn⟩
        if 0x100000000 ≤ page.phys then
          tryOrders A size maxOrder rest (history ++ [.take page] ++ [.give page])
        else (some page, history ++ [.take page])

def allocLargestAvailableDma32 (A : PageAllocator) (size maxOrder : ℕ)
    (history : List (Transfer Block)) : Option Block × List (Transfer Block) :=
  tryOrders A size maxOrder orders history

/-- How the loop of `dma32_heap_allocate` ends. -/
structure Gathered where
  failed : Option ℤ
  pages : List Block
  sizeRemaining : ℕ
  history : List (Transfer Block)

/-- The loop of `dma32_heap_allocate`; `signal` is `fatal_signal_pending` in each iteration. -/
def gatherPages (A : PageAllocator) (signal : ℕ → Bool) :
    ℕ → ℕ → ℕ → List Block → List (Transfer Block) → Option Gathered
  | 0, _, _, _, _ => none
  | fuel + 1, sizeRemaining, maxOrder, pages, history =>
    if sizeRemaining = 0 then some ⟨none, pages, sizeRemaining, history⟩
    else if signal pages.length then some ⟨some (-eintr), pages, sizeRemaining, history⟩
    else
      match allocLargestAvailableDma32 A sizeRemaining maxOrder history with
      | (none, history) => some ⟨some (-enomem), pages, sizeRemaining, history⟩
      | (some page, history) =>
        gatherPages A signal fuel (Buffer.u64Sub sizeRemaining page.size) page.order
          (pages ++ [page]) history

/-! ## The call -/

/-- An entry of the table; its offset is zero. -/
structure SgEntry where
  page : Block
  length : ℕ
  deriving DecidableEq, Repr

/-- `struct dma32_heap_buffer`. -/
structure Dma32HeapBuffer where
  len : ℕ
  sgTable : List SgEntry
  vmapCnt : ℕ
  vaddr : Option ℕ
  deriving DecidableEq, Repr

structure AllocateOutcome where
  kzallocOk : Bool
  signal : ℕ → Bool
  sgAllocRet : ℤ
  exportErr : Option ℤ

/-- The move to the table, which has as many entries as the `unsigned int` argument of
`sg_alloc_table` says; `none` is a walk off its end. -/
def moveToTable (pages : List Block) : Option (List SgEntry) :=
  if u32 pages.length < pages.length then none
  else some (pages.map fun page => ⟨page, u32 page.size⟩)

/-- `dma32_heap_allocate`, and the history of the page allocator when it returns. -/
def dma32HeapAllocate (A : PageAllocator) (len : UInt64) (out : AllocateOutcome) :
    Option (Except ℤ Dma32HeapBuffer × List (Transfer Block)) :=
  if out.kzallocOk = false then some (.error (-enomem), [])
  else
    match gatherPages A out.signal (len.toNat + 1) len.toNat (orders.headD 0) [] [] with
    | none => none
    | some got =>
      let freeBuffer := got.history ++ got.pages.map .give
      match got.failed with
      | some e => some (.error e, freeBuffer)
      | none =>
        if out.sgAllocRet ≠ 0 then some (.error (-enomem), freeBuffer)
        else
          match moveToTable got.pages, out.exportErr with
          | none, _ => none
          | some table, some e =>
            some (.error e, got.history ++ table.map fun sg => .give sg.page)
          | some table, none => some (.ok ⟨len.toNat, table, 0, none⟩, got.history)

/-! ## Blocks below 4 GiB -/

theorem Block.size_eq (b : Block) : b.size = pageSize * 2 ^ b.order := Nat.shiftLeft_eq ..

theorem Block.size_pos (b : Block) : 0 < b.size := by
  rw [b.size_eq]
  exact Nat.mul_pos (by decide) (Nat.two_pow_pos _)

theorem Block.card_frames (b : Block) : b.frames.card = 2 ^ b.order := by
  unfold Block.frames
  rw [Nat.card_Ico, Nat.add_sub_cancel_left]

@[simp] theorem Block.total_nil : Block.total [] = 0 := rfl

theorem Block.total_append (blocks blocks' : List Block) :
    Block.total (blocks ++ blocks') = Block.total blocks + Block.total blocks' := by
  unfold Block.total
  rw [List.map_append, List.sum_append]

theorem Block.end_le {b : Block} (haligned : 2 ^ b.order ∣ b.pfn) (horder : b.order ≤ 20)
    (hlow : b.phys < 2 ^ 32) : b.phys + b.size ≤ 2 ^ 32 := by
  obtain ⟨k, hk⟩ := haligned
  obtain ⟨d, hd⟩ := Nat.exists_eq_add_of_le horder
  have hsplit : 2 ^ b.order * 2 ^ d = 2 ^ 20 := by rw [← Nat.pow_add, ← hd]
  have hphys : b.phys = pageSize * 2 ^ b.order * k := by
    unfold Block.phys
    rw [hk, Nat.mul_comm, Nat.mul_assoc]
  have hfour : pageSize * 2 ^ b.order * 2 ^ d = 2 ^ 32 := by
    rw [Nat.mul_assoc, hsplit]
    rfl
  have hpos : 0 < pageSize * 2 ^ b.order := Nat.mul_pos (by decide) (Nat.two_pow_pos _)
  have hk' : k < 2 ^ d := by
    rw [hphys, ← hfour] at hlow
    exact Nat.lt_of_mul_lt_mul_left hlow
  calc b.phys + b.size
      = pageSize * 2 ^ b.order * (k + 1) := by rw [hphys, b.size_eq, Nat.mul_succ]
    _ ≤ pageSize * 2 ^ b.order * 2 ^ d := Nat.mul_le_mul_left _ hk'
    _ = 2 ^ 32 := hfour

/-- Blocks that share no page have as much as their pages together. -/
theorem Block.total_le {blocks : List Block} (hdisjoint : blocks.Pairwise fun a b =>
    Disjoint a.frames b.frames) (hlow : ∀ b ∈ blocks, b.phys + b.size ≤ 2 ^ 32) :
    Block.total blocks ≤ 2 ^ 32 := by
  have howned : Owned Block.frames blocks fun i => decide (∃ b ∈ blocks, i ∈ b.frames) :=
    ⟨hdisjoint, fun i => decide_eq_true_iff⟩
  have hcards := @Owned.sum_card_le _ _ _ _ howned (2 ^ 20) fun b hb i hi => by
    have hend := hlow b hb
    have hi := (Finset.mem_Ico.mp hi).2
    rw [Block.size_eq, Block.phys, Nat.mul_comm pageSize, ← Nat.add_mul] at hend
    simp only [pageSize] at hend
    omega
  have htotal : Block.total blocks = pageSize * (blocks.map fun b => b.frames.card).sum := by
    have hmul := List.sum_map_mul_left blocks (fun b => b.frames.card) pageSize
    unfold Block.total
    rw [← hmul]
    refine congrArg List.sum (List.map_congr_left fun b _ => ?_)
    rw [b.size_eq, b.card_frames]
  rw [htotal]
  calc pageSize * (blocks.map fun b => b.frames.card).sum
      ≤ pageSize * 2 ^ 20 := Nat.mul_le_mul_left _ hcards
    _ = 2 ^ 32 := rfl

/-! ## One block -/

/-- A block that the heap keeps: it fits in what is left, and every byte of it is below 4 GiB. -/
structure Kept (size maxOrder : ℕ) (held : List Block) (page : Block) : Prop where
  fits : page.size ≤ size
  order_le : page.order ≤ maxOrder
  known : page.order ∈ orders
  low : page.phys + page.size ≤ 2 ^ 32
  apart : ∀ b ∈ held, Disjoint b.frames page.frames

/-- Whatever the allocator does, a block is kept or all that it gave has gone back. -/
theorem tryOrders_spec {A : PageAllocator} {size maxOrder : ℕ} {rest : List ℕ}
    {history history' : List (Transfer Block)} {held : List Block} {ret : Option Block}
    (hrest : ∀ order ∈ rest, order ∈ orders) (hheld : hold [] history = some held)
    (h : tryOrders A size maxOrder rest history = (ret, history')) :
    (ret = none ∧ hold [] history' = some held) ∨
      ∃ page, ret = some page ∧ hold [] history' = some (held ++ [page]) ∧
        Kept size maxOrder held page := by
  induction rest generalizing history with
  | nil =>
    cases h
    exact Or.inl ⟨rfl, hheld⟩
  | cons order rest ih =>
    have hmore : ∀ order ∈ rest, order ∈ orders := fun o ho => hrest o (List.mem_cons_of_mem _ ho)
    unfold tryOrders at h
    split_ifs at h with hlarge hraise
    · exact ih hmore hheld h
    · exact ih hmore hheld h
    split at h
    · exact ih hmore hheld h
    rename_i pfn hpfn
    have hapart : ∀ b ∈ held, Disjoint b.frames (Block.mk order pfn).frames :=
      A.apart hpfn hheld
    have htaken : hold [] (history ++ [.take ⟨order, pfn⟩]) = some (held ++ [⟨order, pfn⟩]) := by
      rw [hold_append, hheld]
      rfl
    simp only at h
    split_ifs at h with hhigh
    · refine ih hmore ?_ h
      rw [hold_append, htaken, Option.bind_some]
      refine hold_give_last fun hmem => ?_
      have hself := Finset.disjoint_self_iff_empty _ |>.mp (hapart _ hmem)
      have hcard := Block.card_frames ⟨order, pfn⟩
      rw [hself, Finset.card_empty] at hcard
      exact absurd hcard (Nat.ne_of_lt (Nat.two_pow_pos order))
    · cases h
      have hknown := hrest order List.mem_cons_self
      refine Or.inr ⟨_, rfl, htaken, Nat.le_of_not_lt hlarge, Nat.le_of_not_lt hraise, hknown, ?_,
        hapart⟩
      refine Block.end_le (A.aligned hpfn) ?_ (Nat.lt_of_not_le hhigh)
      have horder : order = 8 ∨ order = 4 ∨ order = 0 := by simpa [orders] using hknown
      show order ≤ 20
      omega

/-! ## The loop -/

/-- The blocks so far, at the head of an iteration. -/
structure Filling (len maxOrder sizeRemaining : ℕ) (pages : List Block)
    (history : List (Transfer Block)) : Prop where
  held : hold [] history = some pages
  total : Block.total pages + sizeRemaining = len
  known : ∀ b ∈ pages, b.order ∈ orders
  low : ∀ b ∈ pages, b.phys + b.size ≤ 2 ^ 32
  sorted : pages.Pairwise fun a b => b.order ≤ a.order
  least : ∀ b ∈ pages, maxOrder ≤ b.order
  disjoint : pages.Pairwise fun a b => Disjoint a.frames b.frames

theorem pairwise_concat {α : Type} {r : α → α → Prop} {l : List α} {a : α} (hl : l.Pairwise r)
    (ha : ∀ b ∈ l, r b a) : (l ++ [a]).Pairwise r := by
  refine List.pairwise_append.mpr ⟨hl, List.pairwise_singleton r a, fun b hb c hc => ?_⟩
  rw [List.mem_singleton.mp hc]
  exact ha b hb

theorem Filling.push {len maxOrder sizeRemaining : ℕ} {pages : List Block}
    {history history' : List (Transfer Block)} {page : Block} (hlen : len < 2 ^ 64)
    (hf : Filling len maxOrder sizeRemaining pages history)
    (hheld : hold [] history' = some (pages ++ [page]))
    (hk : Kept sizeRemaining maxOrder pages page) :
    Filling len page.order (Buffer.u64Sub sizeRemaining page.size) (pages ++ [page]) history' := by
  have hmem : ∀ {P : Block → Prop}, (∀ b ∈ pages, P b) → P page → ∀ b ∈ pages ++ [page], P b := by
    intro P hpages hpage b hb
    obtain hb | hb := List.mem_append.mp hb
    · exact hpages b hb
    · rw [List.mem_singleton.mp hb]
      exact hpage
  refine ⟨hheld, ?_, hmem hf.known hk.known, hmem hf.low hk.low, pairwise_concat hf.sorted ?_,
    hmem ?_ (Nat.le_refl _), pairwise_concat hf.disjoint hk.apart⟩
  · have htotal := hf.total
    have hfits := hk.fits
    have hone : Block.total [page] = page.size := Nat.add_zero _
    rw [Block.total_append, hone, Buffer.u64Sub_of_le hfits (by omega)]
    omega
  · exact fun b hb => Nat.le_trans hk.order_le (hf.least b hb)
  · exact fun b hb => Nat.le_trans hk.order_le (hf.least b hb)

/-- The loop ends, and the blocks it ends with are what was held all along. -/
theorem gatherPages_spec {A : PageAllocator} {signal : ℕ → Bool} {len fuel : ℕ}
    (hlen : len < 2 ^ 64) {maxOrder sizeRemaining : ℕ} {pages : List Block}
    {history : List (Transfer Block)} (hf : Filling len maxOrder sizeRemaining pages history)
    (hfuel : sizeRemaining < fuel) :
    ∃ got maxOrder', gatherPages A signal fuel sizeRemaining maxOrder pages history = some got ∧
      Filling len maxOrder' got.sizeRemaining got.pages got.history ∧
      (got.failed = none → got.sizeRemaining = 0) := by
  induction fuel generalizing maxOrder sizeRemaining pages history with
  | zero => exact absurd hfuel (Nat.not_lt_zero _)
  | succ fuel ih =>
    unfold gatherPages
    by_cases hdone : sizeRemaining = 0
    · rw [if_pos hdone]
      exact ⟨_, maxOrder, rfl, hf, fun _ => hdone⟩
    rw [if_neg hdone]
    by_cases hsignal : signal pages.length = true
    · rw [if_pos hsignal]
      refine ⟨_, maxOrder, rfl, hf, fun hnone => ?_⟩
      cases hnone
    rw [if_neg hsignal]
    cases hret : allocLargestAvailableDma32 A sizeRemaining maxOrder history with
    | mk ret history' =>
      obtain ⟨rfl, hheld⟩ | ⟨page, rfl, hheld, hkept⟩ :=
        tryOrders_spec (fun _ ho => ho) hf.held hret
      · refine ⟨_, maxOrder, rfl, { hf with held := hheld }, fun hnone => ?_⟩
        cases hnone
      · have hpos := page.size_pos
        have hfits := hkept.fits
        have htotal := hf.total
        refine ih (hf.push hlen hheld hkept) ?_
        rw [Buffer.u64Sub_of_le hfits (by omega)]
        omega

/-! ## The buffer -/

/-- A buffer of `len` bytes, made of the blocks that are held after `history`. -/
structure Built (len : ℕ) (buffer : Dma32HeapBuffer) (history : List (Transfer Block)) :
    Prop where
  len_eq : buffer.len = len
  whole : len % pageSize = 0
  held : hold [] history = some (buffer.sgTable.map SgEntry.page)
  length_eq : ∀ sg ∈ buffer.sgTable, sg.length = sg.page.size
  total : (buffer.sgTable.map SgEntry.length).sum = len
  sorted : buffer.sgTable.Pairwise fun sg sg' => sg'.page.order ≤ sg.page.order
  low : ∀ sg ∈ buffer.sgTable, ∀ x, sg.page.phys ≤ x → x < sg.page.phys + sg.page.size →
    x < 2 ^ 32
  disjoint : buffer.sgTable.Pairwise fun sg sg' => Disjoint sg.page.frames sg'.page.frames
  unmapped : buffer.vmapCnt = 0 ∧ buffer.vaddr = none

theorem size_mod (b : Block) : b.size % pageSize = 0 := by
  rw [b.size_eq]
  exact Nat.mul_mod_right _ _

theorem total_mod (blocks : List Block) : Block.total blocks % pageSize = 0 := by
  induction blocks with
  | nil => rfl
  | cons b blocks ih =>
    show (b.size + Block.total blocks) % pageSize = 0
    rw [Nat.add_mod, size_mod, ih]
    rfl

theorem length_le_total (blocks : List Block) :
    blocks.length * pageSize ≤ Block.total blocks := by
  induction blocks with
  | nil => exact Nat.le_refl 0
  | cons b blocks ih =>
    have hone : pageSize ≤ b.size := by
      rw [b.size_eq]
      exact Nat.le_mul_of_pos_right _ (Nat.two_pow_pos _)
    rw [List.length_cons, Nat.succ_mul, Nat.add_comm]
    exact Nat.add_le_add hone ih

namespace Filling
variable {len maxOrder sizeRemaining : ℕ} {pages : List Block} {history : List (Transfer Block)}

theorem start (len : ℕ) : Filling len (orders.headD 0) len [] [] where
  held := rfl
  total := Nat.zero_add len
  known := fun b hb => by cases hb
  low := fun b hb => by cases hb
  sorted := .nil
  least := fun b hb => by cases hb
  disjoint := .nil

theorem size_lt (hf : Filling len maxOrder sizeRemaining pages history) {b : Block}
    (hb : b ∈ pages) : u32 b.size = b.size := by
  have horder : b.order = 8 ∨ b.order = 4 ∨ b.order = 0 := by
    simpa [orders] using hf.known b hb
  refine u32_of_lt ?_
  unfold Block.size
  obtain h | h | h := horder
  all_goals
    rw [h]
    decide

/-- As many blocks as lie below 4 GiB are counted by an `int`, and have their entries. -/
theorem move (hf : Filling len maxOrder sizeRemaining pages history) :
    moveToTable pages = some (pages.map fun page => ⟨page, page.size⟩) := by
  have hcount := length_le_total pages
  have htotal := Block.total_le hf.disjoint hf.low
  have hfew : u32 pages.length = pages.length := by
    simp only [pageSize] at hcount
    exact u32_of_lt (by omega)
  unfold moveToTable
  rw [if_neg (by rw [hfew]; exact Nat.lt_irrefl _)]
  refine congrArg some (List.map_congr_left fun page hpage => ?_)
  rw [hf.size_lt hpage]

theorem give_all (hf : Filling len maxOrder sizeRemaining pages history) :
    hold [] (history ++ pages.map .give) = some [] := by
  rw [hold_append, hf.held]
  exact hold_give_all pages

theorem built (hf : Filling len maxOrder 0 pages history) :
    Built len ⟨len, pages.map fun page => ⟨page, page.size⟩, 0, none⟩ history := by
  have htotal : Block.total pages = len := hf.total
  refine ⟨rfl, ?_, ?_, ?_, ?_, ?_, ?_, ?_, rfl, rfl⟩
  · rw [← htotal]
    exact total_mod pages
  · have hpages : (pages.map fun page => (⟨page, page.size⟩ : SgEntry)).map SgEntry.page =
        pages := by
      rw [List.map_map]
      exact List.map_id pages
    rw [hf.held, hpages]
  · intro sg hsg
    obtain ⟨page, -, rfl⟩ := List.mem_map.mp hsg
    rfl
  · rw [← htotal, List.map_map]
    rfl
  · exact List.pairwise_map.mpr hf.sorted
  · intro sg hsg x _ hx
    obtain ⟨page, hpage, rfl⟩ := List.mem_map.mp hsg
    exact Nat.lt_of_lt_of_le hx (hf.low page hpage)
  · exact List.pairwise_map.mpr hf.disjoint

end Filling

theorem dma32HeapAllocate_ends (A : PageAllocator) (len : UInt64) (out : AllocateOutcome) :
    ∃ ret history, dma32HeapAllocate A len out = some (ret, history) ∧
      (∀ buffer, ret = .ok buffer → Built len.toNat buffer history) ∧
      ∀ e, ret = .error e → hold [] history = some [] := by
  obtain ⟨got, maxOrder, hgot, hf, hempty⟩ := @gatherPages_spec A out.signal len.toNat
    (len.toNat + 1) len.toNat_lt _ _ _ _ (Filling.start len.toNat) (Nat.lt_succ_self _)
  unfold dma32HeapAllocate
  by_cases hkzalloc : out.kzallocOk = false
  · rw [if_pos hkzalloc]
    refine ⟨_, [], rfl, fun buffer hret => ?_, fun _ _ => rfl⟩
    cases hret
  rw [if_neg hkzalloc]
  simp only [hgot]
  cases hfailed : got.failed with
  | some e =>
    refine ⟨_, _, rfl, fun buffer hret => ?_, fun _ _ => hf.give_all⟩
    cases hret
  | none =>
    simp only
    by_cases hsg : out.sgAllocRet ≠ 0
    · rw [if_pos hsg]
      refine ⟨_, _, rfl, fun buffer hret => ?_, fun _ _ => hf.give_all⟩
      cases hret
    rw [if_neg hsg, hf.move]
    cases hexport : out.exportErr with
    | some e =>
      refine ⟨_, _, rfl, fun buffer hret => ?_, fun _ _ => ?_⟩
      · cases hret
      · rw [List.map_map]
        exact hf.give_all
    | none =>
      refine ⟨_, _, rfl, fun buffer hret => ?_, fun e hret => ?_⟩
      · cases hret
        rw [hempty hfailed] at hf
        exact hf.built
      · cases hret

theorem dma32HeapAllocate_ok {A : PageAllocator} {len : UInt64} {out : AllocateOutcome}
    {buffer : Dma32HeapBuffer} {history : List (Transfer Block)}
    (h : dma32HeapAllocate A len out = some (.ok buffer, history)) :
    Built len.toNat buffer history := by
  obtain ⟨ret, history', hret, hok, -⟩ := dma32HeapAllocate_ends A len out
  cases h.symm.trans hret
  exact hok buffer rfl

/-- `dma32_heap_allocate` returns, whatever happens in it. What is left to gather is always what
the blocks so far leave of `len`; a buffer that is returned is of `len` bytes, in whole pages below
4 GiB; and when it fails, every block has gone back, once. -/
theorem dma32_heap_allocate_exact (A : PageAllocator) (len : UInt64) (out : AllocateOutcome) :
    (∃ got, gatherPages A out.signal (len.toNat + 1) len.toNat (orders.headD 0) [] [] = some got ∧
      Block.total got.pages + got.sizeRemaining = len.toNat) ∧
    ∃ ret history, dma32HeapAllocate A len out = some (ret, history) ∧
      (∀ buffer, ret = .ok buffer → Built len.toNat buffer history) ∧
      ∀ e, ret = .error e → hold [] history = some [] := by
  obtain ⟨got, maxOrder, hgot, hf, -⟩ := @gatherPages_spec A out.signal len.toNat
    (len.toNat + 1) len.toNat_lt _ _ _ _ (Filling.start len.toNat) (Nat.lt_succ_self _)
  exact ⟨⟨got, hgot, hf.total⟩, dma32HeapAllocate_ends A len out⟩

/-- An allocator that gives the next aligned block beyond all that are held. -/
def bumpAllocator : PageAllocator where
  allocPages history order := (hold [] history).map fun held =>
    2 ^ order * (held.map fun b => b.pfn + 2 ^ b.order).sum
  aligned h := by
    obtain ⟨held, -, rfl⟩ := Option.map_eq_some_iff.mp h
    exact Nat.dvd_mul_right _ _
  apart {history order pfn held} h hheld b hb := by
    rw [hheld] at h
    cases h
    have hend : b.pfn + 2 ^ b.order ≤ (held.map fun b => b.pfn + 2 ^ b.order).sum :=
      List.le_sum_of_mem (List.mem_map_of_mem hb)
    have hscaled := Nat.le_mul_of_pos_left (held.map fun b => b.pfn + 2 ^ b.order).sum
      (Nat.two_pow_pos order)
    refine Finset.disjoint_left.mpr fun i hi hi' => ?_
    have hlow := (Finset.mem_Ico.mp hi).2
    have hhigh := (Finset.mem_Ico.mp hi').1
    simp only at hhigh
    omega

def allCallsSucceed : AllocateOutcome := ⟨true, fun _ => false, 0, none⟩

/-- 68 KiB are a block of sixteen pages and one of a page. -/
example : (dma32HeapAllocate bumpAllocator 69632 allCallsSucceed).map
    (fun res => res.1.toOption.map Dma32HeapBuffer.sgTable) =
      some (some [⟨⟨4, 0⟩, 65536⟩, ⟨⟨0, 16⟩, 4096⟩]) := by
  decide +kernel

end RknpuDriver.Dma32
