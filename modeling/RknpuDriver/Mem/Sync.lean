import RknpuDriver.Buffer.Sync

/-! # MEM_SYNC of a dma-buf

`rknpu_dma_buf_sync` walks over the table of a dma-buf. It takes the DMA address of the first entry
and adds up the lengths of the entries from there on; `rknpu_gem_sync_ioctl` takes the address of
each entry. The position in the table, and the offset and the length that are asked for, are kept
in 32 bits.

* `SyncsExactly`: the range of each entry is what lies in it of the bytes that are asked for.
* `KeepsBlock`: no sum of lengths that decides about an entry wraps around.
* `OnLine`: an entry is mapped as far behind the first one as it begins behind it.
* `dma_buf_sync_exact`: these are what an exact sync takes.
-/

namespace RknpuDriver.Mem
open RknpuDriver.Lib RknpuDriver.Buffer
set_option autoImplicit false

/-! ## The loop -/

/-- A table that is mapped for the device: the bytes of an entry are at the DMA addresses from
`start` on. -/
structure MappedTable extends ScatterList (2 ^ 32) where
  start_lt : ∀ s ∈ segs, s.start < 2 ^ 64
  fits : ∀ s ∈ segs, s.start + s.length ≤ 2 ^ 64

namespace MappedTable
variable (sgt : MappedTable)

/-- `sg_dma_address` of the first entry. -/
def sgDmaAddress : ℕ := (sgt.segs.head?.map Segment.start).getD 0

/-- The entries, each with the byte of the buffer that it begins at. -/
def entries : List (ℕ × Segment) := Segment.placed 0 sgt.segs

theorem sgDmaAddress_lt : sgt.sgDmaAddress < 2 ^ 64 := by
  unfold sgDmaAddress
  cases hsegs : sgt.segs with
  | nil => decide
  | cons s segs => exact sgt.start_lt s (hsegs ▸ List.mem_cons_self ..)

end MappedTable

/-- The loop of `rknpu_dma_buf_sync`, with the range that each entry is synced for, if it is. -/
def syncEntries : ℕ → ℕ → ℕ → ℕ → List Segment → List (Option Segment)
  | _, _, _, _, [] => []
  | sgDmaAddr, len, offset, length, sg :: sgl =>
    let len := u32 (len + sg.length)
    let next := u64 (sgDmaAddr + sg.length)
    if len ≤ offset then none :: syncEntries next len offset length sgl
    else
      let sgLeft := u32Sub len offset
      let sgOffset := u32Sub sg.length sgLeft
      let size := if length < sgLeft then length else sgLeft
      let rest := u32Sub length size
      some ⟨u64 (sgDmaAddr + sgOffset), size⟩ ::
        if rest = 0 then sgl.map fun _ => none
        else syncEntries next len (u32 (offset + size)) rest sgl

/-- `rknpu_dma_buf_sync`, whose offset and length are `u32`s. -/
def rknpuDmaBufSync (sgt : MappedTable) (offset length : ℕ) : List (Option Segment) :=
  syncEntries sgt.sgDmaAddress 0 (u32 offset) (u32 length) sgt.segs

/-- `rknpu_mem_sync_ioctl`, once the object is found: what is synced in each direction. To the
device it is `dma_sync_single_range_for_device`, from the device the call for the CPU. -/
def rknpuMemSyncIoctl (sgt : MappedTable) (args : SyncArgs) :
    List (Direction × List (Option Segment)) :=
  (directions args.flags).map fun dir =>
    (dir, rknpuDmaBufSync sgt args.offset.toNat args.size.toNat)

/-! ## What is asked for -/

/-- A range, unless it is empty. -/
def kept (r : Option Segment) : Option Segment := r.filter fun s => 0 < s.length

/-- The ranges are, entry by entry, what the entry has of the bytes that are asked for. -/
def SyncsExactly (sgt : MappedTable) (offset size : ℕ) (ranges : List (Option Segment)) : Prop :=
  ranges.map kept = sgt.entries.map fun q => kept (some (Segment.piece offset size q))

/-- Whether an entry has some of the bytes that are asked for. -/
def Touched (offset size : ℕ) (q : ℕ × Segment) : Prop :=
  0 < (Segment.piece offset size q).length

/-- An entry before the offset does not end past it when both are cut to 32 bits, and one with
bytes that are asked for ends in the block of 4 GiB that the offset is in. -/
def KeepsBlock (offset size : ℕ) (q : ℕ × Segment) : Prop :=
  (q.1 + q.2.length ≤ offset → u32 (q.1 + q.2.length) ≤ u32 offset) ∧
    (Touched offset size q → (q.1 + q.2.length) / 2 ^ 32 = offset / 2 ^ 32)

/-- An entry with bytes that are asked for is mapped as far from `base` as it begins in the
buffer. -/
def OnLine (base offset size : ℕ) (q : ℕ × Segment) : Prop :=
  Touched offset size q → q.2.start = u64 (base + q.1)

/-- Every direction that is asked for syncs the bytes that are asked for. -/
def SyncsRequest (sgt : MappedTable) (args : SyncArgs) : Prop :=
  ∀ call ∈ rknpuMemSyncIoctl sgt args, SyncsExactly sgt args.offset.toNat args.size.toNat call.2

instance (sgt : MappedTable) (offset size : ℕ) (ranges : List (Option Segment)) :
    Decidable (SyncsExactly sgt offset size ranges) := inferInstanceAs (Decidable (_ = _))

instance (sgt : MappedTable) (args : SyncArgs) : Decidable (SyncsRequest sgt args) :=
  inferInstanceAs (Decidable (∀ call ∈ rknpuMemSyncIoctl sgt args, SyncsExactly ..))

instance (offset size : ℕ) (q : ℕ × Segment) : Decidable (Touched offset size q) :=
  inferInstanceAs (Decidable (0 < _))

instance (offset size : ℕ) (q : ℕ × Segment) : Decidable (KeepsBlock offset size q) :=
  inferInstanceAs (Decidable (_ ∧ _))

instance (base offset size : ℕ) (q : ℕ × Segment) : Decidable (OnLine base offset size q) :=
  inferInstanceAs (Decidable (_ → _))

variable {base offset size p : ℕ} {segs : List Segment} {q : ℕ × Segment}

theorem kept_eq_none {s : Segment} (h : s.length = 0) : kept (some s) = none := by
  simp [kept, Option.filter, h]

theorem kept_eq_some {s : Segment} (h : 0 < s.length) : kept (some s) = some s := by
  simp [kept, Option.filter, h]

theorem kept_inj {s t : Segment} (h : s.length = t.length) :
    kept (some s) = kept (some t) ↔ (0 < t.length → s.start = t.start) := by
  by_cases ht : 0 < t.length
  · rw [kept_eq_some ht, kept_eq_some (h ▸ ht), Option.some_inj]
    constructor
    · rintro rfl _
      rfl
    · intro hstart
      cases s
      cases t
      simp_all
  · have ht : t.length = 0 := Nat.eq_zero_of_not_pos ht
    rw [kept_eq_none ht, kept_eq_none (h.trans ht)]
    exact ⟨fun _ hpos => absurd hpos (by omega), fun _ => rfl⟩

/-- The length of a range, `0` where there is none. -/
def lengthOf (r : Option Segment) : ℕ := r.elim 0 Segment.length

@[simp] theorem lengthOf_none : lengthOf none = 0 := rfl

@[simp] theorem lengthOf_some (s : Segment) : lengthOf (some s) = s.length := rfl

theorem lengthOf_kept (r : Option Segment) : lengthOf (kept r) = lengthOf r := by
  cases r with
  | none => rfl
  | some s =>
    by_cases hs : 0 < s.length
    · rw [kept_eq_some hs]
    · have hs : s.length = 0 := Nat.eq_zero_of_not_pos hs
      rw [kept_eq_none hs]
      exact hs.symm

/-! ## One entry -/

theorem piece_length (offset size : ℕ) (q : ℕ × Segment) :
    (Segment.piece offset size q).length =
      min (offset + size) (q.1 + q.2.length) - max offset q.1 := rfl

theorem piece_past (h : offset + size ≤ p) (hq : q ∈ Segment.placed p segs) :
    (Segment.piece offset size q).length = 0 := by
  have := (Segment.le_of_mem_placed hq).1
  rw [piece_length]
  omega

theorem map_placed_none {β : Type} (p : ℕ) (segs : List Segment) (f : ℕ × Segment → β) (b : β)
    (h : ∀ q ∈ Segment.placed p segs, f q = b) :
    (Segment.placed p segs).map f = segs.map fun _ => b := by
  conv_rhs => rw [← Segment.placed_segs p segs, List.map_map]
  exact List.map_congr_left h

theorem u32_block {a b : ℕ} (hle : a ≤ b) (hblock : b / 2 ^ 32 = a / 2 ^ 32) :
    u32 a ≤ u32 b ∧ u32 b - u32 a = b - a := by
  unfold u32
  omega

theorem block_of_u32 {a b : ℕ} (hle : a ≤ b) (hnear : b - a < 2 ^ 32) (h : u32 a < u32 b) :
    b / 2 ^ 32 = a / 2 ^ 32 := by
  unfold u32 at h
  omega

theorem u32_add (a b : ℕ) : u32 (u32 a + b) = u32 (a + b) := by
  unfold u32
  omega

theorem u64_add (a b : ℕ) : u64 (u64 a + b) = u64 (a + b) := by
  unfold u64
  omega

section Entry
variable {a length m : ℕ} {sg : Segment} {sgl : List Segment}

theorem syncEntries_skip (h : u32 (p + sg.length) ≤ offset) :
    syncEntries (u64 a) (u32 p) offset length (sg :: sgl) =
      none :: syncEntries (u64 (a + sg.length)) (u32 (p + sg.length)) offset length sgl := by
  conv_lhs => unfold syncEntries
  simp only [u32_add, u64_add]
  rw [if_pos h]

theorem syncEntries_take (hp : p ≤ m) (hm : m < p + sg.length) (hsg : sg.length < 2 ^ 32)
    (hblock : (p + sg.length) / 2 ^ 32 = m / 2 ^ 32) (hlength : length < 2 ^ 32) :
    syncEntries (u64 a) (u32 p) (u32 m) length (sg :: sgl) =
      some ⟨u64 (a + (m - p)), min length (p + sg.length - m)⟩ ::
        if length - min length (p + sg.length - m) = 0 then sgl.map fun _ => none
        else syncEntries (u64 (a + sg.length)) (u32 (p + sg.length)) (u32 (p + sg.length))
          (length - min length (p + sg.length - m)) sgl := by
  obtain ⟨hle, hleft⟩ := u32_block (Nat.le_of_lt hm) hblock
  have hlt : u32 (p + sg.length) < 2 ^ 32 := Nat.mod_lt _ (by decide)
  have hsgLeft : u32Sub (u32 (p + sg.length)) (u32 m) = p + sg.length - m := by
    rw [u32Sub_of_le hle hlt, hleft]
  have hsgOffset : u32Sub sg.length (p + sg.length - m) = m - p := by
    rw [u32Sub_of_le (by omega) hsg]
    omega
  have hsize : (if length < p + sg.length - m then length else p + sg.length - m) =
      min length (p + sg.length - m) := by
    split_ifs <;> omega
  have hrest : u32Sub length (min length (p + sg.length - m)) =
      length - min length (p + sg.length - m) := u32Sub_of_le (Nat.min_le_left _ _) hlength
  conv_lhs => unfold syncEntries
  simp only [u32_add, u64_add]
  rw [if_neg (by omega)]
  simp only [hsgLeft, hsgOffset, hsize, hrest]
  congr 1
  by_cases hmore : length - min length (p + sg.length - m) = 0
  · rw [if_pos hmore, if_pos hmore]
  · have hend : m + min length (p + sg.length - m) = p + sg.length := by omega
    rw [if_neg hmore, if_neg hmore, hend]

/-- An entry is synced for some bytes when the cut position after it is past the cut offset. -/
theorem syncEntries_pos (h : offset < u32 (p + sg.length)) (hlength : 0 < length) :
    ∃ s rest, syncEntries a (u32 p) offset length (sg :: sgl) = some s :: rest ∧ 0 < s.length := by
  have hlt : u32 (p + sg.length) < 2 ^ 32 := Nat.mod_lt _ (by decide)
  have hleft := u32Sub_of_le (Nat.le_of_lt h) hlt
  unfold syncEntries
  simp only [u32_add]
  rw [if_neg (by omega), hleft]
  refine ⟨_, _, rfl, ?_⟩
  simp only
  split_ifs
  · exact hlength
  · omega

end Entry

/-! ## The walk -/

/-- What an entry is synced for when no sum wraps around. -/
def linearPiece (base offset size : ℕ) (q : ℕ × Segment) : Segment :=
  ⟨u64 (base + max offset q.1), (Segment.piece offset size q).length⟩

theorem kept_past (base : ℕ) (segs : List Segment) (h : offset + size ≤ p) :
    (segs.map fun _ => none).map kept =
      (Segment.placed p segs).map fun q => kept (some (linearPiece base offset size q)) := by
  rw [List.map_map, map_placed_none p segs _ none fun q hq => ?_]
  · rfl
  · exact kept_eq_none (s := linearPiece base offset size q) (piece_past h hq)

/-- **The walk, while no sum wraps around**: each entry is synced for as many bytes as it has of
those that are asked for. -/
theorem syncEntries_kept (segs : List Segment) (hlt : ∀ s ∈ segs, s.length < 2 ^ 32)
    (hsize : size < 2 ^ 32) (hmore : max offset p < offset + size)
    (hkeeps : ∀ q ∈ Segment.placed p segs, KeepsBlock offset size q) :
    (syncEntries (u64 (base + p)) (u32 p) (u32 (max offset p)) (offset + size - max offset p)
        segs).map kept =
      (Segment.placed p segs).map fun q => kept (some (linearPiece base offset size q)) := by
  induction segs generalizing p with
  | nil => rfl
  | cons sg sgl ih =>
    have hsg := hlt sg (List.mem_cons_self ..)
    have hrest := fun t ht => hlt t (List.mem_cons_of_mem _ ht)
    obtain ⟨hbefore, hblock⟩ := hkeeps (p, sg) (List.mem_cons_self ..)
    have hkeeps := fun q hq => hkeeps q (List.mem_cons_of_mem _ hq)
    simp only at hbefore hblock
    unfold Segment.placed
    rw [List.map_cons]
    by_cases htouched : Touched offset size (p, sg)
    · have hblock := hblock htouched
      have hpiece := piece_length offset size (p, sg)
      unfold Touched at htouched
      simp only at hpiece
      have hin : max offset p < p + sg.length := by omega
      have hsame : (p + sg.length) / 2 ^ 32 = max offset p / 2 ^ 32 := by omega
      rw [syncEntries_take (Nat.le_max_right _ _) hin hsg hsame (by omega), List.map_cons]
      congr 1
      · unfold linearPiece
        rw [hpiece]
        congr 3
        · simp only
          congr 1
          omega
        · omega
      · by_cases hdone : offset + size ≤ p + sg.length
        · rw [if_pos (by omega)]
          exact kept_past base sgl hdone
        · have hmax : max offset (p + sg.length) = p + sg.length := by omega
          have hleft : offset + size - max offset p - min (offset + size - max offset p)
              (p + sg.length - max offset p) = offset + size - (p + sg.length) := by omega
          have := ih hrest (p := p + sg.length) (by omega) hkeeps
          rw [hmax] at this
          rw [if_neg (by omega), hleft, Nat.add_assoc, this]
    · have hpiece := piece_length offset size (p, sg)
      unfold Touched at htouched
      simp only at hpiece
      have hskip : u32 (p + sg.length) ≤ u32 (max offset p) := by
        by_cases hle : p + sg.length ≤ offset
        · have hmax : max offset p = offset := by omega
          rw [hmax]
          exact hbefore hle
        · have hmax : max offset p = p + sg.length := by omega
          rw [hmax]
      have hmax : max offset (p + sg.length) = max offset p := by omega
      have := ih hrest (p := p + sg.length) (by omega) hkeeps
      rw [hmax] at this
      rw [syncEntries_skip hskip, List.map_cons, Nat.add_assoc, this]
      congr 1
      have hempty : (linearPiece base offset size (p, sg)).length = 0 :=
        Nat.eq_zero_of_not_pos htouched
      exact (kept_eq_none hempty).symm

theorem total_kept_cons (r : Option Segment) (rs : List (Option Segment)) :
    Segment.total ((r :: rs).filterMap kept) = lengthOf r + Segment.total (rs.filterMap kept) := by
  cases r with
  | none => exact (Nat.zero_add _).symm
  | some s =>
    by_cases hs : 0 < s.length
    · rw [List.filterMap_cons_some (kept_eq_some hs), Segment.total_cons]
      rfl
    · have hs : s.length = 0 := Nat.eq_zero_of_not_pos hs
      have hzero : lengthOf (some s) = 0 := hs
      rw [List.filterMap_cons_none (kept_eq_none hs), hzero, Nat.zero_add]

theorem total_syncEntries (segs : List Segment) {a len offset length : ℕ}
    (hlength : length < 2 ^ 32) :
    Segment.total ((syncEntries a len offset length segs).filterMap kept) ≤ length := by
  induction segs generalizing a len offset length with
  | nil => exact Nat.zero_le _
  | cons sg sgl ih =>
    obtain ⟨size, hsize⟩ : ∃ size, (if length < u32Sub (u32 (len + sg.length)) offset then length
        else u32Sub (u32 (len + sg.length)) offset) = size := ⟨_, rfl⟩
    have hle : size ≤ length := by
      split_ifs at hsize <;> omega
    unfold syncEntries
    simp only
    by_cases hskip : u32 (len + sg.length) ≤ offset
    · rw [if_pos hskip, total_kept_cons, lengthOf_none, Nat.zero_add]
      exact ih hlength
    · rw [if_neg hskip, total_kept_cons, lengthOf_some]
      simp only [hsize]
      rw [u32Sub_of_le hle hlength]
      by_cases hdone : length - size = 0
      · have hnone : (sgl.map fun _ => (none : Option Segment)).filterMap kept = [] := by
          rw [List.filterMap_map]
          exact List.filterMap_eq_nil_iff.mpr fun _ _ => rfl
        rw [if_pos hdone, hnone]
        exact hle
      · rw [if_neg hdone]
        have := @ih (u64 (a + sg.length)) (u32 (len + sg.length)) (u32 (offset + size))
          (length - size) (by omega)
        omega

/-- **The walk syncs the right number of bytes of each entry only if no sum wraps around.** -/
theorem keeps_of_lengths (segs : List Segment) {a : ℕ} (hlt : ∀ s ∈ segs, s.length < 2 ^ 32)
    (hsize : size < 2 ^ 32) (hmore : max offset p < offset + size)
    (hblock : max offset p / 2 ^ 32 = offset / 2 ^ 32)
    (hlens : (syncEntries (u64 a) (u32 p) (u32 (max offset p)) (offset + size - max offset p)
        segs).map lengthOf =
      (Segment.placed p segs).map fun q => (Segment.piece offset size q).length) :
    ∀ q ∈ Segment.placed p segs, KeepsBlock offset size q := by
  induction segs generalizing p a with
  | nil => exact fun q hq => nomatch hq
  | cons sg sgl ih =>
    have hsg := hlt sg (List.mem_cons_self ..)
    have hrest := fun t ht => hlt t (List.mem_cons_of_mem _ ht)
    have hpiece := piece_length offset size (p, sg)
    simp only at hpiece
    unfold Segment.placed at hlens ⊢
    rw [List.map_cons] at hlens
    refine List.forall_mem_cons.mpr ?_
    by_cases hskip : u32 (p + sg.length) ≤ u32 (max offset p)
    · rw [syncEntries_skip hskip, List.map_cons] at hlens
      obtain ⟨hhead, htail⟩ := List.cons.inj hlens
      rw [lengthOf_none] at hhead
      have hmax : max offset (p + sg.length) = max offset p := by omega
      rw [← hmax] at htail
      refine ⟨⟨fun hle => ?_, fun htouched => absurd htouched ?_⟩,
        ih hrest (by omega) (by omega) htail⟩
      · simp only at hle
        have hoffset : max offset p = offset := by omega
        rwa [hoffset] at hskip
      · unfold Touched
        omega
    · obtain ⟨s, rest, hsync, hpos⟩ := @syncEntries_pos _ p (u64 a)
        (offset + size - max offset p) sg sgl (Nat.lt_of_not_le hskip) (by omega)
      have hhead : s.length = (Segment.piece offset size (p, sg)).length := by
        rw [hsync, List.map_cons] at hlens
        exact (List.cons.inj hlens).1
      have hin : max offset p < p + sg.length := by omega
      have hsame := block_of_u32 (Nat.le_of_lt hin) (by omega) (Nat.lt_of_not_le hskip)
      refine ⟨⟨fun hle => ?_, fun _ => hsame.trans hblock⟩, ?_⟩
      · simp only at hle
        omega
      · rw [syncEntries_take (Nat.le_max_right _ _) hin hsg hsame (by omega),
          List.map_cons] at hlens
        have htail := (List.cons.inj hlens).2
        by_cases hdone : offset + size ≤ p + sg.length
        · intro q hq
          have hplace := (Segment.le_of_mem_placed hq).1
          refine ⟨fun hle => ?_, fun htouched => absurd htouched ?_⟩
          · omega
          · unfold Touched
            rw [piece_past hdone hq]
            exact Nat.lt_irrefl 0
        · have hmax : max offset (p + sg.length) = p + sg.length := by omega
          have hleft : offset + size - max offset p - min (offset + size - max offset p)
              (p + sg.length - max offset p) = offset + size - (p + sg.length) := by omega
          rw [if_neg (by omega), hleft] at htail
          refine ih (a := a + sg.length) hrest (by omega) (by omega) ?_
          rw [hmax]
          exact htail

theorem syncEntries_zero (segs : List Segment) (a len offset : ℕ) :
    (syncEntries a len offset 0 segs).map kept = segs.map fun _ => none := by
  induction segs generalizing a len offset with
  | nil => rfl
  | cons sg sgl ih =>
    have hsize : (if 0 < u32Sub (u32 (len + sg.length)) offset then 0
        else u32Sub (u32 (len + sg.length)) offset) = 0 := by
      split_ifs <;> omega
    unfold syncEntries
    simp only [hsize]
    by_cases hskip : u32 (len + sg.length) ≤ offset
    · rw [if_pos hskip, List.map_cons, ih]
      rfl
    · rw [if_neg hskip, if_pos (by decide), List.map_cons, kept_eq_none rfl, List.map_map]
      rfl

/-! ## Exact syncs -/

theorem kept_linear_iff (hstart : q.2.start < 2 ^ 64) (hfits : q.2.start + q.2.length ≤ 2 ^ 64) :
    kept (some (linearPiece base offset size q)) = kept (some (Segment.piece offset size q)) ↔
      OnLine base offset size q := by
  have hlen : (linearPiece base offset size q).length = (Segment.piece offset size q).length := rfl
  rw [kept_inj hlen]
  refine imp_congr_right fun htouched => ?_
  have hpiece := piece_length offset size q
  unfold linearPiece Segment.piece
  simp only
  unfold u64
  omega

theorem filterMap_kept (segs : List Segment) :
    (segs.map some).filterMap kept = segs.filter fun s => 0 < s.length := by
  induction segs with
  | nil => rfl
  | cons s segs ih =>
    rw [List.map_cons]
    by_cases hs : 0 < s.length
    · rw [List.filterMap_cons_some (kept_eq_some hs), List.filter_cons_of_pos (by simpa using hs),
        ih]
    · rw [List.filterMap_cons_none (kept_eq_none (Nat.eq_zero_of_not_pos hs)),
        List.filter_cons_of_neg (by simpa using hs), ih]

theorem window_of_exact (sgt : MappedTable) {ranges : List (Option Segment)}
    (hexact : SyncsExactly sgt offset size ranges) :
    ranges.filterMap kept = Segment.window offset size sgt.segs := by
  have hwindow := Segment.pieces_window (a := offset) (n := size) 0 sgt.segs
  have hpieces := congrArg (List.filterMap id) hexact
  have hmap : (sgt.entries.map fun q => kept (some (Segment.piece offset size q))) =
      ((sgt.entries.map (Segment.piece offset size)).map some).map kept := by
    rw [List.map_map, List.map_map]
    rfl
  rw [hmap, List.filterMap_map, List.filterMap_map, Function.id_comp, filterMap_kept] at hpieces
  rw [hpieces]
  refine hwindow.trans ?_
  congr 1
  omega

variable {sgt : MappedTable}

theorem sync_kept (hmore : 0 < size) (hsize : size < 2 ^ 32)
    (hkeeps : ∀ q ∈ sgt.entries, KeepsBlock offset size q) :
    (rknpuDmaBufSync sgt offset size).map kept =
      sgt.entries.map fun q => kept (some (linearPiece sgt.sgDmaAddress offset size q)) := by
  have hwalk := @syncEntries_kept sgt.sgDmaAddress offset size 0 sgt.segs sgt.length_lt hsize
    (by omega) hkeeps
  rw [Nat.add_zero, u64_of_lt sgt.sgDmaAddress_lt, Nat.max_zero, Nat.add_sub_cancel_left] at hwalk
  unfold rknpuDmaBufSync
  rw [u32_of_lt hsize]
  exact hwalk

/-- **When a sync is exact.** -/
theorem exact_iff (hin : offset + size ≤ Segment.total sgt.segs) (hmore : 0 < size) :
    SyncsExactly sgt offset size (rknpuDmaBufSync sgt offset size) ↔
      size < 2 ^ 32 ∧
        ∀ q ∈ sgt.entries, KeepsBlock offset size q ∧ OnLine sgt.sgDmaAddress offset size q := by
  have hlinear : ∀ q ∈ sgt.entries,
      (kept (some (linearPiece sgt.sgDmaAddress offset size q)) =
        kept (some (Segment.piece offset size q)) ↔ OnLine sgt.sgDmaAddress offset size q) := by
    intro q hq
    have hseg : q.2 ∈ sgt.segs := by
      rw [← Segment.placed_segs 0 sgt.segs]
      exact List.mem_map_of_mem hq
    exact kept_linear_iff (sgt.start_lt _ hseg) (sgt.fits _ hseg)
  constructor
  · intro hexact
    have hsize : size < 2 ^ 32 := by
      have hle := @total_syncEntries sgt.segs sgt.sgDmaAddress 0 (u32 offset) (u32 size)
        (Nat.mod_lt _ (by decide))
      have htotal := congrArg Segment.total (window_of_exact sgt hexact)
      rw [Segment.total_window, Nat.min_eq_left (by omega)] at htotal
      have hlength : u32 size < 2 ^ 32 := Nat.mod_lt _ (by decide)
      calc size = Segment.total ((rknpuDmaBufSync sgt offset size).filterMap kept) := htotal.symm
        _ ≤ u32 size := hle
        _ < 2 ^ 32 := hlength
    have hlens : (rknpuDmaBufSync sgt offset size).map lengthOf =
        sgt.entries.map fun q => (Segment.piece offset size q).length := by
      have hlens := congrArg (List.map lengthOf) hexact
      rw [List.map_map, List.map_map] at hlens
      simpa only [Function.comp_def, lengthOf_kept, lengthOf_some] using hlens
    have hkeeps : ∀ q ∈ sgt.entries, KeepsBlock offset size q := by
      unfold rknpuDmaBufSync at hlens
      rw [u32_of_lt hsize, ← u64_of_lt sgt.sgDmaAddress_lt] at hlens
      refine @keeps_of_lengths offset size 0 sgt.segs sgt.sgDmaAddress sgt.length_lt hsize
        (by omega) (by rw [Nat.max_zero]) ?_
      rw [Nat.max_zero, Nat.add_sub_cancel_left]
      exact hlens
    refine ⟨hsize, fun q hq => ⟨hkeeps q hq, (hlinear q hq).mp ?_⟩⟩
    unfold SyncsExactly at hexact
    rw [sync_kept hmore hsize hkeeps] at hexact
    exact List.map_inj_left.mp hexact q hq
  · rintro ⟨hsize, hall⟩
    unfold SyncsExactly
    rw [sync_kept hmore hsize fun q hq => (hall q hq).1]
    exact List.map_congr_left fun q hq => (hlinear q hq).mpr (hall q hq).2

theorem exact_zero (sgt : MappedTable) (offset : ℕ) :
    SyncsExactly sgt offset 0 (rknpuDmaBufSync sgt offset 0) := by
  refine (syncEntries_zero ..).trans (map_placed_none 0 sgt.segs _ none fun q hq => ?_).symm
  refine kept_eq_none ?_
  rw [piece_length]
  omega

/-- Ranges of the same lengths are the same, entry by entry, when those that are not empty are. -/
theorem kept_congr {f g : ℕ × Segment → Segment} (qs : List (ℕ × Segment))
    (hlens : ∀ q, (f q).length = (g q).length)
    (h : (qs.map fun q => some (f q)).filterMap kept =
      (qs.map fun q => some (g q)).filterMap kept) :
    ∀ q ∈ qs, kept (some (f q)) = kept (some (g q)) := by
  induction qs with
  | nil => exact fun q hq => nomatch hq
  | cons q qs ih =>
    rw [List.map_cons, List.map_cons] at h
    refine List.forall_mem_cons.mpr ?_
    by_cases hg : 0 < (g q).length
    · have hf : 0 < (f q).length := hlens q ▸ hg
      rw [List.filterMap_cons_some (kept_eq_some hf),
        List.filterMap_cons_some (kept_eq_some hg)] at h
      obtain ⟨hhead, htail⟩ := List.cons.inj h
      exact ⟨by rw [hhead], ih htail⟩
    · have hg : (g q).length = 0 := Nat.eq_zero_of_not_pos hg
      have hf : (f q).length = 0 := (hlens q).trans hg
      rw [List.filterMap_cons_none (kept_eq_none hf),
        List.filterMap_cons_none (kept_eq_none hg)] at h
      exact ⟨by rw [kept_eq_none hf, kept_eq_none hg], ih h⟩

theorem keepsBlock_of_small (hsmall : Segment.total sgt.segs < 2 ^ 32)
    (hin : offset + size ≤ Segment.total sgt.segs) :
    ∀ q ∈ sgt.entries, KeepsBlock offset size q := by
  intro q hq
  have hplace := (Segment.le_of_mem_placed hq).2
  refine ⟨fun hle => ?_, fun _ => ?_⟩
  · rwa [u32_of_lt (by omega), u32_of_lt (by omega)]
  · omega

theorem exact_of_window (hsmall : Segment.total sgt.segs < 2 ^ 32)
    (hin : offset + size ≤ Segment.total sgt.segs)
    (hwindow : (rknpuDmaBufSync sgt offset size).filterMap kept =
      Segment.window offset size sgt.segs) :
    SyncsExactly sgt offset size (rknpuDmaBufSync sgt offset size) := by
  obtain rfl | hmore := Nat.eq_zero_or_pos size
  · exact exact_zero sgt offset
  · have hkept := sync_kept hmore (by omega) (keepsBlock_of_small hsmall hin)
    have hpieces : (sgt.entries.map fun q => some (Segment.piece offset size q)).filterMap kept =
        Segment.window offset size sgt.segs := by
      refine window_of_exact sgt ?_
      unfold SyncsExactly
      rw [List.map_map]
      rfl
    have hlinear : (sgt.entries.map fun q =>
          some (linearPiece sgt.sgDmaAddress offset size q)).filterMap kept =
        (rknpuDmaBufSync sgt offset size).filterMap kept := by
      have := congrArg (List.filterMap id) hkept
      rw [List.filterMap_map, List.filterMap_map] at this
      rw [List.filterMap_map]
      exact this.symm
    unfold SyncsExactly
    rw [hkept]
    exact List.map_congr_left (kept_congr sgt.entries (fun _ => rfl)
      (hlinear.trans (hwindow.trans hpieces.symm)))

/-- **MEM_SYNC of a dma-buf** syncs, entry by entry, the DMA addresses of the bytes that are asked
for, each once and in order, just when these bytes are mapped on one line with the first entry and
no 32-bit sum wraps around before their end. -/
theorem dma_buf_sync_exact (sgt : MappedTable) (args : SyncArgs)
    (hin : args.offset.toNat + args.size.toNat ≤ Segment.total sgt.segs) :
    (SyncsRequest sgt args ↔
      directions args.flags = [] ∨ args.size.toNat = 0 ∨ (args.size.toNat < 2 ^ 32 ∧
        ∀ q ∈ sgt.entries, KeepsBlock args.offset.toNat args.size.toNat q ∧
          OnLine sgt.sgDmaAddress args.offset.toNat args.size.toNat q)) ∧
    (SyncsRequest sgt args → ∀ call ∈ rknpuMemSyncIoctl sgt args,
      call.2.filterMap kept =
        Segment.window args.offset.toNat args.size.toNat sgt.segs ∧
      Segment.bytes (call.2.filterMap kept) =
        ((Segment.bytes sgt.segs).drop args.offset.toNat).take args.size.toNat) ∧
    (Segment.total sgt.segs < 2 ^ 32 →
      (∀ call ∈ rknpuMemSyncIoctl sgt args, call.2.filterMap kept =
        Segment.window args.offset.toNat args.size.toNat sgt.segs) → SyncsRequest sgt args) := by
  refine ⟨?_, fun hexact call hcall => ?_, fun hsmall hwindow call hcall => ?_⟩
  · unfold SyncsRequest rknpuMemSyncIoctl
    rw [List.forall_mem_map]
    simp only
    obtain hzero | hmore := Nat.eq_zero_or_pos args.size.toNat
    · rw [hzero]
      exact ⟨fun _ => Or.inr (Or.inl rfl), fun _ _ _ => exact_zero sgt _⟩
    · rw [exact_iff hin hmore]
      constructor
      · intro hall
        by_cases hnone : directions args.flags = []
        · exact Or.inl hnone
        · obtain ⟨dir, hdir⟩ := List.exists_mem_of_ne_nil _ hnone
          exact Or.inr (Or.inr (hall dir hdir))
      · rintro (hnone | hzero | hall) dir hdir
        · rw [hnone] at hdir
          cases hdir
        · omega
        · exact hall
  · have hwindow := window_of_exact sgt (hexact call hcall)
    refine ⟨hwindow, ?_⟩
    rw [hwindow]
    exact Segment.bytes_window ..
  · obtain ⟨dir, -, rfl⟩ := List.mem_map.mp hcall
    exact exact_of_window hsmall hin (hwindow _ hcall)

/-- Two pages that are mapped one behind the other. -/
def adjacentPages : MappedTable :=
  ⟨⟨[⟨0x1000, 4096⟩, ⟨0x2000, 4096⟩], by decide, by decide⟩, by decide, by decide⟩

theorem dma_buf_sync_exact_adjacent : SyncsRequest adjacentPages ⟨1, 4000, 200⟩ ∧
    ∀ call ∈ rknpuMemSyncIoctl adjacentPages ⟨1, 4000, 200⟩,
      call.2.filterMap kept = [⟨0x1fa0, 96⟩, ⟨0x2000, 104⟩] := by
  obtain ⟨hiff, hwindow, -⟩ := dma_buf_sync_exact adjacentPages ⟨1, 4000, 200⟩ (by decide)
  have hexact := hiff.mpr (Or.inr (Or.inr (by decide)))
  exact ⟨hexact, fun call hcall => (hwindow hexact call hcall).1.trans (by decide)⟩

/-- Two pages that are mapped apart. -/
def apartPages : MappedTable :=
  ⟨⟨[⟨0x1000, 4096⟩, ⟨0x5000, 4096⟩], by decide, by decide⟩, by decide, by decide⟩

/-- A request for bytes of the second of two pages mapped apart syncs what lies behind the first
one. -/
theorem dma_buf_sync_misses : 4096 + 64 ≤ Segment.total apartPages.segs ∧
    rknpuMemSyncIoctl apartPages ⟨1, 4096, 64⟩ = [(.toDevice, [none, some ⟨0x2000, 64⟩])] ∧
    Segment.window 4096 64 apartPages.segs = [⟨0x5000, 64⟩] ∧
    ¬ SyncsRequest apartPages ⟨1, 4096, 64⟩ := by decide

end RknpuDriver.Mem
