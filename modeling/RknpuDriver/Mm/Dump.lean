import RknpuDriver.Mm.FirstFit

/-! # The picture of a pool that `rknpu_mm_dump` prints

One character for each chunk, in segments of 32. The cursors `cur`, `rbot` and `rtop` walk along
the runs of set bits: `rbot` is where the run starts that has not been drawn yet, `rtop` its last
chunk found so far, `cur` the set bit after that. Three loops put characters into one line buffer,
which is printed as a segment as soon as it has 32 of them. The cursors are `int`s; a chunk has a
byte at least, so that a pool of at most `INT_MAX` bytes has no more chunks than these can count.

* `DumpState.drawn`: what has been drawn, printed or not.
* `dumpLoop_drawn`: each turn of the `while` loop draws a run and the gap behind it.
* `dump_faithful`: what is printed is the picture of the bitmap, in whole segments.
-/

namespace RknpuDriver.Mm
set_option autoImplicit false

abbrev intMax : ℕ := 2 ^ 31 - 1

/-- An `unsigned int` stored to an `int`. -/
def asInt (n : ℕ) : ℤ := if n < 2 ^ 31 then n else n - 2 ^ 32

/-- `find_next_bit(mm->bitmap, mm->total_chunks, offset)`: the first set bit at or after
`offset`, or `total_chunks` when there is none. It is the first clear bit of the complement. -/
def findNextBit (mm : RknpuMm) (offset : ℕ) : Option ℕ :=
  findNextZeroBit { mm with bitmap := fun k => !mm.bitmap k } offset

/-- `find_first_bit(mm->bitmap, mm->total_chunks)`. -/
def findFirstBit (mm : RknpuMm) : Option ℕ := findNextBit mm 0

theorem findNextBit_spec (mm : RknpuMm) {offset r : ℕ} (ho : offset ≤ mm.totalChunks)
    (h : findNextBit mm offset = some r) :
    offset ≤ r ∧ r ≤ mm.totalChunks ∧ (∀ k, offset ≤ k → k < r → mm.bitmap k = false) ∧
      (r < mm.totalChunks → mm.bitmap r = true) := by
  obtain ⟨hle, hend, hbefore, hat⟩ :=
    findNextZeroBit_spec { mm with bitmap := fun k => !mm.bitmap k } ho h
  refine ⟨hle, hend, fun k hk hkr => ?_, fun hr => ?_⟩
  · simpa using hbefore k hk hkr
  · simpa using hat hr

theorem findNextBit_isSome {mm : RknpuMm} (hbits : mm.totalChunks ≤ mm.bits) (offset : ℕ) :
    ∃ r, findNextBit mm offset = some r := by
  unfold findNextBit findNextZeroBit
  split_ifs
  · exact ⟨_, rfl⟩
  · apply scanZeroBit_isSome
    simp only [RknpuMm.bits] at *
    omega

/-! ## The line buffer -/

/-- A line that is printed; the arguments of its format. -/
inductive DumpLine where
  | bitmap (kb : ℤ)
  | segment (id : ℕ) (text : List Char)
  | sizes (total used free : ℤ)
  deriving DecidableEq, Repr

/-- `%03d`. -/
def padded (n : ℕ) : String :=
  String.ofList (List.replicate (3 - (toString n).length) '0') ++ toString n

/-- The text of a line. -/
def DumpLine.text : DumpLine → String
  | .bitmap kb =>
    "SRAM bitmap: \"*\" - used, \".\" - free (1bit = " ++ toString kb ++ "KB)\n"
  | .segment id text => "[" ++ padded id ++ "] [" ++ String.ofList text ++ "]\n"
  | .sizes total used free =>
    "SRAM total size: " ++ toString total ++ ", used: " ++ toString used ++ ", free: " ++
      toString free ++ "\n"

/-- A segment that was printed. -/
structure DumpSegment where
  id : ℕ
  text : List Char
  deriving DecidableEq, Repr

def DumpSegment.line (seg : DumpSegment) : DumpLine := .segment seg.id seg.text

/-- `buf` holds `ret` characters. -/
structure DumpState where
  buf : List Char
  segId : ℕ
  printed : List DumpSegment
  deriving DecidableEq, Repr

abbrev segChunks : ℕ := 32

/-- `scnprintf(buf + ret, size - ret, ...)`, with the NUL inside the 64 bytes of the buffer. -/
def scnprintf (buf text : List Char) : List Char := buf ++ text.take (64 - buf.length - 1)

def DumpState.print (s : DumpState) : DumpState :=
  ⟨[], s.segId + 1, s.printed ++ [⟨s.segId, s.buf⟩]⟩

/-- The body of the three inner loops. -/
def putChar (s : DumpState) (c : Char) : DumpState :=
  let s := { s with buf := scnprintf s.buf [c] }
  if segChunks ≤ s.buf.length then s.print else s

/-- An inner loop of `n` turns. -/
def putChars (c : Char) : ℕ → DumpState → DumpState
  | 0, s => s
  | n + 1, s => putChars c n (putChar s c)

/-! ## The dump -/

set_option linter.unusedVariables false in
/-- The `while (cur < mm->total_chunks)` loop. -/
def dumpLoop (mm : RknpuMm) (cur rbot : ℕ) (s : DumpState) : Option DumpState :=
  if hcur : cur < mm.totalChunks then
    let rtop := cur
    match hnext : findNextBit mm (cur + 1) with
    | none => none
    | some next =>
      if next < mm.totalChunks ∧ next ≤ rtop + 1 then dumpLoop mm next rbot s
      else
        let s := putChars '*' (rtop + 1 - rbot) s
        let s := putChars '.' (next - (rtop + 1)) s
        dumpLoop mm next next s
  else some s
  termination_by mm.totalChunks - cur
  decreasing_by
    all_goals
      have := (findNextBit_spec mm hcur hnext).1
      omega

/-- `rknpu_mm_dump`; `none` when the bitmap is left. -/
def rknpuMmDump (mm : Option RknpuMm) (sramSize : ℕ) : Option (List DumpLine) :=
  match mm with
  | none => some []
  | some mm =>
    match findFirstBit mm with
    | none => none
    | some cur =>
      (dumpLoop mm cur cur (putChars '.' cur ⟨[], 0, []⟩)).map fun s =>
        let s := if 0 < s.buf.length then s.print else s
        let freeSize := u32 (mm.freeChunks * mm.chunkSize)
        .bitmap (asInt (mm.chunkSize / 1024)) :: s.printed.map DumpSegment.line ++
          [.sizes (asInt sramSize) (asInt (u32Sub sramSize freeSize)) (asInt freeSize)]

/-! ## What is drawn -/

/-- The character of a chunk. -/
def glyph (mm : RknpuMm) (i : ℕ) : Char := if mm.bitmap i then '*' else '.'

/-- The first `n` chunks of the pool, drawn. -/
def picture (mm : RknpuMm) (n : ℕ) : List Char := (List.range n).map (glyph mm)

theorem picture_append {mm : RknpuMm} {c : Char} {a b : ℕ} (hab : a ≤ b)
    (hc : ∀ k, a ≤ k → k < b → glyph mm k = c) :
    picture mm a ++ List.replicate (b - a) c = picture mm b := by
  induction b, hab using Nat.le_induction with
  | base => simp
  | succ b hab ih =>
    have hrest := ih fun k hk hkb => hc k hk (by omega)
    have hlast := hc b hab (Nat.lt_succ_self b)
    rw [Nat.succ_sub hab, List.replicate_succ', ← List.append_assoc, hrest]
    unfold picture
    rw [List.range_succ, List.map_append, List.map_singleton, hlast]

/-- What has been drawn, printed or still in the buffer. -/
def DumpState.drawn (s : DumpState) : List Char :=
  (s.printed.map DumpSegment.text).flatten ++ s.buf

/-- The printed segments are numbered from zero on. -/
def DumpState.Numbered (s : DumpState) : Prop := s.printed.map DumpSegment.id = List.range s.segId

/-- The segments printed so far are numbered and whole, and the buffer has room. -/
structure DumpState.Ruled (s : DumpState) : Prop where
  room : s.buf.length < segChunks
  whole : ∀ seg ∈ s.printed, seg.text.length = segChunks
  numbered : s.Numbered

theorem ruled_start : (DumpState.mk [] 0 []).Ruled := ⟨by decide, by simp, rfl⟩

/-- Printing the buffer keeps what is drawn, and gives the segment the next number. -/
theorem drawn_print (s : DumpState) : s.print.drawn = s.drawn := by
  simp [DumpState.print, DumpState.drawn]

theorem numbered_print {s : DumpState} (hs : s.Numbered) : s.print.Numbered := by
  unfold DumpState.Numbered at hs ⊢
  simp only [DumpState.print, List.map_append, List.map_singleton, List.range_succ, hs]

theorem ruled_print {s : DumpState} (hwhole : ∀ seg ∈ s.printed, seg.text.length = segChunks)
    (hs : s.Numbered) (hbuf : s.buf.length = segChunks) : s.print.Ruled := by
  refine ⟨show 0 < segChunks by decide, fun seg hseg => ?_, numbered_print hs⟩
  obtain hseg | hseg := List.mem_append.mp hseg
  · exact hwhole seg hseg
  · rw [List.mem_singleton.mp hseg]
    exact hbuf

theorem scnprintf_room {buf : List Char} (h : buf.length < segChunks) (c : Char) :
    scnprintf buf [c] = buf ++ [c] := by
  have hcap : 64 - buf.length - 1 = (64 - buf.length - 2) + 1 := by
    simp only [segChunks] at h
    omega
  unfold scnprintf
  rw [hcap, List.take_succ_cons, List.take_nil]

/-- **One character**: it is drawn, and a full buffer is printed. -/
theorem putChar_ruled {s : DumpState} (hs : s.Ruled) (c : Char) :
    (putChar s c).Ruled ∧ (putChar s c).drawn = s.drawn ++ [c] := by
  let t : DumpState := { s with buf := s.buf ++ [c] }
  have hdrawn : t.drawn = s.drawn ++ [c] := (List.append_assoc _ _ _).symm
  have hlength : t.buf.length = s.buf.length + 1 := List.length_append
  have hroom := hs.room
  have hput : putChar s c = if segChunks ≤ t.buf.length then t.print else t := by
    unfold putChar
    rw [scnprintf_room hroom]
  rw [hput]
  split_ifs with hfull
  · exact ⟨ruled_print hs.whole hs.numbered (by omega), (drawn_print t).trans hdrawn⟩
  · exact ⟨⟨Nat.lt_of_not_le hfull, hs.whole, hs.numbered⟩, hdrawn⟩

theorem putChars_ruled {s : DumpState} (hs : s.Ruled) (c : Char) (n : ℕ) :
    (putChars c n s).Ruled ∧ (putChars c n s).drawn = s.drawn ++ List.replicate n c := by
  induction n generalizing s with
  | zero => exact ⟨hs, (List.append_nil _).symm⟩
  | succ n ih =>
    obtain ⟨hput, hdrawn⟩ := putChar_ruled hs c
    obtain ⟨hrest, hdrawn'⟩ := ih hput
    refine ⟨hrest, ?_⟩
    calc (putChars c n (putChar s c)).drawn
        = s.drawn ++ [c] ++ List.replicate n c := by rw [hdrawn', hdrawn]
      _ = s.drawn ++ List.replicate (n + 1) c := by
        rw [List.append_assoc, List.replicate_succ, List.singleton_append]

/-- Where the loop is: the chunks before `rbot` are drawn, those from there to `cur` are set. -/
structure Drawing (mm : RknpuMm) (cur rbot : ℕ) (s : DumpState) : Prop where
  inside : cur ≤ mm.totalChunks
  order : rbot ≤ cur
  drawn : s.drawn = picture mm rbot
  run : ∀ k, rbot ≤ k → k ≤ cur → k < mm.totalChunks → mm.bitmap k = true
  last : cur = mm.totalChunks → rbot = cur

/-- **The loop** draws the picture to its end. -/
theorem dumpLoop_drawn {mm : RknpuMm} {cur rbot : ℕ} {s t : DumpState} (hs : s.Ruled)
    (hd : Drawing mm cur rbot s) (h : dumpLoop mm cur rbot s = some t) :
    t.Ruled ∧ t.drawn = picture mm mm.totalChunks := by
  fun_induction dumpLoop mm cur rbot s with
  | case1 => cases h
  | case2 cur rbot s hcur rtop next hnext hcont ih =>
    obtain ⟨hle, hend, -, hset⟩ := findNextBit_spec mm hcur hnext
    have horder := hd.order
    refine ih hs ⟨hend, by omega, hd.drawn, fun k hk hknext hin => ?_, fun hlast => by omega⟩ h
    by_cases hknew : k = next
    · rw [hknew]
      exact hset hcont.1
    · exact hd.run k hk (by omega) hin
  | case3 cur rbot s hcur rtop next hnext hdone s₁ s₂ ih =>
    obtain ⟨hle, hend, hclear, hset⟩ := findNextBit_spec mm hcur hnext
    have horder := hd.order
    obtain ⟨hstars, hdrawn₁⟩ := putChars_ruled hs '*' (rtop + 1 - rbot)
    obtain ⟨hdots, hdrawn₂⟩ := putChars_ruled hstars '.' (next - (rtop + 1))
    refine ih hdots ⟨hend, Nat.le_refl _, ?_, fun k hk hknext hin => ?_, fun _ => rfl⟩ h
    · calc s₂.drawn
          = picture mm rbot ++ List.replicate (cur + 1 - rbot) '*' ++
              List.replicate (next - (cur + 1)) '.' := by rw [hdrawn₂, hdrawn₁, hd.drawn]
        _ = picture mm (cur + 1) ++ List.replicate (next - (cur + 1)) '.' := by
          rw [picture_append (by omega) fun k hk hkc => ?_]
          exact if_pos (hd.run k hk (by omega) (by omega))
        _ = picture mm next := by
          rw [picture_append hle fun k hk hkn => ?_]
          unfold glyph
          rw [hclear k hk hkn]
          rfl
    · obtain rfl : k = next := Nat.le_antisymm hknext hk
      exact hset hin
  | case4 cur rbot s hcur =>
    cases h
    have hcurEnd : cur = mm.totalChunks := Nat.le_antisymm hd.inside (Nat.le_of_not_lt hcur)
    refine ⟨hs, ?_⟩
    rw [hd.drawn, hd.last hcurEnd, hcurEnd]

theorem dumpLoop_isSome {mm : RknpuMm} (hbits : mm.totalChunks ≤ mm.bits) (cur rbot : ℕ)
    (s : DumpState) : ∃ t, dumpLoop mm cur rbot s = some t := by
  fun_induction dumpLoop mm cur rbot s with
  | case1 cur rbot s hcur hnext =>
    obtain ⟨next, hsome⟩ := findNextBit_isSome hbits (cur + 1)
    rw [hnext] at hsome
    cases hsome
  | case2 _ _ _ _ _ _ _ _ ih => exact ih
  | case3 _ _ _ _ _ _ _ _ _ _ ih => exact ih
  | case4 => exact ⟨_, rfl⟩

/-! ## The printed segments -/

/-- The segments show the bitmap of the pool. -/
structure Pictured (mm : RknpuMm) (segs : List DumpSegment) : Prop where
  drawn : (segs.map DumpSegment.text).flatten = picture mm mm.totalChunks
  numbered : segs.map DumpSegment.id = List.range segs.length
  whole : ∀ seg ∈ segs.dropLast, seg.text.length = segChunks
  last : ∃ seg, segs.getLast? = some seg ∧ 1 ≤ seg.text.length ∧ seg.text.length ≤ segChunks

theorem numbered_length {s : DumpState} (hs : s.Numbered) :
    s.printed.map DumpSegment.id = List.range s.printed.length := by
  have hcount := congrArg List.length hs
  rw [List.length_map, List.length_range] at hcount
  rw [hcount]
  exact hs

theorem pictured_of_ruled {mm : RknpuMm} {s : DumpState} (hpos : 1 ≤ mm.totalChunks)
    (hs : s.Ruled) (hdrawn : s.drawn = picture mm mm.totalChunks) :
    Pictured mm (if 0 < s.buf.length then s.print else s).printed := by
  split_ifs with hbuf
  · have hroom := hs.room
    have hall := (drawn_print s).trans hdrawn
    refine ⟨?_, numbered_length (numbered_print hs.numbered), ?_, ⟨s.segId, s.buf⟩, ?_, hbuf,
      Nat.le_of_lt hroom⟩
    · simpa [DumpState.drawn, DumpState.print] using hall
    · intro seg hseg
      rw [DumpState.print, List.dropLast_concat] at hseg
      exact hs.whole seg hseg
    · rw [DumpState.print, List.getLast?_concat]
  · have hempty : s.buf = [] := List.length_eq_zero_iff.mp (Nat.eq_zero_of_not_pos hbuf)
    have hflat : (s.printed.map DumpSegment.text).flatten = picture mm mm.totalChunks := by
      rw [← hdrawn, DumpState.drawn, hempty, List.append_nil]
    refine ⟨hflat, numbered_length hs.numbered,
      fun seg hseg => hs.whole seg (List.mem_of_mem_dropLast hseg), ?_⟩
    cases hlast : s.printed.getLast? with
    | none =>
      rw [List.getLast?_eq_none_iff.mp hlast] at hflat
      have hlength := congrArg List.length hflat
      simp only [picture, List.map_nil, List.flatten_nil, List.length_nil, List.length_map,
        List.length_range] at hlength
      omega
    | some seg =>
      have hwhole := hs.whole seg (List.mem_of_getLast? hlast)
      exact ⟨seg, rfl, by rw [hwhole]; decide, Nat.le_of_eq hwhole⟩

/-! ## The sizes -/

/-- The chunks whose bit is set, and those whose bit is clear. -/
def RknpuMm.setChunks (mm : RknpuMm) : Finset ℕ :=
  (Finset.range mm.totalChunks).filter fun i => mm.bitmap i = true

def RknpuMm.clearChunks (mm : RknpuMm) : Finset ℕ :=
  (Finset.range mm.totalChunks).filter fun i => ¬mm.bitmap i = true

theorem card_set_add_clear (mm : RknpuMm) :
    mm.setChunks.card + mm.clearChunks.card = mm.totalChunks := by
  unfold RknpuMm.setChunks RknpuMm.clearChunks
  rw [Finset.card_filter_add_card_filter_not, Finset.card_range]

theorem Consistent.freeChunks_eq {s : PoolState} (hs : Consistent s) :
    s.mm.freeChunks = s.mm.clearChunks.card := by
  have hused := hs.owned.sum_card fun obj hobj i hi =>
    lt_of_le_of_lt (mem_chunks.mp hi).2 (hs.inside obj hobj)
  have hcount := hs.counted
  have hcards := card_set_add_clear s.mm
  unfold RknpuMm.setChunks at hcards
  omega

theorem asInt_of_le {n : ℕ} (h : n ≤ intMax) : asInt n = n := by
  unfold asInt
  exact if_pos (by simp only [intMax] at h; omega)

theorem dump_sizes {s : PoolState} (hs : Consistent s)
    (hmax : s.mm.totalChunks * s.mm.chunkSize ≤ intMax) :
    let total := s.mm.totalChunks * s.mm.chunkSize
    let freeSize := u32 (s.mm.freeChunks * s.mm.chunkSize)
    asInt total = total ∧ asInt (u32Sub total freeSize) = s.mm.chunkSize * s.mm.setChunks.card ∧
      asInt freeSize = s.mm.chunkSize * s.mm.clearChunks.card := by
  have hcards := card_set_add_clear s.mm
  have htotal : s.mm.totalChunks * s.mm.chunkSize =
      s.mm.setChunks.card * s.mm.chunkSize + s.mm.clearChunks.card * s.mm.chunkSize := by
    rw [← hcards, Nat.add_mul]
  have hlt : intMax < 2 ^ 32 := by decide
  have hfree : u32 (s.mm.freeChunks * s.mm.chunkSize) =
      s.mm.clearChunks.card * s.mm.chunkSize := by
    rw [hs.freeChunks_eq]
    exact u32_of_lt (by omega)
  have hused : u32Sub (s.mm.totalChunks * s.mm.chunkSize)
      (s.mm.clearChunks.card * s.mm.chunkSize) = s.mm.setChunks.card * s.mm.chunkSize := by
    rw [u32Sub_of_le (by omega) (by omega)]
    omega
  dsimp only
  rw [hfree, hused]
  refine ⟨asInt_of_le hmax, ?_, ?_⟩
  · rw [asInt_of_le (by omega), Int.natCast_mul, mul_comm]
  · rw [asInt_of_le (by omega), Int.natCast_mul, mul_comm]

/-- **The dump is faithful**: between the two lines about sizes it prints the picture of the
bitmap, in numbered segments of 32 chunks and a rest; and for a consistent pool that is all of
the SRAM the sizes are those of the set and of the clear bits. -/
theorem dump_faithful {mm : RknpuMm} (hpos : 1 ≤ mm.totalChunks)
    (hmax : mm.totalChunks * mm.chunkSize ≤ intMax) (hbits : mm.totalChunks ≤ mm.bits)
    (sramSize : ℕ) :
    ∃ (segs : List DumpSegment) (total used free : ℤ),
      rknpuMmDump (some mm) sramSize = some
        (.bitmap (asInt (mm.chunkSize / 1024)) :: segs.map DumpSegment.line ++
          [.sizes total used free]) ∧
      Pictured mm segs ∧
      ∀ live, Consistent ⟨mm, live⟩ → sramSize = mm.totalChunks * mm.chunkSize →
        total = sramSize ∧ used = mm.chunkSize * mm.setChunks.card ∧
          free = mm.chunkSize * mm.clearChunks.card := by
  obtain ⟨cur, hfirst⟩ := findNextBit_isSome hbits 0
  obtain ⟨hle, hend, hclear, hset⟩ := findNextBit_spec mm (Nat.zero_le _) hfirst
  obtain ⟨hdots, hdrawn⟩ := putChars_ruled ruled_start '.' cur
  obtain ⟨s, hs⟩ := dumpLoop_isSome hbits cur cur (putChars '.' cur ⟨[], 0, []⟩)
  have hstart : Drawing mm cur cur (putChars '.' cur ⟨[], 0, []⟩) := by
    refine ⟨hend, Nat.le_refl _, ?_, fun k hk hkc hin => ?_, fun _ => rfl⟩
    · rw [hdrawn, ← picture_append (Nat.zero_le cur) fun k hk hkc => ?_]
      · rfl
      · unfold glyph
        rw [hclear k hk hkc]
        rfl
    · obtain rfl : k = cur := Nat.le_antisymm hkc hk
      exact hset hin
  obtain ⟨hruled, hpicture⟩ := dumpLoop_drawn hdots hstart hs
  refine ⟨(if 0 < s.buf.length then s.print else s).printed, asInt sramSize,
    asInt (u32Sub sramSize (u32 (mm.freeChunks * mm.chunkSize))),
    asInt (u32 (mm.freeChunks * mm.chunkSize)), ?_, pictured_of_ruled hpos hruled hpicture, ?_⟩
  · simp only [rknpuMmDump, findFirstBit, hfirst, hs, Option.map_some]
  · rintro live hconsistent rfl
    exact dump_sizes hconsistent hmax

/-- A pool of three pages, the middle one given away. -/
def middleUsed : RknpuMm := ⟨fun i => decide (i = 1), 1, 4096, 3, 2⟩

theorem dump_faithful_middle : ∃ (segs : List DumpSegment) (total used free : ℤ),
    rknpuMmDump (some middleUsed) 12288 = some
      (.bitmap 4 :: segs.map DumpSegment.line ++ [.sizes total used free]) ∧
    Pictured middleUsed segs ∧ used = 4096 ∧ free = 8192 := by
  obtain ⟨segs, total, used, free, hdump, hpicture, hsizes⟩ :=
    @dump_faithful middleUsed (by decide) (by decide) (by decide) 12288
  have hconsistent : Consistent ⟨middleUsed, [⟨1, 1⟩]⟩ := by
    refine ⟨by simp, by simp [middleUsed], ⟨List.pairwise_singleton _ _, fun i => ?_⟩,
      by decide, by decide⟩
    simp only [middleUsed, decide_eq_true_eq, List.mem_singleton, exists_eq_left, mem_chunks]
    omega
  obtain ⟨-, hused, hfree⟩ := hsizes [⟨1, 1⟩] hconsistent (by decide)
  exact ⟨segs, total, used, free, hdump, hpicture, hused.trans (by decide),
    hfree.trans (by decide)⟩

example : rknpuMmDump (some middleUsed) 12288 =
    some [.bitmap 4, .segment 0 ['.', '*', '.'], .sizes 12288 4096 8192] := by decide +kernel

example : (DumpLine.segment 7 ['*', '.']).text = "[007] [*.]\n" := by decide +kernel

end RknpuDriver.Mm
