import RknpuDriver.Buffer.Windows

/-! # No two objects share the SRAM

The runs of `callSystem` in which no destruction gets to `rknpu_mm_free` keep `WindowsOk`, and so
nothing of the SRAM is shown by an object that does not own it. A destruction that gives its
chunks back still shows them until it has unmapped its cache part.

* `windowsOk_reachable`: the invariant, in every state of these runs.
* `sram_unshared`: up to the first of these steps, no two objects' IOVA ranges show the same chunk,
  and none shows a chunk that is free or another's; each of them leaves a free chunk that is shown.
-/

namespace RknpuDriver.Buffer
open RknpuDriver.Lib RknpuDriver.Mm
set_option autoImplicit false

/-! ## Runs -/

namespace WindowsOk
variable {dev : RknpuDevice} {m : Shared} {c : BufCall}

theorem good_of_fresh (hzero : c.obj.sramSize = 0) (hunheld : c.held = false)
    (hnbuf : 0 < c.obj.nbufSize → c.cacheType = .nbuf)
    (hcached : c.pc.cached = true → c.cacheType = .nbuf) (hplace : c.PlaceOk dev) :
    c.Good dev := by
  refine ⟨fun hpos => absurd hzero (Nat.ne_of_gt hpos), hnbuf, fun hpc htype => ?_,
    fun hheld => ?_, fun w hw => ?_, hplace⟩
  · cases htype.symm.trans (hcached hpc)
  · exact absurd (hunheld.symm.trans hheld) (by decide)
  · cases hw.symm.trans (BufCall.window_of_zero hzero)

theorem fallback_good (hplain : c.Plain) : c.fallback.Good dev := by
  have hnone : ¬ 0 < c.obj.nbufSize := Nat.not_lt_of_le (Nat.le_of_eq hplain.2.1)
  unfold BufCall.fallback
  by_cases hsize : 0 < c.obj.size
  · rw [if_pos hsize]
    exact good_of_fresh hplain.1 hplain.2.2.2 (fun hpos => absurd hpos hnone)
      (fun hpc => by cases hpc) hplain
  · rw [if_neg hsize]
    exact good_of_fresh hplain.1 hplain.2.2.2 (fun hpos => absurd hpos hnone)
      (fun hpc => by cases hpc) fun hpos => absurd hpos hnone

theorem start_good {args : CreateArgs} {kzallocOk : Bool} {initRet domainRet : ℤ}
    (h : BufCall.start dev args kzallocOk initRet domainRet = some c) :
    c.Good dev ∧ c.obj.sramSize = 0 ∧ c.held = false := by
  unfold BufCall.start at h
  by_cases hargs : args.size = 0
  · rw [if_pos hargs] at h
    cases h
  rw [if_neg hargs] at h
  cases hinit : rknpuGemInit kzallocOk initRet (pageAlign args.size.toNat) with
  | error e =>
    rw [hinit] at h
    cases h
  | ok fresh =>
    simp only [hinit] at h
    obtain ⟨hsize, -, hsram, hnbuf, hdma, hsgt, -⟩ := rknpuGemInit_ok hinit
    by_cases hdomain : domainRet ≠ 0
    · rw [if_pos hdomain] at h
      cases h
    rw [if_neg hdomain] at h
    split_ifs at h with hbranch hbranch hpart
    · cases h
      refine ⟨good_of_fresh hsram rfl (fun hpos => absurd hnbuf (Nat.ne_of_gt hpos))
        (fun hpc => by cases hpc) ⟨⟨hsram, hnbuf, hdma, rfl⟩, ⟨hbranch.1, rfl, hsgt, hnbuf⟩, ?_⟩,
        hsram, rfl⟩
      show fresh.size % pageSize = 0
      rw [hsize]
      exact pageAlign_mod _
    · cases h
      exact ⟨good_of_fresh hsram rfl (fun _ => rfl) (fun _ => rfl)
        ⟨rfl, fun _ => nbufPart_le_nbuf ..⟩, hsram, rfl⟩
    · cases h
      exact ⟨fallback_good ⟨hsram, hnbuf, hdma, rfl⟩, hsram, rfl⟩
    · cases h
      exact ⟨fallback_good ⟨hsram, hnbuf, hdma, rfl⟩, hsram, rfl⟩

theorem start {calls : List BufCall} (h : WindowsOk dev m calls) (hgood : c.Good dev)
    (hzero : c.obj.sramSize = 0) (hunheld : c.held = false) :
    WindowsOk dev m (calls ++ [c]) := by
  refine WindowsOk.perm ?_ (List.perm_append_singleton c calls).symm
  refine ⟨fun mm hmm => ?_, fun tr htr => ?_, ?_, fun d hd hheld => ?_, fun d hd => ?_⟩
  · exact ((h.pool mm hmm).push_plain hzero).perm (List.perm_append_singleton _ _)
  · rw [List.filterMap_cons_none (BufCall.window_of_zero hzero)]
    exact h.shows tr htr
  · refine List.pairwise_cons.mpr ⟨fun d _ hheld => ?_, h.apart⟩
    exact absurd (hunheld.symm.trans hheld) (by decide)
  · obtain rfl | hd := List.mem_cons.mp hd
    · exact absurd (hunheld.symm.trans hheld) (by decide)
    · exact h.attached d hd hheld
  · obtain rfl | hd := List.mem_cons.mp hd
    · exact hgood
    · exact h.good d hd

end WindowsOk

theorem perm_putCall {calls : List BufCall} {k : ℕ} {c : BufCall} (hk : calls[k]? = some c)
    (next : Option BufCall) :
    (next.toList ++ calls.eraseIdx k).Perm (putCall calls k next) := by
  cases next with
  | none => exact List.Perm.refl _
  | some d =>
    obtain ⟨hlt, rfl⟩ := List.getElem?_eq_some_iff.mp hk
    have hset := perm_first (List.getElem?_set_self hlt : (calls.set k d)[k]? = some d)
    rw [List.eraseIdx_set_eq] at hset
    exact hset.symm

/-- No destruction is at `rknpu_mm_free`, or the step is another one's. -/
def KeepsChunks (s : CallState) : CallLabel → Prop
  | .exec k _ => (s.calls[k]?).map BufCall.pc ≠ some .destroyMmFree
  | _ => True

instance (s : CallState) : (label : CallLabel) → Decidable (KeepsChunks s label)
  | .create .. => .isTrue trivial
  | .destroy .. => .isTrue trivial
  | .exec k _ => inferInstanceAs (Decidable ((s.calls[k]?).map BufCall.pc ≠ some .destroyMmFree))

theorem windowsOk_step {dev : RknpuDevice} (hdev : dev.WellPlaced) {s t : CallState}
    {label : CallLabel} (hs : WindowsOk dev s.shared s.calls) (hkeeps : KeepsChunks s label)
    (h : callStep dev s label = some t) : WindowsOk dev t.shared t.calls := by
  cases label with
  | create args kzallocOk initRet domainRet =>
    simp only [callStep] at h
    cases hstart : BufCall.start dev args kzallocOk initRet domainRet with
    | none =>
      rw [hstart] at h
      cases h
      exact hs
    | some c =>
      rw [hstart] at h
      cases h
      obtain ⟨hgood, hzero, hunheld⟩ := WindowsOk.start_good hstart
      exact hs.start hgood hzero hunheld
  | destroy k got =>
    simp only [callStep] at h
    cases hk : s.calls[k]? with
    | none =>
      rw [hk] at h
      cases h
    | some c =>
      simp only [hk] at h
      by_cases hlive : c.pc = .live
      · rw [if_pos hlive] at h
        cases h
        exact ((hs.perm (perm_first hk)).destroy hlive got).perm (perm_putCall hk _)
      · rw [if_neg hlive] at h
        cases h
  | exec k out =>
    simp only [callStep] at h
    cases hk : s.calls[k]? with
    | none =>
      rw [hk] at h
      cases h
    | some c =>
      simp only [hk] at h
      obtain ⟨⟨m, next⟩, hexec, hret⟩ := Option.map_eq_some_iff.mp h
      cases hret
      have hpc : c.pc ≠ .destroyMmFree := by
        intro hpc
        apply hkeeps
        rw [hk, Option.map_some, hpc]
      exact ((hs.perm (perm_first hk)).exec hdev hpc hexec).perm (perm_putCall hk _)

theorem windowsOk_reachable {dev : RknpuDevice} (hdev : dev.WellPlaced) {s : CallState}
    (hs : ((callSystem dev).guarded KeepsChunks).Reachable s) :
    WindowsOk dev s.shared s.calls := by
  refine hs.invariant (fun s => WindowsOk dev s.shared s.calls) ?_ ?_
  · rintro ⟨⟨mm, domain⟩, calls⟩ ⟨dev₀, res, mmOk, bitmapOk, -, hprobe, hdomain, rfl⟩
    refine ⟨?_, ?_, List.Pairwise.nil, by simp, by simp⟩
    · rintro mm' rfl
      exact inStep_of_probe hprobe
    · rintro tr rfl
      rw [hdomain tr rfl]
      exact Translation.Shows.nil
  · intro s label t hs ht
    obtain ⟨hkeeps, hstep⟩ := System.guarded_step.mp ht
    exact windowsOk_step hdev hs hkeeps hstep

/-! ## What the IOVA ranges show -/

namespace CallState

/-- The IOVA range that the object of call `k` holds shows a byte of chunk `i`. -/
def Maps (dev : RknpuDevice) (s : CallState) (k i : ℕ) : Prop :=
  ∃ mm tr c x p, s.shared.sramMm = some mm ∧ s.shared.domain = some tr ∧
    s.calls[k]? = some c ∧ c.held = true ∧ c.obj.iovaStart ≤ x ∧
    x < c.obj.iovaStart + c.obj.iovaSize ∧ tr x = some p ∧
    dev.sramStart + i * mm.chunkSize ≤ p ∧ p < dev.sramStart + (i + 1) * mm.chunkSize

/-- Chunk `i` lies in the range behind the `sram_obj` of the object of call `k`. -/
def Owns (s : CallState) (k i : ℕ) : Prop :=
  ∃ c r, s.calls[k]? = some c ∧ c.obj.sramRange = some r ∧ r.rangeStart ≤ i ∧ i ≤ r.rangeEnd

/-- No chunk is shown by two objects, and none that is free or owned is shown by another one. -/
def Unshared (dev : RknpuDevice) (s : CallState) : Prop :=
  ∀ mm i, s.shared.sramMm = some mm → i < mm.totalChunks →
    (∀ j k, s.Maps dev j i → s.Maps dev k i → j = k) ∧
    (mm.bitmap i = false → ∀ k, ¬ s.Maps dev k i) ∧
    (∀ j k, s.Owns j i → s.Maps dev k i → j = k)

end CallState

namespace WindowsOk
variable {dev : RknpuDevice} {s t : CallState} {mm : RknpuMm} {i j k : ℕ}

theorem owns_of_maps (h : WindowsOk dev s.shared s.calls) (hmm : s.shared.sramMm = some mm)
    (hi : i < mm.totalChunks) (hmaps : s.Maps dev k i) : s.Owns k i := by
  obtain ⟨mm', tr, c, x, p, hmm', htr, hk, hheld, hlow, hhigh, hx, hpi, hpi'⟩ := hmaps
  cases hmm.symm.trans hmm'
  have hpool := h.pool mm hmm
  have hin : dev.InSram p := by
    have hend : (i + 1) * pageSize ≤ mm.totalChunks * pageSize := Nat.mul_le_mul_right _ hi
    have hfits := hpool.fits
    rw [hpool.chunk] at hpi hpi'
    exact ⟨by omega, by omega⟩
  have hfirst := h.perm (perm_first hk)
  obtain ⟨w, hw, hshown⟩ := (hfirst.shows tr htr x p hin).mp hx
  obtain ⟨d, hd, hwd⟩ := List.mem_filterMap.mp hw
  obtain rfl | hd := List.mem_cons.mp hd
  · obtain ⟨r, hr, -, rfl⟩ := BufCall.exists_of_window hwd
    have hlength := hpool.length_eq (List.mem_map_of_mem (List.mem_of_getElem? hk)) hr
    have hne := hpool.consistent.nonempty r
      (InStep.mem_ranges (List.mem_map_of_mem (List.mem_of_getElem? hk)) hr)
    obtain ⟨hwlow, hwhigh, hp⟩ := hshown
    rw [hpool.chunk] at hlength hpi hpi'
    simp only [pageSize] at hlength hpi hpi' hwlow hwhigh hp
    exact ⟨d, r, hk, hr, by omega, by omega⟩
  · have hclear := hfirst.clear hheld hlow (show x + 1 ≤ _ by omega) w
      (List.mem_filterMap.mpr ⟨d, hd, hwd⟩)
    obtain hout | hout := hclear.outside hshown
    · omega
    · omega

theorem owner_unique (h : WindowsOk dev s.shared s.calls) (hmm : s.shared.sramMm = some mm)
    (hj : s.Owns j i) (hk : s.Owns k i) : j = k := by
  obtain ⟨c, r, hc, hr, hir⟩ := hj
  obtain ⟨c', r', hc', hr', hir'⟩ := hk
  have howned := (h.pool mm hmm).consistent.owned
  refine howned.index_eq (a := c.obj) (b := c'.obj) ?_ ?_ hr hr' (mem_chunks.mpr hir)
    (mem_chunks.mpr hir')
  · rw [List.getElem?_map, hc, Option.map_some]
  · rw [List.getElem?_map, hc', Option.map_some]

theorem used_of_owns (h : WindowsOk dev s.shared s.calls) (hmm : s.shared.sramMm = some mm)
    (hk : s.Owns k i) : mm.bitmap i = true := by
  obtain ⟨c, r, hc, hr, hir⟩ := hk
  refine ((h.pool mm hmm).consistent.owned.used_iff i).mpr ⟨r, ?_, mem_chunks.mpr hir⟩
  exact InStep.mem_ranges (List.mem_map_of_mem (List.mem_of_getElem? hc)) hr

theorem unshared (h : WindowsOk dev s.shared s.calls) : s.Unshared dev := by
  intro mm i hmm hi
  have howns : ∀ k, s.Maps dev k i → s.Owns k i := fun k => h.owns_of_maps hmm hi
  refine ⟨fun j k hj hk => ?_, fun hfree k hk => ?_, fun j k hj hk => ?_⟩
  · exact h.owner_unique hmm (howns j hj) (howns k hk)
  · have hused := h.used_of_owns hmm (howns k hk)
    exact absurd (hused.symm.trans hfree) (by decide)
  · exact h.owner_unique hmm hj (howns k hk)

theorem shared_of_free (h : WindowsOk dev s.shared s.calls) {c : BufCall} {out : StepOutcome}
    (hk : s.calls[k]? = some c) (hpc : c.pc = .destroyMmFree)
    (hstep : callStep dev s (.exec k out) = some t) : ¬ t.Unshared dev := by
  have hgood := h.good c (List.mem_of_getElem? hk)
  have hmem : c.obj ∈ s.calls.map BufCall.obj := List.mem_map_of_mem (List.mem_of_getElem? hk)
  have htype : c.cacheType = .sram := hgood.place_at hpc
  have hpos := hgood.reserved (by rw [hpc]; rfl) htype
  simp only [callStep, hk, BufCall.exec, hpc] at hstep
  obtain ⟨⟨m, next⟩, hexec, hret⟩ := Option.map_eq_some_iff.mp hstep
  cases hret
  simp only [BufCall.execMmFree, Option.bind_eq_bind, Option.bind_eq_some_iff] at hexec
  obtain ⟨mm, hmm, mm', hfree, hret⟩ := hexec
  cases hret
  have hpool := h.pool mm hmm
  obtain ⟨r, hr, -⟩ := hpool.sized c.obj hmem hpos
  have hne := hpool.consistent.nonempty r (InStep.mem_ranges hmem hr)
  have hinside : r.rangeEnd < mm.totalChunks :=
    hpool.consistent.inside r (InStep.mem_ranges hmem hr)
  have hwindow : c.window dev = some ⟨c.obj.iovaStart,
      dev.sramStart + r.rangeStart * pageSize, c.obj.sramSize⟩ :=
    BufCall.window_of_range (by rw [hpc]; rfl) hr
  have hheld := (hgood.backed _ hwindow).1
  have hfits := hgood.fits hheld
  rw [hgood.cacheSize_sram hpos] at hfits
  obtain ⟨tr, htr⟩ := Option.ne_none_iff_exists'.mp
    (h.attached c (List.mem_of_getElem? hk) hheld)
  unfold freeSram at hfree
  rw [(held_of_sramRange hr).2] at hfree
  have hmm' := rknpuMmFree_some hfree
  intro hunshared
  have hclear : mm'.bitmap r.rangeStart = false := by
    rw [hmm']
    simp [hne]
  have hlt : r.rangeStart < mm'.totalChunks := by
    rw [hmm']
    show r.rangeStart < mm.totalChunks
    omega
  have hchunk : mm'.chunkSize = pageSize := by
    rw [hmm']
    exact hpool.chunk
  have hin : dev.InSram (dev.sramStart + r.rangeStart * pageSize) := by
    have hend : (r.rangeEnd + 1) * pageSize ≤ mm.totalChunks * pageSize :=
      Nat.mul_le_mul_right _ hinside
    have hfits := hpool.fits
    simp only [pageSize] at hend hfits ⊢
    exact ⟨by omega, by omega⟩
  have hshown : tr c.obj.iovaStart = some (dev.sramStart + r.rangeStart * pageSize) := by
    refine (h.shows tr htr _ _ hin).mpr ⟨_, List.mem_filterMap.mpr
      ⟨c, List.mem_of_getElem? hk, hwindow⟩, Nat.le_refl _, by simp only; omega, ?_⟩
    simp
  have hget := (List.getElem?_eq_some_iff.mp hk).1
  refine (hunshared mm' r.rangeStart rfl hlt).2.1 hclear k ⟨mm', tr, _, c.obj.iovaStart, _, rfl,
    htr, List.getElem?_set_self hget, hheld, Nat.le_refl _, ?_, hshown, ?_, ?_⟩
  · show c.obj.iovaStart < c.obj.iovaStart + c.obj.iovaSize
    omega
  · rw [hchunk]
  · rw [hchunk, Nat.succ_mul]
    simp only [pageSize]
    omega

end WindowsOk

/-- **Who sees the SRAM.** In every run in which no destruction gets to `rknpu_mm_free`, whatever
the order of the steps, no chunk is shown by the IOVA ranges of two objects, and none that is free
or owned by an object by another one's. After every step that takes a destruction past
`rknpu_mm_free` there is a free chunk that the object's IOVA range still shows. -/
theorem sram_unshared {dev : RknpuDevice} (hdev : dev.WellPlaced) :
    (∀ s, ((callSystem dev).guarded KeepsChunks).Reachable s → s.Unshared dev) ∧
    (∀ s t label, ((callSystem dev).guarded KeepsChunks).Reachable s → ¬ KeepsChunks s label →
      callStep dev s label = some t → ¬ t.Unshared dev) := by
  refine ⟨fun s hs => (windowsOk_reachable hdev hs).unshared, ?_⟩
  intro s t label hs hkeeps hstep
  have h := windowsOk_reachable hdev hs
  cases label with
  | create args kzallocOk initRet domainRet => exact absurd trivial hkeeps
  | destroy k got => exact absurd trivial hkeeps
  | exec k out =>
    have hpc : (s.calls[k]?).map BufCall.pc = some .destroyMmFree := Decidable.not_not.mp hkeeps
    obtain ⟨c, hk, hc⟩ := Option.map_eq_some_iff.mp hpc
    exact h.shared_of_free hk hc hstep

/-- Every access succeeds, with the IOVA range and the pages given. -/
def stepOk (iova page : ℕ) : StepOutcome where
  objOk := true
  iova := iova
  ret := 0
  frames := .ok fun i => page + i
  sgRet := 0
  maxPages := 1
  alloc := (noFailure iova page).alloc

/-- The same, but for what `iommu_map` returns. -/
def stepFails : StepOutcome := { stepOk 0x30000000 300 with ret := -12 }

theorem wellPlaced_threePages : threePages.WellPlaced := by
  refine ⟨by decide, ?_, fun i sgl hsgl => by cases hsgl⟩
  rintro p - hhigh ⟨hlow, -⟩
  have hlow' : 0x3ff80000 ≤ p := hlow
  have hhigh' : p < 0x3fe80000 + 0x100000 := hhigh
  omega

/-- Two objects share the SRAM, and a third one is given up half-way. -/
theorem sram_unshared_three_pages : ∃ s,
    ((callSystem threePages).guarded KeepsChunks).Reachable s ∧
    s.calls.map (fun c => (c.pc, c.obj.sramObj)) =
      [(.live, .held ⟨0, 0⟩), (.live, .held ⟨1, 1⟩)] ∧ s.Unshared threePages := by
  have hinit : ((callSystem threePages).guarded KeepsChunks).init
      ⟨⟨some threeChunks, some fun _ => none⟩, []⟩ :=
    ⟨blankDevice, some (0x3ff80000, 0x3000), true, true, rfl, rfl,
      fun tr htr => (Option.some.inj htr).symm, rfl⟩
  obtain ⟨s, hs, hp⟩ := System.Reachable.of_run_any
    (S := (callSystem threePages).guarded KeepsChunks)
    (p := fun s => decide (s.calls.map (fun c => (c.pc, c.obj.sramObj)) =
      [(.live, .held ⟨0, 0⟩), (.live, .held ⟨1, 1⟩)]))
    (l := [.create (sramArgs 4096) true 0 0, .create (sramArgs 4096) true 0 0,
      .create (sramArgs 4096) true 0 0] ++
      List.replicate 6 (.exec 0 (stepOk 0x10000000 100)) ++
      List.replicate 6 (.exec 1 (stepOk 0x20000000 200)) ++
      List.replicate 3 (.exec 2 (stepOk 0x30000000 300)) ++
      List.replicate 3 (.exec 2 stepFails)) hinit (by decide +kernel)
  exact ⟨s, hs, of_decide_eq_true hp, (sram_unshared wellPlaced_threePages).1 s hs⟩

/-- The first object is destroyed as far as `rknpu_mm_free`; its chunk goes to the second one,
and its IOVA range still shows it. -/
theorem sram_shared_three_pages : ∃ s, (callSystem threePages).Reachable s ∧
    s.Maps threePages 0 0 ∧ s.Maps threePages 1 0 ∧ s.Owns 1 0 ∧ ¬ s.Unshared threePages := by
  have hinit : (callSystem threePages).init ⟨⟨some threeChunks, some fun _ => none⟩, []⟩ :=
    ⟨blankDevice, some (0x3ff80000, 0x3000), true, true, rfl, rfl,
      fun tr htr => (Option.some.inj htr).symm, rfl⟩
  obtain ⟨s, hs, hp⟩ := System.Reachable.of_run_any (S := callSystem threePages)
    (p := fun s => decide (
      (s.calls[0]?).map (fun c : BufCall => (c.held, c.obj.iovaStart, c.obj.iovaSize)) =
        some (true, 0x10000000, 0x2000) ∧
      (s.calls[1]?).map (fun c : BufCall => (c.held, c.obj.iovaStart, c.obj.iovaSize)) =
        some (true, 0x20000000, 0x2000) ∧
      (s.calls[1]?).bind (fun c : BufCall => c.obj.sramRange) = some ⟨0, 0⟩ ∧
      s.shared.sramMm.map (fun mm => (mm.chunkSize, mm.totalChunks)) = some (4096, 3) ∧
      s.shared.domain.map (fun tr => (tr 0x10000000, tr 0x20000000)) =
        some (some 0x3ff80000, some 0x3ff80000)))
    (l := [.create (sramArgs 4096) true 0 0] ++
      List.replicate 6 (.exec 0 (stepOk 0x10000000 100)) ++
      [.destroy 0 true, .exec 0 (stepOk 0 0), .create (sramArgs 4096) true 0 0] ++
      List.replicate 4 (.exec 1 (stepOk 0x20000000 200))) hinit (by decide +kernel)
  obtain ⟨hfirst, hsecond, howner, hpool, hdomain⟩ := of_decide_eq_true hp
  obtain ⟨mm, hmm, hmmget⟩ := Option.map_eq_some_iff.mp hpool
  obtain ⟨tr, htr, htrget⟩ := Option.map_eq_some_iff.mp hdomain
  obtain ⟨hchunk, htotal⟩ := Prod.mk.inj hmmget
  obtain ⟨hshown, hshown'⟩ := Prod.mk.inj htrget
  have hmaps : ∀ k x, (s.calls[k]?).map (fun c : BufCall =>
      (c.held, c.obj.iovaStart, c.obj.iovaSize)) = some (true, x, 0x2000) →
      tr x = some 0x3ff80000 → s.Maps threePages k 0 := by
    intro k x hk hx
    obtain ⟨c, hc, hget⟩ := Option.map_eq_some_iff.mp hk
    obtain ⟨hheld, hrange⟩ := Prod.mk.inj hget
    obtain ⟨hstart, hsize⟩ := Prod.mk.inj hrange
    refine ⟨mm, tr, c, x, 0x3ff80000, hmm, htr, hc, hheld, Nat.le_of_eq hstart, ?_, hx, ?_, ?_⟩
    · rw [hstart, hsize]
      exact Nat.lt_add_of_pos_right (by decide)
    · rw [hchunk]
      decide
    · rw [hchunk]
      decide
  have hmaps0 := hmaps 0 _ hfirst hshown
  have hmaps1 := hmaps 1 _ hsecond hshown'
  obtain ⟨d, hd, hrange⟩ := Option.bind_eq_some_iff.mp howner
  refine ⟨s, hs, hmaps0, hmaps1, ⟨d, ⟨0, 0⟩, hd, hrange, by decide, by decide⟩, fun h => ?_⟩
  exact absurd ((h mm 0 hmm (by rw [htotal]; decide)).1 0 1 hmaps0 hmaps1) (by decide)

end RknpuDriver.Buffer
