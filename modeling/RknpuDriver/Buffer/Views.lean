import RknpuDriver.Buffer.Mmap
import RknpuDriver.Buffer.Sram

/-! # Three ways to the pages of a buffer

`rknpu_gem_fault` inserts a page of the object's page array, `rknpu_gem_mmap_buffer` maps the
whole buffer at once, and `rknpu_gem_prime_get_sg_table` exports a table. For a buffer of the DMA
API the three agree. For a buffer with a cache part they do not: the page array holds the DDR
pages only, which the mapping has behind the cache part.
-/

namespace RknpuDriver.Buffer
open RknpuDriver.Lib RknpuDriver.Mm
set_option autoImplicit false

inductive VmFault where
  | sigbus
  | insertMixed (address page : ℕ)
  deriving DecidableEq, Repr

/-- `rknpu_gem_fault`. -/
def rknpuGemFault (obj : RknpuGemObject) (vma : Vma) (address : ℕ) : Option VmFault :=
  let pageOffset := (address - vma.vmStart) / pageSize
  if obj.size / pageSize ≤ pageOffset then some .sigbus
  else (obj.pages.getD [])[pageOffset]?.map fun page => .insertMixed address page

/-- `rknpu_gem_prime_get_sg_table`. -/
def rknpuGemPrimeGetSgTable (obj : RknpuGemObject) (maxPages : ℕ) : Option (List Segment) :=
  obj.pages.map fun pages => pagesToSg maxPages (pages.take (obj.size / pageSize))

/-- The three views of an object agree, at every page of every mapping of it. -/
def PagesAgree (dev : RknpuDevice) (mm : Option RknpuMm) (o : RknpuGemObject) : Prop :=
  ∀ vma out tr maxPages k, rknpuGemMmapBuffer dev mm o vma out = some (.ok tr) →
    k < vma.size / pageSize → ∃ page,
      rknpuGemFault o vma (vma.vmStart + k * pageSize) =
        some (.insertMixed (vma.vmStart + k * pageSize) page) ∧
      (∀ b < pageSize, tr (vma.vmStart + (k * pageSize + b)) = some (page * pageSize + b)) ∧
      ∃ sgt, rknpuGemPrimeGetSgTable o maxPages = some sgt ∧ (sgPages sgt)[k]? = some page

/-- The memory on the chip: the SRAM, the NBUF and what the cache tables point to. -/
def RknpuDevice.CacheMemory (dev : RknpuDevice) (x : ℕ) : Prop :=
  (dev.sramStart ≤ x ∧ x < dev.sramEnd) ∨
  (dev.nbufStart ≤ x ∧ x < dev.nbufStart + dev.nbufSize) ∨
  ∃ i sgl, dev.cacheSgt i = some sgl ∧
    ∃ s ∈ sgl, dev.nbufStart + s.start ≤ x ∧ x < dev.nbufStart + s.start + s.length

/-! ## How a live object came about -/

inductive Built (dev : RknpuDevice) (o : RknpuGemObject) : Prop where
  | plain (hsram : o.sramSize = 0) (hnbuf : o.nbufSize = 0)
      (hpages : o.size = 0 ∨ ∃ buffer, buffer.length = o.size / pageSize ∧
        o.cookie = some buffer ∧ o.pages = some buffer)
  | cached (type : RknpuCacheType) (mm : Option RknpuMm) (obj : RknpuGemObject)
      (out : CacheOutcome) (domains domains' : ℕ → Translation)
      (hbuilt : rknpuGemAllocBufWithCache dev mm obj type out domains = some (.ok o, domains'))
      (hchunk : ∀ m, mm = some m → m.chunkSize = pageSize)
      (hpos : 0 < o.cacheSize type) (hle : o.cacheSize type ≤ o.size)
      (hmod : o.size % pageSize = 0) (hmax : o.size ≤ maxLfsFilesize)
      (htype : type = .nbuf → o.sramSize = 0 ∧ o.nbufSize ≤ dev.nbufSize)

theorem PlainResult.built {dev : RknpuDevice} {obj o : RknpuGemObject} {out : CreateOutcome}
    {res : Except ℤ RknpuGemObject} (h : PlainResult dev obj out res) (hres : res = .ok o)
    (hfresh : obj.dmaAddr = 0) (hsram : obj.sramSize = 0) (hnbuf : obj.nbufSize = 0) :
    Built dev o := by
  obtain ⟨-, hbuf⟩ | ⟨hzero, hbuf⟩ := h
  · obtain ⟨hsize, hs, hn, buffer, hlength, hcookie, hpages⟩ :=
      rknpuGemAllocBuf_ok hfresh (hbuf.symm.trans hres)
    exact .plain (hs.trans hsram) (hn.trans hnbuf)
      (Or.inr ⟨buffer, by rw [hlength, hsize], hcookie, hpages⟩)
  · cases hbuf.symm.trans hres
    exact .plain hsram hnbuf (Or.inl hzero)

theorem built_of_create {dev : RknpuDevice} {args : CreateArgs} {out : CreateOutcome}
    {o : RknpuGemObject} {m m' : Memory}
    (hchunk : ∀ mm, m.sramMm = some mm → mm.chunkSize = pageSize)
    (h : rknpuGemObjectCreate dev args out m = some (.ok o, m')) : Built dev o := by
  obtain ⟨-, e, he⟩ | ⟨obj, hsize, hmax, hsram, hnbuf, hdma, -, -, hin | hin | ⟨-, hplain⟩⟩ :=
    rknpuGemObjectCreate_cases h
  · cases he
  · have hmod : obj.size % pageSize = 0 := by
      rw [hsize]
      exact pageAlign_mod _
    obtain ⟨mm, hmm, ⟨-, ⟨left, hplain⟩, -⟩ |
        ⟨mm', r, real, domains, hpos, hreal, halloc, hbuilt, -⟩⟩ := createInSram_cases hin
    · exact hplain.built rfl hdma hsram hnbuf
    · obtain ⟨hosize, hosram, -⟩ := rknpuGemAllocBufWithCache_frame hbuilt
      refine .cached .sram _ _ _ _ _ hbuilt ?_ ?_ ?_ (hosize ▸ hmod) (hosize ▸ hmax)
        fun htype => by cases htype
      · rintro m ⟨⟩
        rw [(rknpuMmAlloc_ok halloc).2.2.2]
        exact hchunk mm hmm
      · show 0 < o.sramSize
        rw [hosram]
        exact hpos
      · show o.sramSize ≤ o.size
        rw [hosram, hosize, hreal]
        exact realSramSize_le ..
  · have hmod : obj.size % pageSize = 0 := by
      rw [hsize]
      exact pageAlign_mod _
    obtain ⟨base, hbsize, hbsram, hbdma, -, -, -, -, ⟨hbnbuf, hplain, -⟩ |
        ⟨-, hpos, hle, hdev, hbuilt⟩⟩ :=
      createInNbuf_cases hin
    · exact hplain.built rfl (hbdma.trans hdma) (hbsram.trans hsram) (hbnbuf.trans hnbuf)
    · obtain ⟨hosize, hosram, honbuf, -⟩ := rknpuGemAllocBufWithCache_frame hbuilt
      have hosize' := hosize.trans hbsize
      refine .cached .nbuf _ _ _ _ _ hbuilt hchunk ?_ ?_ (hosize' ▸ hmod) (hosize' ▸ hmax)
        fun _ => ⟨hosram.trans (hbsram.trans hsram), ?_⟩
      · show 0 < o.nbufSize
        rw [honbuf]
        exact hpos
      · show o.nbufSize ≤ o.size
        rw [honbuf, hosize']
        exact hle
      · rw [honbuf]
        exact hdev
  · exact hplain.built rfl hdma hsram hnbuf

/-- What holds of every object that `rknpu_gem_object_create` returns holds of the live ones. -/
theorem live_of_create {dev : RknpuDevice} {P : RknpuGemObject → Prop}
    (hcreate : ∀ {m m' : Memory} {live : List RknpuGemObject} {args : CreateArgs}
      {out : CreateOutcome} {o : RknpuGemObject}, Sound dev ⟨m, live⟩ →
      rknpuGemObjectCreate dev args out m = some (.ok o, m') → P o)
    {s : BufState} (hs : (bufSystem dev).Reachable s) : ∀ o ∈ s.live, P o := by
  refine (hs.invariant (fun s => Sound dev s ∧ ∀ o ∈ s.live, P o) ?_
    fun s label t ih ht => ⟨sound_step ih.1 ht, ?_⟩).2
  · intro s hinit
    refine ⟨sound_reachable (System.Reachable.init hinit), fun o ho => ?_⟩
    obtain ⟨-, -, -, -, -, -, -, hlive⟩ := hinit
    rw [hlive] at ho
    cases ho
  · cases label with
    | create args out =>
      simp only [bufSystem, bufStep] at ht
      split at ht
      · cases ht
      · cases ht
        exact ih.2
      · rename_i obj mem hret
        cases ht
        intro o ho
        obtain ho | ho := List.mem_append.mp ho
        · exact ih.2 o ho
        · rw [List.mem_singleton.mp ho]
          exact hcreate ih.1 hret
    | destroy index out =>
      simp only [bufSystem, bufStep] at ht
      split at ht
      · cases ht
      · split at ht
        · cases ht
          exact fun o ho => ih.2 o (List.mem_of_mem_eraseIdx ho)
        · cases ht

theorem built_reachable {dev : RknpuDevice} {s : BufState} (hs : (bufSystem dev).Reachable s) :
    ∀ o ∈ s.live, Built dev o :=
  live_of_create (fun hsound h => built_of_create (fun _ hmm => (hsound.inStep hmm).chunk) h) hs

/-! ## Buffers of the DMA API -/

theorem rknpuGemFault_page {o : RknpuGemObject} {vma : Vma} {k : ℕ} {pages : List ℕ}
    (hpages : o.pages = some pages) (hk : k < o.size / pageSize) :
    rknpuGemFault o vma (vma.vmStart + k * pageSize) =
      pages[k]?.map fun page => .insertMixed (vma.vmStart + k * pageSize) page := by
  unfold rknpuGemFault
  simp only [Nat.add_sub_cancel_left, Nat.mul_div_cancel k (show 0 < pageSize by decide), hpages,
    Option.getD_some]
  rw [if_neg (Nat.not_le_of_lt hk)]

theorem pagesAgree_of_plain {dev : RknpuDevice} {mm : Option RknpuMm} {o : RknpuGemObject}
    {buffer : List ℕ} (hsram : o.sramSize = 0) (hnbuf : o.nbufSize = 0)
    (hlength : buffer.length = o.size / pageSize) (hcookie : o.cookie = some buffer)
    (hpages : o.pages = some buffer) : PagesAgree dev mm o := by
  intro vma out tr maxPages k hmmap hk
  unfold rknpuGemMmapBuffer at hmmap
  split_ifs at hmmap with hlarge
  · cases hmmap
  · omega
  · omega
  rw [hcookie] at hmmap
  obtain ⟨-, rfl⟩ := dmaMmapAttrs_ok (Option.some.inj hmmap)
  have hle : vma.size / pageSize ≤ o.size / pageSize :=
    Nat.div_le_div_right (Nat.le_of_not_lt hlarge)
  have hk' : k < buffer.length := by omega
  refine ⟨buffer[k], ?_, fun b hb => ?_, _, by rw [rknpuGemPrimeGetSgTable, hpages]; rfl, ?_⟩
  · rw [rknpuGemFault_page hpages (by omega), List.getElem?_eq_getElem hk']
    rfl
  · have hin : k * pageSize + b < vma.size := by
      have hle := Nat.mul_le_mul_right pageSize (Nat.succ_le_of_lt hk)
      have hdiv := Nat.div_mul_le_self vma.size pageSize
      rw [Nat.succ_mul] at hle
      omega
    have hdiv : (k * pageSize + b) / pageSize = k := by
      rw [Nat.add_comm, Nat.add_mul_div_right _ _ (by decide), Nat.div_eq_of_lt hb, Nat.zero_add]
    have hmod : (k * pageSize + b) % pageSize = b := by
      rw [Nat.mul_add_mod_self_right, Nat.mod_eq_of_lt hb]
    rw [Translation.overlay_add hin, byteAt_pages, hdiv, hmod, List.getElem?_eq_getElem hk']
    rfl
  · rw [sgPages_pagesToSg, List.take_of_length_le (by omega), List.getElem?_eq_getElem hk']

/-! ## Buffers with a cache part -/

theorem cacheMemory_of_piece {dev : RknpuDevice} {o : RknpuGemObject} {cacheStart cacheSize : ℕ}
    {pieces : List Segment} {k x : ℕ}
    (hpieces : cachePieces dev o cacheStart cacheSize = some pieces)
    (hx : Segment.byteAt pieces k = some x)
    (hrange : ∀ y, cacheStart ≤ y → y < cacheStart + cacheSize → dev.CacheMemory y) :
    dev.CacheMemory x := by
  obtain ⟨s, hs, hlow, hhigh⟩ := Segment.mem_of_byteAt hx
  unfold cachePieces at hpieces
  by_cases hsgt : (!o.cacheWithSgt) = true
  · rw [if_pos hsgt] at hpieces
    cases hpieces
    rw [List.mem_singleton.mp hs] at hlow hhigh
    exact hrange x hlow hhigh
  · rw [if_neg hsgt] at hpieces
    obtain ⟨sgl, hsgl, rfl⟩ := Option.map_eq_some_iff.mp hpieces
    obtain ⟨t, ht, hstart, hlength⟩ := Segment.exists_of_mem_clip hs
    obtain ⟨entries, hentries, rfl⟩ := Option.map_eq_some_iff.mp hsgl
    obtain ⟨u, hu, rfl⟩ := List.mem_map.mp ht
    simp only at hstart hlength
    exact Or.inr (Or.inr ⟨_, entries, hentries, u, hu, by omega, by omega⟩)

theorem remapCache_accepts {dev : RknpuDevice} {o : RknpuGemObject} (vma : Vma)
    {cacheStart cacheSize : ℕ} (tr : Translation) {pieces : List Segment}
    (hpieces : cachePieces dev o cacheStart cacheSize = some pieces) (hpaged : Paged pieces) :
    ∃ tr' left, remapCache dev o vma cacheStart cacheSize (fun _ => 0) tr =
      some ⟨none, tr', left⟩ := by
  have hput : ∀ {va pa n : ℕ} {tr : Translation}, va % pageSize = 0 →
      remapPfnRange 0 tr va pa n = .ok (tr.mapRange va (pa * pageSize) (pageAlign n)) := by
    intro va pa n tr hva
    unfold remapPfnRange
    rw [if_neg (by rw [hva]; decide), if_neg (by decide)]
  unfold cachePieces at hpieces
  unfold remapCache
  by_cases hsgt : (!o.cacheWithSgt) = true
  · rw [if_pos hsgt, hput vma.start_aligned]
    exact ⟨_, _, rfl⟩
  · rw [if_neg hsgt] at hpieces ⊢
    obtain ⟨sgl, hsgl, rfl⟩ := Option.map_eq_some_iff.mp hpieces
    cases hlaid : layOut (fun (_ : ℕ) tr va pa n => remapPfnRange 0 tr va (pa / pageSize) n) 0 sgl
        vma.vmStart cacheSize tr with
    | mk refused tr' left =>
      have haccepts : (layOut (fun (_ : ℕ) tr va pa n =>
          remapPfnRange 0 tr va (pa / pageSize) n) 0 sgl vma.vmStart cacheSize tr).refused =
          none := by
        refine layOut_accepts (fun va => va % pageSize = 0) vma.start_aligned
          fun s hs i tr va hva => ⟨?_, _, hput hva⟩
        rw [Nat.add_mod, hva, (hpaged s hs).2]
        rfl
      rw [hlaid] at haccepts
      cases haccepts
      refine ⟨tr', left, ?_⟩
      rw [rknpuRemapPfnWithCacheSgt, hsgl, Option.map_some, hlaid]

theorem insertPages_accepts {vma : Vma} {pages : List ℕ} {n i offset : ℕ} (tr : Translation)
    (hpages : i + n ≤ pages.length) (hin : vma.vmStart + offset + n * pageSize ≤ vma.vmEnd) :
    ∃ tr', insertPages (fun _ => 0) vma pages n i offset tr = some (.ok tr') := by
  induction n generalizing i offset tr with
  | zero => exact ⟨tr, rfl⟩
  | succ n ih =>
    have hi : i < pages.length := by omega
    rw [Nat.succ_mul] at hin
    have hinsert : vmInsertPage 0 vma tr (vma.vmStart + offset) pages[i] =
        .ok (tr.mapRange (vma.vmStart + offset) (pages[i] * pageSize) pageSize) := by
      unfold vmInsertPage
      have hsize : 0 < pageSize := by decide
      rw [if_neg (by omega), if_neg (by decide)]
    unfold insertPages
    rw [List.getElem?_eq_getElem hi]
    simp only [hinsert]
    exact ih _ (by omega) (by omega)

/-- The whole of an object, mapped at the second page of the address space. -/
def fullVma (o : RknpuGemObject) (hmod : o.size % pageSize = 0) (hmax : o.size ≤ maxLfsFilesize) :
    Vma where
  vmStart := pageSize
  vmEnd := pageSize + o.size
  ordered := Nat.le_add_right _ _
  start_aligned := rfl
  end_aligned := by rw [Nat.add_mod, hmod]; rfl
  end_lt := by simp only [pageSize, maxLfsFilesize] at *; omega

theorem not_pagesAgree_of_cached {dev : RknpuDevice} {mm mm' : Option RknpuMm}
    {obj o : RknpuGemObject} {type : RknpuCacheType} {out : CacheOutcome}
    {domains domains' : ℕ → Translation}
    (hbuilt : rknpuGemAllocBufWithCache dev mm obj type out domains = some (.ok o, domains'))
    (hplace : cacheRange dev mm' o type = cacheRange dev mm o type)
    (hpos : 0 < o.cacheSize type) (hle : o.cacheSize type ≤ o.size)
    (hmod : o.size % pageSize = 0) (hmax : o.size ≤ maxLfsFilesize)
    (htype : type = .nbuf → o.sramSize = 0)
    (hrange : ∀ cacheStart, cacheRange dev mm' o type = some (cacheStart, o.cacheSize type) →
      ∀ y, cacheStart ≤ y → y < cacheStart + o.cacheSize type → dev.CacheMemory y)
    (hram : ∀ page ∈ o.pages.getD [], ∀ b < pageSize, ¬ dev.CacheMemory (page * pageSize + b)) :
    ¬ PagesAgree dev mm' o := by
  intro hagree
  obtain ⟨d, cacheStart, pieces, -, hbase, hpieces, hpaged, hzero | ⟨pages, hpages, hlength, -⟩⟩ :=
    device_view hbuilt
  · omega
  have hplace' := hplace.trans hbase
  have hsize : (fullVma o hmod hmax).size = o.size := Nat.add_sub_cancel_left ..
  obtain ⟨tr, htr⟩ : ∃ tr, rknpuGemMmapCache dev mm' o (fullVma o hmod hmax) type
      ⟨fun _ => 0, fun _ => 0, 0⟩ = some (.ok tr) := by
    obtain ⟨mid, left, hcache⟩ := remapCache_accepts (fullVma o hmod hmax) (fun _ => none)
      hpieces hpaged
    have hsub : u64Sub (fullVma o hmod hmax).size (o.cacheSize type) =
        o.size - o.cacheSize type := by
      rw [hsize]
      exact u64Sub_of_le hle (Nat.lt_of_le_of_lt hmax (by decide))
    have hcount : 0 + (o.size - o.cacheSize type) / pageSize ≤ pages.length := by
      rw [Nat.zero_add, hlength]
      exact Nat.div_le_div_right (Nat.sub_le _ _)
    have hin : (fullVma o hmod hmax).vmStart + o.cacheSize type +
        (o.size - o.cacheSize type) / pageSize * pageSize ≤ (fullVma o hmod hmax).vmEnd := by
      have hdiv := Nat.div_mul_le_self (o.size - o.cacheSize type) pageSize
      show pageSize + o.cacheSize type + _ ≤ pageSize + o.size
      rw [Nat.add_assoc]
      refine Nat.add_le_add_left (Nat.le_trans (Nat.add_le_add_left hdiv _) ?_) pageSize
      exact Nat.le_of_eq (Nat.add_sub_cancel' hle)
    obtain ⟨tr, hinsert⟩ := insertPages_accepts mid hcount hin
    refine ⟨tr, ?_⟩
    simp only [rknpuGemMmapCache, Option.bind_eq_bind, hplace', Option.bind_some, hcache, hsub,
      hpages, Option.getD_some, if_neg (show o.size ≠ 0 by omega)]
    exact hinsert
  have hbuffer : rknpuGemMmapBuffer dev mm' o (fullVma o hmod hmax)
      ⟨fun _ => 0, fun _ => 0, 0⟩ = some (.ok tr) := by
    unfold rknpuGemMmapBuffer
    rw [if_neg (by omega)]
    cases type with
    | sram =>
      rw [if_pos (show 0 < o.sramSize from hpos)]
      exact htr
    | nbuf =>
      rw [if_neg (by rw [htype rfl]; decide), if_pos (show 0 < o.nbufSize from hpos)]
      exact htr
  have hfirst : 0 < o.size / pageSize :=
    Nat.div_pos (Nat.le_of_dvd (by omega) (Nat.dvd_of_mod_eq_zero hmod)) (by decide)
  have hcpu := cpu_view htr hplace' hpieces hpaged (by omega) (by omega)
  obtain ⟨page, hfault, hmap, -⟩ := hagree _ _ _ 1 0 hbuffer (by
    rw [hsize]
    exact hfirst)
  have hpage : page ∈ pages := by
    rw [rknpuGemFault_page hpages hfirst] at hfault
    obtain ⟨page', hget, heq⟩ := Option.map_eq_some_iff.mp hfault
    cases heq
    exact List.mem_of_getElem? hget
  have hbyte : Segment.byteAt pieces 0 = some (page * pageSize + 0) := by
    have hstart : tr ((fullVma o hmod hmax).vmStart + 0) = some (page * pageSize + 0) :=
      hmap 0 (by decide)
    rw [hcpu, Translation.overlay_outside (by omega)] at hstart
    by_cases hempty : 0 < Segment.total pieces
    · exact (Translation.overlay_add hempty).symm.trans hstart
    · rw [Translation.overlay_outside (by omega)] at hstart
      cases hstart
  refine hram page ?_ 0 (by decide) ?_
  · rw [hpages]
    exact hpage
  · exact cacheMemory_of_piece hpieces hbyte (hrange cacheStart hplace')

theorem pool_of_live {dev : RknpuDevice} {s : BufState} (hs : (bufSystem dev).Reachable s)
    {o : RknpuGemObject} (ho : o ∈ s.live) (hpos : 0 < o.sramSize) :
    ∃ mm, s.mem.sramMm = some mm := by
  refine Option.ne_none_iff_exists'.mp fun hnone => ?_
  have hsound := sound_reachable hs
  unfold Sound at hsound
  rw [hnone] at hsound
  exact absurd (hsound o ho) (Nat.ne_of_gt hpos)

theorem cacheRange_live {dev : RknpuDevice} {s : BufState} (hs : (bufSystem dev).Reachable s)
    {mm : Option RknpuMm} {obj o : RknpuGemObject} (ho : o ∈ s.live) {type : RknpuCacheType}
    {out : CacheOutcome} {domains domains' : ℕ → Translation}
    (hbuilt : rknpuGemAllocBufWithCache dev mm obj type out domains = some (.ok o, domains'))
    (hchunk : ∀ m, mm = some m → m.chunkSize = pageSize) (hpos : 0 < o.cacheSize type) :
    cacheRange dev s.mem.sramMm o type = cacheRange dev mm o type := by
  cases type with
  | nbuf => rfl
  | sram =>
    obtain ⟨m, hm⟩ := pool_of_live hs ho hpos
    have hstep := (sound_reachable hs).inStep hm
    obtain ⟨d, cacheStart, -, -, hbase, -⟩ := device_view hbuilt
    obtain ⟨m₀, hm₀⟩ : ∃ m₀, mm = some m₀ := Option.ne_none_iff_exists'.mp fun hnone => by
      rw [hnone] at hbase
      cases hbase
    refine cacheRange_congr ?_ rfl rfl rfl .sram
    rw [hm, hm₀, Option.map_some, Option.map_some, hstep.chunk, hchunk m₀ hm₀]

/-- **Which objects show the same pages in every view**: those without a cache part. The pages
of `drm_gem_get_pages` are system memory, not memory on the chip. -/
theorem pages_agree_iff {dev : RknpuDevice} {s : BufState} (hs : (bufSystem dev).Reachable s)
    {o : RknpuGemObject} (ho : o ∈ s.live)
    (hram : ∀ page ∈ o.pages.getD [], ∀ b < pageSize, ¬ dev.CacheMemory (page * pageSize + b)) :
    PagesAgree dev s.mem.sramMm o ↔ o.sramSize = 0 ∧ o.nbufSize = 0 := by
  cases built_reachable hs o ho with
  | plain hsram hnbuf hpages =>
    refine iff_of_true ?_ ⟨hsram, hnbuf⟩
    obtain hzero | ⟨buffer, hlength, hcookie, hpages⟩ := hpages
    · intro vma out tr maxPages k hmmap hk
      unfold rknpuGemMmapBuffer at hmmap
      by_cases hlarge : o.size < vma.size
      · rw [if_pos hlarge] at hmmap
        cases hmmap
      · rw [show vma.size = 0 by omega] at hk
        exact absurd hk (Nat.not_lt_zero k)
    · exact pagesAgree_of_plain hsram hnbuf hlength hcookie hpages
  | cached type mm obj out domains domains' hbuilt hchunk hpos hle hmod hmax htype =>
    refine iff_of_false ?_ fun hnone => ?_
    · cases type with
      | nbuf =>
        refine not_pagesAgree_of_cached hbuilt rfl hpos hle hmod hmax
          (fun _ => (htype rfl).1) ?_ hram
        rintro cacheStart ⟨⟩ y hlow hhigh
        have hdev := (htype rfl).2
        have hhigh' : y < dev.nbufStart + o.nbufSize := hhigh
        exact Or.inr (Or.inl ⟨hlow, by omega⟩)
      | sram =>
        obtain ⟨m, hm⟩ := pool_of_live hs ho hpos
        have hstep := (sound_reachable hs).inStep hm
        have hplace := cacheRange_live hs ho hbuilt hchunk hpos
        refine not_pagesAgree_of_cached hbuilt hplace hpos hle hmod hmax (fun h => by cases h)
          (fun start hstart y hlow hhigh => Or.inl ?_) hram
        obtain ⟨r, hr, -⟩ := hstep.sized o ho hpos
        rw [hm, hstep.cacheRange_window ho hr] at hstart
        cases hstart
        have hend := hstep.window_le ho hr
        have hhigh' : y < windowStart dev m r + o.sramSize := hhigh
        exact ⟨Nat.le_trans (Nat.le_add_right _ _) hlow, by omega⟩
    · cases type with
      | sram => exact absurd hnone.1 (Nat.ne_of_gt hpos)
      | nbuf => exact absurd hnone.2 (Nat.ne_of_gt hpos)

theorem not_cacheMemory_low {page b : ℕ} (hpage : page < 1000) (hb : b < pageSize) :
    ¬ threePages.CacheMemory (page * pageSize + b) := by
  have hle : page * pageSize ≤ 999 * pageSize := Nat.mul_le_mul_right pageSize (by omega)
  have hlt : page * pageSize + b < 0x3fe80000 :=
    Nat.lt_of_lt_of_le (Nat.add_lt_add_of_le_of_lt hle hb) (by decide)
  rintro (⟨hlow, -⟩ | ⟨hlow, -⟩ | ⟨i, sgl, hsgl, -⟩)
  · have hlow' : 0x3ff80000 ≤ page * pageSize + b := hlow
    exact absurd (Nat.lt_of_lt_of_le hlt (by decide)) (Nat.not_lt_of_le hlow')
  · exact absurd hlt (Nat.not_lt_of_le hlow)
  · cases hsgl

theorem pages_agree_iff_two_pages : ∃ s o, (bufSystem threePages).Reachable s ∧ s.live = [o] ∧
    o.pages = some [200, 201] ∧ PagesAgree threePages s.mem.sramMm o := by
  have hinit : (bufSystem threePages).init ⟨⟨some threeChunks, fun _ _ => none⟩, []⟩ :=
    ⟨blankDevice, some (0x3ff80000, 0x3000), true, true, rfl, rfl, rfl, rfl⟩
  obtain ⟨s, hs, hp⟩ := System.Reachable.of_run_any (S := bufSystem threePages)
    (p := fun s => decide (s.live.map (fun o => (o.pages, o.sramSize, o.nbufSize)) =
      [(some [200, 201], 0, 0)]))
    (l := [.create ⟨0, 8192, 0, 0, 0⟩ (noFailure 0x20000000 200)]) hinit (by decide +kernel)
  obtain ⟨o, hlive, ho⟩ := List.map_eq_singleton_iff.mp (of_decide_eq_true hp)
  obtain ⟨hpages, hsram, hnbuf⟩ : o.pages = some [200, 201] ∧ o.sramSize = 0 ∧ o.nbufSize = 0 := by
    simpa using ho
  refine ⟨s, o, hs, hlive, hpages, (pages_agree_iff hs (by simp [hlive]) ?_).mpr ⟨hsram, hnbuf⟩⟩
  intro page hpage b hb
  rw [hpages, Option.getD_some] at hpage
  refine not_cacheMemory_low ?_ hb
  simp only [List.mem_cons, List.not_mem_nil, or_false] at hpage
  omega

def onePageVma : Vma :=
  ⟨0x7f000000, 0x7f001000, by decide, wholeVma.start_aligned, by decide, by decide⟩

/-- A buffer of one page in SRAM. -/
def sramPage : RknpuGemObject where
  flags := 0x100
  size := 4096
  sramSize := 4096
  nbufSize := 0
  sramObj := .held ⟨0, 0⟩
  iovaStart := 0x10000000
  iovaSize := 8192
  cookie := none
  dmaAddr := 0x10000000
  numPages := 1
  pages := some [100]
  sgt := some [⟨100 * 4096, 4096⟩]
  iommuDomainId := 0
  coreMask := 0
  cacheWithSgt := false

/-- Its mapping shows the SRAM, the fault inserts the DDR page that lies behind it. -/
theorem pages_disagree_sram : ∃ s tr, (bufSystem threePages).Reachable s ∧
    s.live = [sramPage] ∧
    rknpuGemMmapBuffer threePages s.mem.sramMm sramPage onePageVma
      ⟨fun _ => 0, fun _ => 0, 0⟩ = some (.ok tr) ∧
    tr 0x7f000000 = some 0x3ff80000 ∧
    rknpuGemFault sramPage onePageVma 0x7f000000 = some (.insertMixed 0x7f000000 100) ∧
    ¬ PagesAgree threePages s.mem.sramMm sramPage := by
  have hinit : (bufSystem threePages).init ⟨⟨some threeChunks, fun _ _ => none⟩, []⟩ :=
    ⟨blankDevice, some (0x3ff80000, 0x3000), true, true, rfl, rfl, rfl, rfl⟩
  obtain ⟨s, hs, hp⟩ := System.Reachable.of_run_any (S := bufSystem threePages)
    (p := fun s => decide (s.live = [sramPage] ∧
      s.mem.sramMm.map RknpuMm.chunkSize = some 4096))
    (l := [.create (sramArgs 4096) (noFailure 0x10000000 100)]) hinit (by decide +kernel)
  obtain ⟨hlive, hchunk⟩ := of_decide_eq_true hp
  have hsame : rknpuGemMmapBuffer threePages s.mem.sramMm sramPage onePageVma
      ⟨fun _ => 0, fun _ => 0, 0⟩ = rknpuGemMmapBuffer threePages (some threeChunks) sramPage
      onePageVma ⟨fun _ => 0, fun _ => 0, 0⟩ := by
    have hrange : cacheRange threePages s.mem.sramMm sramPage .sram =
        cacheRange threePages (some threeChunks) sramPage .sram :=
      cacheRange_congr hchunk rfl rfl rfl .sram
    show rknpuGemMmapCache threePages s.mem.sramMm sramPage onePageVma .sram _ =
      rknpuGemMmapCache threePages (some threeChunks) sramPage onePageVma .sram _
    simp only [rknpuGemMmapCache, hrange]
  have hfirst : ((rknpuGemMmapBuffer threePages (some threeChunks) sramPage onePageVma
      ⟨fun _ => 0, fun _ => 0, 0⟩).bind Except.toOption).bind (fun tr => tr 0x7f000000) =
      some 0x3ff80000 := by decide +kernel
  obtain ⟨tr, hok, htr⟩ := Option.bind_eq_some_iff.mp hfirst
  have hmmap : rknpuGemMmapBuffer threePages s.mem.sramMm sramPage onePageVma
      ⟨fun _ => 0, fun _ => 0, 0⟩ = some (.ok tr) := by
    obtain ⟨res, hres, htr'⟩ := Option.bind_eq_some_iff.mp hok
    rw [hsame, hres]
    cases res with
    | error e => cases htr'
    | ok tr' => exact congrArg (some ∘ Except.ok) (Option.some.inj htr')
  refine ⟨s, tr, hs, hlive, hmmap, htr, rfl, fun hagree => ?_⟩
  obtain ⟨page, hfault, hmap, -⟩ := hagree onePageVma _ tr 1 0 hmmap (by decide)
  cases hfault
  exact absurd (htr.symm.trans (hmap 0 (by decide))) (by decide)

end RknpuDriver.Buffer
