import RknpuDriver.Session.Objects
import Mathlib.Algebra.Order.BigOperators.Group.Multiset
import Mathlib.Algebra.Order.Group.Nat

/-! # Objects are torn down once

An object is reached through the list, or by the one call that holds its address: the MEM_CREATE
that is about to list it, or the MEM_DESTROY or release that took it off the list. `Ledger` says
so, and counts for each object the calls that took it apart.
-/

namespace RknpuDriver.Session
open RknpuDriver.Lib
set_option autoImplicit false

def Stage.rank : Stage → ℕ
  | .vunmap => 0
  | .unmap => 1
  | .detach => 2
  | .put => 3
  | .kfree => 4

/-- The calls that every object gets: `dma_buf_vunmap` and `dma_buf_put` depend on its fields. -/
def Stage.always : Stage → Bool
  | .vunmap | .put => false
  | .unmap | .detach | .kfree => true

namespace MemOp

/-- The call that waits to run this block holds the address. -/
def owns (a : ℕ) : MemOp → ℕ
  | listAdd b | teardown b _ => if b = a then 1 else 0
  | _ => 0

/-- The object at the address has been through the stage. -/
def past (stage : Stage) (a : ℕ) : MemOp → ℕ
  | teardown b st => if b = a ∧ stage.rank < st.rank then 1 else 0
  | _ => 0

theorem past_le_owns (stage : Stage) (a : ℕ) (op : MemOp) : op.past stage a ≤ op.owns a := by
  cases op with
  | teardown b st =>
    simp only [past, owns]
    by_cases hpast : b = a ∧ stage.rank < st.rank
    · rw [if_pos hpast, if_pos hpast.1]
    · rw [if_neg hpast]
      exact Nat.zero_le _
  | _ => exact Nat.zero_le _

end MemOp

namespace SessionState

/-- Where which object is. -/
def cells (s : SessionState) : List (ℕ × ℕ) := s.heap.map fun x => (x.addr, x.id)

/-- How often an object went through a stage. -/
def torn (s : SessionState) (stage : Stage) (id : ℕ) : ℕ := s.hist.count (.torn stage id)

def listed (s : SessionState) : List ℕ := s.list.getD []

end SessionState

/-- Every object is on the list once or held by one call, and went through the stages that this
call has left behind it; an object that is freed went through all of them. -/
structure Ledger (s : FileState) : Prop where
  owned : ∀ a, (s.session.cells.map Prod.fst).count a =
    s.session.listed.count a + weigh (MemOp.owns a) s.threads
  addrs : (s.session.cells.map Prod.fst).Nodup
  ids : (s.session.cells.map Prod.snd).Nodup
  born : ∀ c ∈ s.session.cells, c.2 < s.session.numObjs
  live_le : ∀ c ∈ s.session.cells, ∀ stage,
    s.session.torn stage c.2 ≤ weigh (MemOp.past stage c.1) s.threads
  live_eq : ∀ c ∈ s.session.cells, ∀ stage, stage.always = true →
    s.session.torn stage c.2 = weigh (MemOp.past stage c.1) s.threads
  dead_le : ∀ id < s.session.numObjs, id ∉ s.session.cells.map Prod.snd → ∀ stage,
    s.session.torn stage id ≤ 1
  dead_eq : ∀ id < s.session.numObjs, id ∉ s.session.cells.map Prod.snd → ∀ stage,
    stage.always = true → s.session.torn stage id = 1
  unborn : ∀ id, s.session.numObjs ≤ id → ∀ stage, s.session.torn stage id = 0
  added : ∀ id, .added id ∈ s.session.hist → id < s.session.numObjs

namespace Ledger
variable {s t : FileState} {a : ℕ} {stage : Stage} {c : ℕ × ℕ}

theorem owns_le (hs : Ledger s) (a : ℕ) :
    s.session.listed.count a + weigh (MemOp.owns a) s.threads ≤ 1 := by
  rw [← hs.owned]
  exact List.nodup_iff_count_le_one.mp hs.addrs a

theorem weigh_past_le (stage : Stage) (a : ℕ) (threads : List (List MemOp)) :
    weigh (MemOp.past stage a) threads ≤ weigh (MemOp.owns a) threads :=
  Multiset.sum_map_le_sum_map _ _ fun op _ => op.past_le_owns stage a

theorem past_le (hs : Ledger s) (stage : Stage) (a : ℕ) :
    weigh (MemOp.past stage a) s.threads ≤ 1 := by
  have hle := weigh_past_le stage a s.threads
  have hone := hs.owns_le a
  omega

theorem listed_nodup (hs : Ledger s) : s.session.listed.Nodup := by
  rw [List.nodup_iff_count_le_one]
  intro a
  have hone := hs.owns_le a
  omega

theorem eq_of_fst (hs : Ledger s) {c d : ℕ × ℕ} (hc : c ∈ s.session.cells)
    (hd : d ∈ s.session.cells) (h : c.1 = d.1) : c = d :=
  List.inj_on_of_nodup_map hs.addrs hc hd h

theorem eq_of_snd (hs : Ledger s) {c d : ℕ × ℕ} (hc : c ∈ s.session.cells)
    (hd : d ∈ s.session.cells) (h : c.2 = d.2) : c = d :=
  List.inj_on_of_nodup_map hs.ids hc hd h

/-- Nothing happens to an object, but an owner may pass it on to the list or to a call. -/
theorem frame (hs : Ledger s) (hcells : t.session.cells = s.session.cells)
    (hnum : t.session.numObjs = s.session.numObjs)
    (htorn : ∀ stage id, t.session.torn stage id = s.session.torn stage id)
    (hadded : ∀ id, .added id ∈ t.session.hist →
      .added id ∈ s.session.hist ∨ id ∈ s.session.cells.map Prod.snd)
    (hown : ∀ a, t.session.listed.count a + weigh (MemOp.owns a) t.threads =
      s.session.listed.count a + weigh (MemOp.owns a) s.threads)
    (hpast : ∀ stage a, weigh (MemOp.past stage a) t.threads =
      weigh (MemOp.past stage a) s.threads) : Ledger t where
  owned a := by rw [hown, hcells, hs.owned]
  addrs := hcells ▸ hs.addrs
  ids := hcells ▸ hs.ids
  born c hc := by
    rw [hnum]
    exact hs.born c (hcells ▸ hc)
  live_le c hc stage := by
    rw [htorn, hpast]
    exact hs.live_le c (hcells ▸ hc) stage
  live_eq c hc stage halways := by
    rw [htorn, hpast]
    exact hs.live_eq c (hcells ▸ hc) stage halways
  dead_le id hid hnot stage := by
    rw [htorn]
    exact hs.dead_le id (hnum ▸ hid) (hcells ▸ hnot) stage
  dead_eq id hid hnot stage halways := by
    rw [htorn]
    exact hs.dead_eq id (hnum ▸ hid) (hcells ▸ hnot) stage halways
  unborn id hid stage := by
    rw [htorn]
    exact hs.unborn id (hnum ▸ hid) stage
  added id hid := by
    rw [hnum]
    obtain hold | hmem := hadded id hid
    · exact hs.added id hold
    · obtain ⟨c, hc, rfl⟩ := List.mem_map.mp hmem
      exact hs.born c hc

theorem kzalloc (hs : Ledger s) (ha : a ∉ s.session.cells.map Prod.fst)
    (hcells : t.session.cells = s.session.cells ++ [(a, s.session.numObjs)])
    (hnum : t.session.numObjs = s.session.numObjs + 1)
    (hhist : t.session.hist = s.session.hist) (hlist : t.session.list = s.session.list)
    (hown : ∀ b, weigh (MemOp.owns b) t.threads =
      weigh (MemOp.owns b) s.threads + if b = a then 1 else 0)
    (hpast : ∀ stage b, weigh (MemOp.past stage b) t.threads =
      weigh (MemOp.past stage b) s.threads) : Ledger t := by
  have htorn : ∀ stage id, t.session.torn stage id = s.session.torn stage id := by
    intro stage id
    unfold SessionState.torn
    rw [hhist]
  have hfresh : s.session.numObjs ∉ s.session.cells.map Prod.snd := by
    intro hmem
    obtain ⟨c, hc, hid⟩ := List.mem_map.mp hmem
    have hlt := hs.born c hc
    omega
  have hmem : ∀ c ∈ t.session.cells, c ∈ s.session.cells ∨ c = (a, s.session.numObjs) := by
    intro c hc
    rw [hcells] at hc
    simpa using hc
  -- the address is unused, so no call holds it and no call has been past a stage with it
  have hnew : ∀ stage, t.session.torn stage s.session.numObjs =
      weigh (MemOp.past stage a) t.threads := by
    intro stage
    have hle := weigh_past_le stage a s.threads
    have hcount := hs.owned a
    rw [List.count_eq_zero.mpr ha] at hcount
    rw [htorn, hpast, hs.unborn _ (le_refl _)]
    omega
  have hold : ∀ id < t.session.numObjs, id ∉ t.session.cells.map Prod.snd →
      id < s.session.numObjs ∧ id ∉ s.session.cells.map Prod.snd := by
    intro id hid hnot
    rw [hcells, List.map_append, List.mem_append, not_or] at hnot
    have hne : id ≠ s.session.numObjs := by simpa using hnot.2
    exact ⟨by omega, hnot.1⟩
  constructor
  · intro b
    have hcount := hs.owned b
    rw [hcells, List.map_append, List.count_append, hcount, hown]
    unfold SessionState.listed
    rw [hlist]
    by_cases hb : b = a
    · subst hb
      simp
      omega
    · simp [hb, Ne.symm hb]
  · rw [hcells, List.map_append]
    refine List.nodup_append.mpr ⟨hs.addrs, List.nodup_singleton _, ?_⟩
    intro b hb c hc
    have hca : c = a := List.mem_singleton.mp hc
    rintro rfl
    exact ha (hca ▸ hb)
  · rw [hcells, List.map_append]
    refine List.nodup_append.mpr ⟨hs.ids, List.nodup_singleton _, ?_⟩
    intro b hb c hc
    have hcid : c = s.session.numObjs := List.mem_singleton.mp hc
    rintro rfl
    exact hfresh (hcid ▸ hb)
  · intro c hc
    obtain hc | rfl := hmem c hc
    · have hlt := hs.born c hc
      omega
    · rw [hnum]
      exact Nat.lt_succ_self _
  · intro c hc stage
    obtain hc | rfl := hmem c hc
    · rw [htorn, hpast]
      exact hs.live_le c hc stage
    · exact le_of_eq (hnew stage)
  · intro c hc stage halways
    obtain hc | rfl := hmem c hc
    · rw [htorn, hpast]
      exact hs.live_eq c hc stage halways
    · exact hnew stage
  · intro id hid hnot stage
    rw [htorn]
    exact hs.dead_le id (hold id hid hnot).1 (hold id hid hnot).2 stage
  · intro id hid hnot stage halways
    rw [htorn]
    exact hs.dead_eq id (hold id hid hnot).1 (hold id hid hnot).2 stage halways
  · intro id hid stage
    rw [htorn]
    exact hs.unborn id (by omega) stage
  · intro id hid
    rw [hhist] at hid
    have hlt := hs.added id hid
    omega

/-- The call that holds an object takes it through its next stage. -/
theorem tear (stage : Stage) (hs : Ledger s) (hc : c ∈ s.session.cells)
    (hcells : t.session.cells = s.session.cells)
    (hnum : t.session.numObjs = s.session.numObjs) (hlist : t.session.list = s.session.list)
    (hadded : ∀ id, .added id ∈ t.session.hist → .added id ∈ s.session.hist)
    (hother : ∀ st id, st ≠ stage ∨ id ≠ c.2 → t.session.torn st id = s.session.torn st id)
    (hle : t.session.torn stage c.2 ≤ s.session.torn stage c.2 + 1)
    (heq : stage.always = true → t.session.torn stage c.2 = s.session.torn stage c.2 + 1)
    (hown : ∀ b, weigh (MemOp.owns b) t.threads = weigh (MemOp.owns b) s.threads)
    (hpast : ∀ st b, weigh (MemOp.past st b) t.threads =
      weigh (MemOp.past st b) s.threads + if st = stage ∧ b = c.1 then 1 else 0) :
    Ledger t := by
  have hdead : ∀ id, id ∉ s.session.cells.map Prod.snd → ∀ st,
      t.session.torn st id = s.session.torn st id := by
    intro id hnot st
    apply hother
    exact Or.inr fun h => hnot (h ▸ List.mem_map_of_mem hc)
  have hunborn : ∀ id, s.session.numObjs ≤ id → id ∉ s.session.cells.map Prod.snd := by
    intro id hid hmem
    obtain ⟨d, hd, rfl⟩ := List.mem_map.mp hmem
    have hlt := hs.born d hd
    omega
  constructor
  · intro b
    rw [hcells, hs.owned, hown]
    unfold SessionState.listed
    rw [hlist]
  · rw [hcells]
    exact hs.addrs
  · rw [hcells]
    exact hs.ids
  · rw [hcells, hnum]
    exact hs.born
  · intro d hd st
    rw [hcells] at hd
    have hlive := hs.live_le d hd st
    rw [hpast]
    by_cases hsame : st = stage ∧ d = c
    · obtain ⟨rfl, rfl⟩ := hsame
      rw [if_pos ⟨rfl, rfl⟩]
      omega
    · rw [if_neg fun h => hsame ⟨h.1, hs.eq_of_fst hd hc h.2⟩, hother]
      · exact hlive
      · obtain hne | hne := not_and_or.mp hsame
        · exact Or.inl hne
        · exact Or.inr fun h => hne (hs.eq_of_snd hd hc h)
  · intro d hd st halways
    rw [hcells] at hd
    have hlive := hs.live_eq d hd st halways
    rw [hpast]
    by_cases hsame : st = stage ∧ d = c
    · obtain ⟨rfl, rfl⟩ := hsame
      rw [if_pos ⟨rfl, rfl⟩, heq halways, hlive]
    · rw [if_neg fun h => hsame ⟨h.1, hs.eq_of_fst hd hc h.2⟩, hother]
      · exact hlive
      · obtain hne | hne := not_and_or.mp hsame
        · exact Or.inl hne
        · exact Or.inr fun h => hne (hs.eq_of_snd hd hc h)
  · intro id hid hnot st
    rw [hcells] at hnot
    rw [hdead id hnot]
    exact hs.dead_le id (hnum ▸ hid) hnot st
  · intro id hid hnot st halways
    rw [hcells] at hnot
    rw [hdead id hnot]
    exact hs.dead_eq id (hnum ▸ hid) hnot st halways
  · intro id hid st
    rw [hnum] at hid
    rw [hdead id (hunborn id hid)]
    exact hs.unborn id hid st
  · intro id hid
    rw [hnum]
    exact hs.added id (hadded id hid)

/-- The call that holds an object frees it, after the other stages. -/
theorem kfree (hs : Ledger s) (hc : c ∈ s.session.cells)
    (hcells : t.session.cells = s.session.cells.filter fun d => d.1 ≠ c.1)
    (hnum : t.session.numObjs = s.session.numObjs) (hlist : t.session.list = s.session.list)
    (hadded : ∀ id, .added id ∈ t.session.hist → .added id ∈ s.session.hist)
    (hother : ∀ st id, id ≠ c.2 → t.session.torn st id = s.session.torn st id)
    (hle : ∀ st, t.session.torn st c.2 ≤ 1)
    (heq : ∀ st : Stage, st.always = true → t.session.torn st c.2 = 1)
    (hown : ∀ b, weigh (MemOp.owns b) t.threads + (if b = c.1 then 1 else 0) =
      weigh (MemOp.owns b) s.threads)
    (hpast : ∀ st b, b ≠ c.1 → weigh (MemOp.past st b) t.threads =
      weigh (MemOp.past st b) s.threads) : Ledger t := by
  have hmem : ∀ d, d ∈ t.session.cells ↔ d ∈ s.session.cells ∧ d ≠ c := by
    intro d
    rw [hcells, List.mem_filter]
    refine and_congr_right fun hd => ?_
    simp only [decide_eq_true_eq]
    exact not_congr ⟨hs.eq_of_fst hd hc, congrArg Prod.fst⟩
  have hid : ∀ id, id ∉ t.session.cells.map Prod.snd →
      id = c.2 ∨ id ∉ s.session.cells.map Prod.snd := by
    intro id hnot
    by_contra hcon
    rw [not_or, not_not] at hcon
    obtain ⟨d, hd, rfl⟩ := List.mem_map.mp hcon.2
    refine hnot (List.mem_map_of_mem ((hmem d).mpr ⟨hd, ?_⟩))
    rintro rfl
    exact hcon.1 rfl
  have hsub : t.session.cells.Sublist s.session.cells := by
    rw [hcells]
    exact List.filter_sublist
  constructor
  · intro b
    have hcount := hs.owned b
    have hb := hown b
    unfold SessionState.listed at hcount ⊢
    rw [hlist]
    by_cases hbc : b = c.1
    · subst hbc
      have hzero : (t.session.cells.map Prod.fst).count c.1 = 0 := by
        rw [List.count_eq_zero]
        intro hcon
        obtain ⟨d, hd, heq⟩ := List.mem_map.mp hcon
        exact ((hmem d).mp hd).2 (hs.eq_of_fst ((hmem d).mp hd).1 hc heq)
      have hone := hs.owns_le c.1
      rw [if_pos rfl] at hb
      unfold SessionState.listed at hone
      omega
    · have hkeep : (t.session.cells.map Prod.fst).count b =
          (s.session.cells.map Prod.fst).count b := by
        have hmap := List.filter_map (f := Prod.fst) (p := fun x => decide (x ≠ c.1))
          (l := s.session.cells)
        rw [hcells]
        exact (congrArg (List.count b) hmap).symm.trans (List.count_filter (by simpa using hbc))
      rw [if_neg hbc] at hb
      omega
  · exact hs.addrs.sublist (hsub.map _)
  · exact hs.ids.sublist (hsub.map _)
  · intro d hd
    rw [hnum]
    exact hs.born d ((hmem d).mp hd).1
  · intro d hd st
    obtain ⟨hd, hne⟩ := (hmem d).mp hd
    rw [hother st d.2 fun h => hne (hs.eq_of_snd hd hc h),
      hpast st d.1 fun h => hne (hs.eq_of_fst hd hc h)]
    exact hs.live_le d hd st
  · intro d hd st halways
    obtain ⟨hd, hne⟩ := (hmem d).mp hd
    rw [hother st d.2 fun h => hne (hs.eq_of_snd hd hc h),
      hpast st d.1 fun h => hne (hs.eq_of_fst hd hc h)]
    exact hs.live_eq d hd st halways
  · intro id hlt hnot st
    by_cases heqid : id = c.2
    · rw [heqid]
      exact hle st
    · rw [hother st id heqid]
      exact hs.dead_le id (hnum ▸ hlt) ((hid id hnot).resolve_left heqid) st
  · intro id hlt hnot st halways
    by_cases heqid : id = c.2
    · rw [heqid]
      exact heq st halways
    · rw [hother st id heqid]
      exact hs.dead_eq id (hnum ▸ hlt) ((hid id hnot).resolve_left heqid) st halways
  · intro id hlt st
    rw [hnum] at hlt
    have hborn := hs.born c hc
    rw [hother st id (by omega)]
    exact hs.unborn id hlt st
  · intro id hmem
    rw [hnum]
    exact hs.added id (hadded id hmem)

end Ledger

/-! ## One block -/

section
variable {s : FileState} {tid : ℕ} {o : Except ℤ NewObject} {op : MemOp} {rest : List MemOp}
  {addr : ℕ} {x : RknpuMemObject}

theorem deref_some {session : SessionState} (h : session.deref addr = some x) :
    (addr, x.id) ∈ session.cells := by
  unfold SessionState.deref at h
  have haddr : x.addr = addr := by simpa using List.find?_some h
  exact List.mem_map.mpr ⟨x, List.mem_of_find?_eq_some h, by rw [haddr]⟩

theorem deref_none {session : SessionState} (h : session.deref addr = none) :
    addr ∉ session.cells.map Prod.fst := by
  unfold SessionState.deref at h
  intro hmem
  obtain ⟨c, hc, hca⟩ := List.mem_map.mp hmem
  obtain ⟨x, hx, rfl⟩ := List.mem_map.mp hc
  have hne := List.find?_eq_none.mp h x hx
  simp at hne
  exact hne hca

theorem kfree_cells (session : SessionState) (addr : ℕ) :
    (session.kfree addr).cells = session.cells.filter fun d => d.1 ≠ addr :=
  (List.filter_map (f := fun x : RknpuMemObject => (x.addr, x.id))
    (p := fun d => decide (d.1 ≠ addr))).symm

theorem torn_event (session : SessionState) (e : MemEvent) (st : Stage) (id : ℕ) :
    (session.event e).torn st id = session.torn st id + if e = .torn st id then 1 else 0 := by
  unfold SessionState.torn SessionState.event
  rw [List.count_append, List.count_singleton]
  simp only [beq_iff_eq]

theorem clearKvAddr_cells (session : SessionState) (addr : ℕ) :
    (session.clearKvAddr addr).cells = session.cells := by
  unfold SessionState.clearKvAddr SessionState.cells
  rw [List.map_map]
  apply List.map_congr_left
  intro x _
  simp only [Function.comp]
  split_ifs <;> rfl

theorem kzalloc_cells (session : SessionState) (new : NewObject) :
    (session.kzalloc new).cells = session.cells ++ [(new.addr, session.numObjs)] :=
  List.map_append

/-- The state after thread `tid` has run `op`. -/
def FileState.after (s : FileState) (tid : ℕ) (o : Except ℤ NewObject) (op : MemOp)
    (rest : List MemOp) : FileState :=
  { s with
    session := (s.session.exec tid o op).1
    threads := advance s.threads tid (s.session.exec tid o op).2 rest }

theorem weigh_after (hnext : nextBlock s.threads tid = some (op, rest)) (w : MemOp → ℕ) :
    weigh w (s.after tid o op rest).threads + w op =
      weigh w s.threads + ((s.session.exec tid o op).2.map w).sum :=
  weigh_advance hnext w _

theorem Ledger.deref_ne_none (hs : Ledger s) (addr : ℕ) (h : op ∈ pending s.threads)
    (hop : op.owns addr = 1) : s.session.deref addr ≠ none := by
  intro hnone
  have hle := le_weigh h (MemOp.owns addr)
  have hcount := hs.owned addr
  rw [List.count_eq_zero.mpr (deref_none hnone)] at hcount
  omega

theorem Ledger.create (hs : Ledger s) (hnext : nextBlock s.threads tid = some (.create, rest))
    (hunused : s.session.Unused o) : Ledger (s.after tid o .create rest) := by
  have hw := weigh_after (o := o) hnext
  cases o with
  | error e =>
    have hweigh : ∀ w : MemOp → ℕ, w .create = 0 → w (.ret e) = 0 →
        weigh w (s.after tid (.error e) .create rest).threads = weigh w s.threads := by
      intro w hcreate hret
      have h := hw w
      simp only [SessionState.exec, List.map_cons, List.map_nil, List.sum_singleton] at h
      omega
    refine hs.frame rfl rfl (fun _ _ => rfl) (fun _ h => Or.inl h) (fun a => ?_) fun st a => ?_
    · rw [hweigh _ rfl rfl]
      rfl
    · exact hweigh _ rfl rfl
  | ok new =>
    refine hs.kzalloc (a := new.addr) ?_ (kzalloc_cells _ _) rfl rfl rfl (fun b => ?_)
      fun st b => hw (MemOp.past st b)
    · intro hmem
      obtain ⟨c, hc, hca⟩ := List.mem_map.mp hmem
      obtain ⟨x, hx, rfl⟩ := List.mem_map.mp hc
      exact hunused x hx hca
    · have h := hw (MemOp.owns b)
      simp only [SessionState.exec, List.map_cons, List.map_nil, List.sum_singleton,
        MemOp.owns] at h
      simp only [eq_comm (a := b)]
      omega

theorem Ledger.quiet (hs : Ledger s) (hnext : nextBlock s.threads tid = some (op, rest))
    (hop : ∀ a, op.owns a = 0)
    (hops : ∀ y ∈ (s.session.exec tid o op).2, ∀ a, y.owns a = 0)
    (hheap : (s.session.exec tid o op).1.heap = s.session.heap)
    (hnum : (s.session.exec tid o op).1.numObjs = s.session.numObjs)
    (hlist : (s.session.exec tid o op).1.list = s.session.list)
    (hhist : (s.session.exec tid o op).1.hist = s.session.hist ∨
      ∃ e, (s.session.exec tid o op).1.hist = s.session.hist ++ [e] ∧
        (∀ st id, e ≠ .torn st id) ∧ ∀ id, e ≠ .added id) :
    Ledger (s.after tid o op rest) := by
  have hw := weigh_after (o := o) hnext
  have hzero : ∀ w : MemOp → ℕ, ∀ a, (∀ y, w y ≤ y.owns a) →
      weigh w (s.after tid o op rest).threads = weigh w s.threads := by
    intro w a hle
    have hsum : ((s.session.exec tid o op).2.map w).sum = 0 := by
      apply List.sum_eq_zero
      intro n hn
      obtain ⟨y, hy, rfl⟩ := List.mem_map.mp hn
      have hy0 := hops y hy a
      have hyle := hle y
      omega
    have h := hw w
    have hop0 := hop a
    have hople := hle op
    omega
  refine hs.frame ?_ hnum (fun st id => ?_) (fun id hid => ?_) (fun a => ?_) fun st a => ?_
  · exact congrArg (List.map fun x : RknpuMemObject => (x.addr, x.id)) hheap
  · show List.count _ (s.session.exec tid o op).1.hist = List.count _ s.session.hist
    obtain heq | ⟨e, heq, hne, -⟩ := hhist
    · rw [heq]
    · rw [heq, List.count_append, List.count_singleton, if_neg (by simpa using hne st id)]
      rfl
  · obtain heq | ⟨e, heq, -, hne⟩ := hhist
    · exact Or.inl (heq ▸ hid)
    · have hid' : MemEvent.added id ∈ s.session.hist ++ [e] := heq ▸ hid
      obtain hold | hnew := List.mem_append.mp hid'
      · exact Or.inl hold
      · exact absurd (List.mem_singleton.mp hnew).symm (hne id)
  · rw [hzero _ a fun y => le_refl _]
    show List.count a ((s.session.exec tid o op).1.list.getD []) + _ = _
    rw [hlist]
    rfl
  · exact hzero _ a fun y => y.past_le_owns st a

theorem Ledger.listAdd_some (hs : Ledger s)
    (hnext : nextBlock s.threads tid = some (.listAdd addr, rest))
    (hx : s.session.deref addr = some x) {list : List ℕ} (hlist : s.session.list = some list) :
    Ledger (s.after tid o (.listAdd addr) rest) := by
  have hw := weigh_after (o := o) hnext
  have hc := deref_some hx
  have hexec : s.session.exec tid o (.listAdd addr) =
      ({ s.session with
        list := some (list ++ [addr])
        hist := s.session.hist ++ [.added x.id] }, [.ret 0]) := by
    have hderef : ({ s.session with list := some (list ++ [addr]) } : SessionState).deref addr =
        some x := hx
    simp only [SessionState.exec, SessionState.listAdd, hlist, hderef]
    rfl
  simp only [hexec] at hw
  have hsession : (s.after tid o (.listAdd addr) rest).session =
      { s.session with
        list := some (list ++ [addr])
        hist := s.session.hist ++ [.added x.id] } := congrArg Prod.fst hexec
  refine hs.frame ?_ ?_ (fun st id => ?_) (fun id hid => ?_) (fun a => ?_) fun st a => ?_
  · rw [hsession]
    rfl
  · rw [hsession]
  · rw [hsession]
    exact torn_event s.session (.added x.id) st id
  · rw [hsession] at hid
    obtain hold | hnew := List.mem_append.mp hid
    · exact Or.inl hold
    · cases List.mem_singleton.mp hnew
      exact Or.inr (List.mem_map_of_mem hc)
  · have h := hw (MemOp.owns a)
    simp only [MemOp.owns, List.map_cons, List.map_nil, List.sum_singleton] at h
    rw [hsession]
    unfold SessionState.listed
    rw [hlist, Option.getD_some, Option.getD_some, List.count_append, List.count_singleton]
    simp only [beq_iff_eq]
    omega
  · have h := hw (MemOp.past st a)
    simpa [MemOp.past] using h

theorem Ledger.listAdd_none (hs : Ledger s)
    (hnext : nextBlock s.threads tid = some (.listAdd addr, rest))
    (hx : s.session.deref addr = some x) (hlist : s.session.list = none) :
    Ledger (s.after tid o (.listAdd addr) rest) := by
  have hw := weigh_after (o := o) hnext
  have hc := deref_some hx
  have hexec : s.session.exec tid o (.listAdd addr) =
      (s.session.errUnmapKvAddr addr, [.ret (-efault)]) := by
    simp only [SessionState.exec, SessionState.listAdd, hlist]
  simp only [hexec] at hw
  have hsession : (s.after tid o (.listAdd addr) rest).session =
      s.session.errUnmapKvAddr addr := congrArg Prod.fst hexec
  have hhist : (s.session.errUnmapKvAddr addr).hist =
      s.session.hist ++ [.torn .vunmap x.id, .torn .unmap x.id, .torn .detach x.id,
        .torn .put x.id, .torn .kfree x.id] := by
    simp only [SessionState.errUnmapKvAddr, hx]
  -- the call is the only one with the address, and has not taken the object apart
  have hzero : ∀ st, weigh (MemOp.past st addr) s.threads = 0 := by
    intro st
    have hone := hs.owns_le addr
    have howns := weigh_advance hnext (MemOp.owns addr) []
    have hpast := weigh_advance hnext (MemOp.past st addr) []
    have hle := weigh_past_le st addr (advance s.threads tid [] rest)
    simp only [MemOp.owns, MemOp.past, if_true, List.map_nil, List.sum_nil] at howns hpast
    omega
  have htorn : ∀ st id, (s.after tid o (.listAdd addr) rest).session.torn st id =
      s.session.torn st id + if id = x.id then 1 else 0 := by
    intro st id
    unfold SessionState.torn
    rw [hsession, hhist, List.count_append]
    by_cases hid : id = x.id
    · subst hid
      cases st <;> simp
    · simp [hid, Ne.symm hid]
  have hlive : ∀ st, s.session.torn st x.id = 0 := by
    intro st
    have hst : _ ≤ weigh (MemOp.past st addr) s.threads := hs.live_le _ hc st
    rw [hzero] at hst
    exact Nat.le_zero.mp hst
  refine hs.kfree hc ?_ ?_ ?_ (fun id hid => ?_) (fun st id hid => ?_) (fun st => ?_)
    (fun st _ => ?_) (fun b => ?_) fun st b hb => ?_
  · rw [hsession]
    simp only [SessionState.errUnmapKvAddr, hx]
    exact kfree_cells s.session addr
  · rw [hsession]
    simp only [SessionState.errUnmapKvAddr, hx]
    rfl
  · rw [hsession]
    simp only [SessionState.errUnmapKvAddr, hx]
    rfl
  · rw [hsession, hhist] at hid
    simpa using hid
  · rw [htorn, if_neg hid]
    rfl
  · rw [htorn, if_pos rfl, hlive]
  · rw [htorn, if_pos rfl, hlive]
  · have h := hw (MemOp.owns b)
    simp only [MemOp.owns, List.map_cons, List.map_nil, List.sum_singleton] at h
    simp only [eq_comm (a := b)]
    omega
  · have h := hw (MemOp.past st b)
    simpa [MemOp.past] using h

theorem Ledger.listAdd (hs : Ledger s)
    (hnext : nextBlock s.threads tid = some (.listAdd addr, rest)) :
    Ledger (s.after tid o (.listAdd addr) rest) := by
  obtain ⟨x, hx⟩ := Option.ne_none_iff_exists'.mp
    (hs.deref_ne_none addr (mem_pending_of_nextBlock hnext) (by simp [MemOp.owns]))
  cases hlist : s.session.list with
  | none => exact hs.listAdd_none hnext hx hlist
  | some list => exact hs.listAdd_some hnext hx hlist

theorem Ledger.destroy (hs : Ledger s)
    (hnext : nextBlock s.threads tid = some (.destroy addr, rest)) :
    Ledger (s.after tid o (.destroy addr) rest) := by
  have hw := weigh_after (o := o) hnext
  by_cases hlisted : ∃ list, s.session.list = some list ∧ addr ∈ list
  · obtain ⟨list, hlist, haddr⟩ := hlisted
    have hexec : s.session.exec tid o (.destroy addr) =
        ({ s.session with list := some (list.erase addr) }, [.teardown addr .vunmap, .ret 0]) := by
      simp only [SessionState.exec, SessionState.destroy, hlist]
      rw [if_pos haddr]
    simp only [hexec] at hw
    have hsession : (s.after tid o (.destroy addr) rest).session =
        { s.session with list := some (list.erase addr) } := congrArg Prod.fst hexec
    refine hs.frame ?_ ?_ (fun st id => ?_) (fun id hid => ?_) (fun a => ?_) fun st a => ?_
    · rw [hsession]
      rfl
    · rw [hsession]
    · rw [hsession]
      rfl
    · rw [hsession] at hid
      exact Or.inl hid
    · have h := hw (MemOp.owns a)
      have hpos := List.count_pos_iff.mpr haddr
      simp only [MemOp.owns, List.map_cons, List.map_nil, List.sum_cons, List.sum_nil] at h
      rw [hsession]
      unfold SessionState.listed
      rw [hlist, Option.getD_some, Option.getD_some, List.count_erase]
      simp only [beq_iff_eq]
      by_cases ha : addr = a
      · subst ha
        simp only [if_true] at h ⊢
        omega
      · simp only [ha, if_false] at h ⊢
        omega
    · have h := hw (MemOp.past st a)
      simpa [MemOp.past, Stage.rank] using h
  · have hexec : ∃ e, s.session.exec tid o (.destroy addr) = (s.session, [.ret e]) := by
      simp only [SessionState.exec, SessionState.destroy]
      cases hlist : s.session.list with
      | none => exact ⟨_, rfl⟩
      | some list =>
        simp only
        rw [if_neg fun haddr => hlisted ⟨list, hlist, haddr⟩]
        exact ⟨_, rfl⟩
    obtain ⟨e, hexec⟩ := hexec
    have hsession : (s.session.exec tid o (.destroy addr)).1 = s.session := congrArg Prod.fst hexec
    refine hs.quiet hnext (fun _ => rfl) (fun y hy a => ?_) (by rw [hsession]) (by rw [hsession])
      (by rw [hsession]) (Or.inl (by rw [hsession]))
    rw [hexec] at hy
    cases List.mem_singleton.mp hy
    rfl

theorem Ledger.release (hs : Ledger s) (hnext : nextBlock s.threads tid = some (.release, rest)) :
    Ledger (s.after tid o .release rest) := by
  have hw := weigh_after (o := o) hnext
  cases hlist : s.session.list with
  | none =>
    have hexec : s.session.exec tid o .release = (s.session, [.ret 0]) := by
      simp only [SessionState.exec, SessionState.release, hlist]
    have hsession : (s.session.exec tid o .release).1 = s.session := congrArg Prod.fst hexec
    refine hs.quiet hnext (fun _ => rfl) (fun y hy a => ?_) (by rw [hsession]) (by rw [hsession])
      (by rw [hsession]) (Or.inl (by rw [hsession]))
    rw [hexec] at hy
    cases List.mem_singleton.mp hy
    rfl
  | some list =>
    have hexec : s.session.exec tid o .release = ({ s.session with list := none },
        list.map (fun addr => .teardown addr .vunmap) ++ [.ret 0]) := by
      simp only [SessionState.exec, SessionState.release, hlist]
    simp only [hexec] at hw
    have hsession : (s.after tid o .release rest).session = { s.session with list := none } :=
      congrArg Prod.fst hexec
    have howns : ∀ (l : List ℕ) (a : ℕ), ((l.map fun addr => MemOp.teardown addr .vunmap).map
        (MemOp.owns a)).sum = l.count a := by
      intro l a
      induction l with
      | nil => rfl
      | cons b l ih =>
        rw [List.map_cons, List.map_cons, List.sum_cons, ih, List.count_cons, Nat.add_comm]
        simp only [MemOp.owns, beq_iff_eq]
    have hpast : ∀ st a, ((list.map fun addr => MemOp.teardown addr .vunmap).map
        (MemOp.past st a)).sum = 0 := by
      intro st a
      apply List.sum_eq_zero
      intro n hn
      simp only [List.map_map, List.mem_map] at hn
      obtain ⟨b, -, rfl⟩ := hn
      simp [MemOp.past, Stage.rank]
    refine hs.frame ?_ ?_ (fun st id => ?_) (fun id hid => ?_) (fun a => ?_) fun st a => ?_
    · rw [hsession]
      rfl
    · rw [hsession]
    · rw [hsession]
      rfl
    · rw [hsession] at hid
      exact Or.inl hid
    · have h := hw (MemOp.owns a)
      rw [List.map_append, List.sum_append, howns] at h
      rw [hsession]
      unfold SessionState.listed
      rw [hlist, Option.getD_some, Option.getD_none, List.count_nil]
      simp only [MemOp.owns, List.map_cons, List.map_nil, List.sum_singleton] at h
      omega
    · have h := hw (MemOp.past st a)
      rw [List.map_append, List.sum_append, hpast] at h
      simpa [MemOp.past] using h

theorem teardown_spec {session : SessionState} {stage : Stage} (hx : session.deref addr = some x)
    (hstage : stage ≠ .kfree) : ∃ next : Stage, next.rank = stage.rank + 1 ∧
      (session.teardown addr stage).2 = [.teardown addr next] ∧
      (session.teardown addr stage).1.cells = session.cells ∧
      (session.teardown addr stage).1.numObjs = session.numObjs ∧
      (session.teardown addr stage).1.list = session.list ∧
      ((session.teardown addr stage).1.hist = session.hist ++ [.torn stage x.id] ∨
        stage.always = false ∧ (session.teardown addr stage).1.hist = session.hist) := by
  simp only [SessionState.teardown, hx]
  cases stage with
  | vunmap =>
    refine ⟨.unmap, rfl, rfl, ?_⟩
    cases x.kvAddr with
    | true => exact ⟨clearKvAddr_cells session addr, rfl, rfl, Or.inl rfl⟩
    | false => exact ⟨rfl, rfl, rfl, Or.inr ⟨rfl, rfl⟩⟩
  | unmap => exact ⟨.detach, rfl, rfl, rfl, rfl, rfl, Or.inl rfl⟩
  | detach => exact ⟨.put, rfl, rfl, rfl, rfl, rfl, Or.inl rfl⟩
  | put =>
    refine ⟨.kfree, rfl, rfl, ?_⟩
    cases x.owner with
    | true => exact ⟨rfl, rfl, rfl, Or.inr ⟨rfl, rfl⟩⟩
    | false => exact ⟨rfl, rfl, rfl, Or.inl rfl⟩
  | kfree => exact absurd rfl hstage

theorem Stage.rank_inj {st st' : Stage} (h : st.rank = st'.rank) : st = st' := by
  cases st <;> cases st' <;> first | rfl | cases h

theorem weigh_past_kfree (addr : ℕ) (threads : List (List MemOp)) :
    weigh (MemOp.past .kfree addr) threads = 0 := by
  apply Multiset.sum_eq_zero
  intro n hn
  obtain ⟨y, -, rfl⟩ := Multiset.mem_map.mp hn
  cases y with
  | teardown b st => cases st <;> simp [MemOp.past, Stage.rank]
  | _ => rfl

/-- The last call on an object that is off its list: all stages lie behind it. -/
theorem Ledger.teardown_kfree (hs : Ledger s)
    (hnext : nextBlock s.threads tid = some (.teardown addr .kfree, rest))
    (hx : s.session.deref addr = some x) :
    Ledger (s.after tid o (.teardown addr .kfree) rest) := by
  have hw := weigh_after (o := o) hnext
  have hmem := mem_pending_of_nextBlock hnext
  have hc := deref_some hx
  have hexec : s.session.exec tid o (.teardown addr .kfree) =
      ((s.session.kfree addr).event (.torn .kfree x.id), []) := by
    simp only [SessionState.exec, SessionState.teardown, hx]
  simp only [hexec] at hw
  have hsession : (s.after tid o (.teardown addr .kfree) rest).session =
      (s.session.kfree addr).event (.torn .kfree x.id) := congrArg Prod.fst hexec
  have htorn : ∀ st id, (s.after tid o (.teardown addr .kfree) rest).session.torn st id =
      s.session.torn st id + if .torn .kfree x.id = MemEvent.torn st id then 1 else 0 := by
    intro st id
    rw [hsession]
    exact torn_event (s.session.kfree addr) _ st id
  have hpast : ∀ st : Stage, weigh (MemOp.past st addr) s.threads ≤ 1 ∧
      (st ≠ .kfree → 1 ≤ weigh (MemOp.past st addr) s.threads) := by
    intro st
    refine ⟨hs.past_le st addr, fun hne => ?_⟩
    have hle := le_weigh hmem (MemOp.past st addr)
    have hlt : st.rank < Stage.kfree.rank := by
      cases st <;> first | decide | exact absurd rfl hne
    simpa [MemOp.past, hlt] using hle
  have hlast := weigh_past_kfree addr s.threads
  have hle : ∀ st, s.session.torn st x.id ≤ weigh (MemOp.past st addr) s.threads :=
    hs.live_le _ hc
  have heq : ∀ st : Stage, st.always = true →
      s.session.torn st x.id = weigh (MemOp.past st addr) s.threads := hs.live_eq _ hc
  refine hs.kfree hc ?_ ?_ ?_ (fun id hid => ?_) (fun st id hid => ?_) (fun st => ?_)
    (fun st halways => ?_) (fun b => ?_) fun st b hb => ?_
  · rw [hsession]
    exact kfree_cells s.session addr
  · rw [hsession]
    rfl
  · rw [hsession]
    rfl
  · rw [hsession] at hid
    have hid' : MemEvent.added id ∈ s.session.hist ++ [.torn .kfree x.id] := hid
    simpa using hid'
  · rw [htorn, if_neg]
    · rfl
    · intro h
      cases h
      exact hid rfl
  · have hst := hle st
    have hone := (hpast st).1
    show SessionState.torn _ st x.id ≤ 1
    rw [htorn]
    by_cases hk : st = .kfree
    · subst hk
      rw [hlast] at hst
      rw [if_pos rfl]
      omega
    · rw [if_neg (by simp [Ne.symm hk])]
      omega
  · have hst := heq st halways
    have hone := hpast st
    show SessionState.torn _ st x.id = 1
    rw [htorn]
    by_cases hk : st = .kfree
    · subst hk
      rw [hst, hlast, if_pos rfl]
    · have hpos := hone.2 hk
      rw [if_neg (by simp [Ne.symm hk])]
      omega
  · have h := hw (MemOp.owns b)
    simp only [MemOp.owns, List.map_nil, List.sum_nil] at h
    simp only [eq_comm (a := b)]
    omega
  · have h := hw (MemOp.past st b)
    simpa [MemOp.past, Ne.symm hb] using h

/-- An earlier call: its stage joins those that lie behind the object. -/
theorem Ledger.teardown_stage {stage : Stage} (hstage : stage ≠ .kfree) (hs : Ledger s)
    (hnext : nextBlock s.threads tid = some (.teardown addr stage, rest))
    (hx : s.session.deref addr = some x) :
    Ledger (s.after tid o (.teardown addr stage) rest) := by
  have hw := weigh_after (o := o) hnext
  have hc := deref_some hx
  obtain ⟨next, hrank, hops, hcells, hnum, hlist, hhist⟩ := teardown_spec hx hstage
  have hops' : (s.session.exec tid o (.teardown addr stage)).2 = [.teardown addr next] := hops
  simp only [hops', List.map_cons, List.map_nil, List.sum_singleton] at hw
  have htorn : ∀ st id, (s.after tid o (.teardown addr stage) rest).session.torn st id =
        s.session.torn st id + (if .torn stage x.id = MemEvent.torn st id then 1 else 0) ∨
      stage.always = false ∧ (s.after tid o (.teardown addr stage) rest).session.torn st id =
        s.session.torn st id := by
    intro st id
    unfold SessionState.torn
    obtain heq | ⟨halways, heq⟩ := hhist
    · refine Or.inl ((congrArg (List.count _) heq).trans ?_)
      rw [List.count_append, List.count_singleton]
      simp only [beq_iff_eq]
    · exact Or.inr ⟨halways, congrArg (List.count _) heq⟩
  refine Ledger.tear stage hs hc hcells hnum hlist (fun id hid => ?_)
    (fun st id hother => ?_) ?_ (fun halways => ?_) (fun b => ?_) fun st b => ?_
  · obtain heq | ⟨-, heq⟩ := hhist
    · have hid' : MemEvent.added id ∈ s.session.hist ++ [.torn stage x.id] := heq ▸ hid
      simpa using hid'
    · exact heq ▸ hid
  · have hne : MemEvent.torn stage x.id ≠ .torn st id := by
      intro h
      cases h
      exact hother.elim (fun h => h rfl) fun h => h rfl
    obtain heq | ⟨-, heq⟩ := htorn st id
    · rw [heq, if_neg hne]
      rfl
    · exact heq
  · obtain heq | ⟨-, heq⟩ := htorn stage x.id
    · rw [heq, if_pos rfl]
    · rw [heq]
      exact Nat.le_succ _
  · obtain heq | ⟨hno, -⟩ := htorn stage x.id
    · rw [heq, if_pos rfl]
    · rw [halways] at hno
      cases hno
  · have h := hw (MemOp.owns b)
    simp only [MemOp.owns] at h
    omega
  · have h := hw (MemOp.past st b)
    simp only [MemOp.past, hrank] at h
    by_cases hb : b = addr
    · subst hb
      by_cases hst : st = stage
      · subst hst
        simpa using h
      · have hne : st.rank ≠ stage.rank := fun heq => hst (Stage.rank_inj heq)
        have hiff : st.rank < stage.rank + 1 ↔ st.rank < stage.rank := by omega
        simp only [hiff] at h
        rw [if_neg fun hand => hst hand.1]
        omega
    · simpa [hb, Ne.symm hb] using h

theorem Ledger.teardown {stage : Stage} (hs : Ledger s)
    (hnext : nextBlock s.threads tid = some (.teardown addr stage, rest)) :
    Ledger (s.after tid o (.teardown addr stage) rest) := by
  obtain ⟨x, hx⟩ := Option.ne_none_iff_exists'.mp
    (hs.deref_ne_none addr (mem_pending_of_nextBlock hnext) (by simp [MemOp.owns]))
  by_cases hstage : stage = .kfree
  · subst hstage
    exact hs.teardown_kfree hnext hx
  · exact hs.teardown_stage hstage hnext hx

theorem Ledger.exec (hs : Ledger s) (hnext : nextBlock s.threads tid = some (op, rest))
    (hunused : s.session.Unused o) : Ledger (s.after tid o op rest) := by
  cases op with
  | create => exact hs.create hnext hunused
  | listAdd addr => exact hs.listAdd hnext
  | destroy objAddr => exact hs.destroy hnext
  | teardown addr stage => exact hs.teardown hnext
  | release => exact hs.release hnext
  | ret ret =>
    refine hs.quiet hnext (fun _ => rfl) (fun y hy => ?_) rfl rfl rfl
      (Or.inr ⟨_, rfl, fun _ _ => by simp, fun _ => by simp⟩)
    cases hy
  | sync args =>
    have hexec : (s.session.exec tid o (.sync args)).1 = s.session ∧
        ∀ y ∈ (s.session.exec tid o (.sync args)).2, ∀ a, y.owns a = 0 := by
      simp only [SessionState.exec, SessionState.sync]
      cases s.session.list with
      | none => exact ⟨rfl, by simp [MemOp.owns]⟩
      | some list =>
        simp only
        split_ifs <;> exact ⟨rfl, by simp [MemOp.owns]⟩
    obtain ⟨hsession, hops⟩ := hexec
    exact hs.quiet hnext (fun _ => rfl) hops (by rw [hsession]) (by rw [hsession])
      (by rw [hsession]) (Or.inl (by rw [hsession]))
  | syncDir addr id offset length =>
    refine hs.quiet hnext (fun _ => rfl) (fun y hy a => ?_) rfl rfl rfl
      (Or.inr ⟨_, rfl, fun _ _ => by simp, fun _ => by simp⟩)
    cases List.mem_singleton.mp hy
    rfl
  | syncSg id sgl len offset length =>
    cases sgl with
    | nil =>
      refine hs.quiet hnext (fun _ => rfl) (fun y hy => ?_) rfl rfl rfl (Or.inl rfl)
      cases hy
    | cons sgLength sgl =>
      have hexec : (s.session.exec tid o (.syncSg id (sgLength :: sgl) len offset length)).1 =
            s.session.event (.used id) ∧
          ∀ y ∈ (s.session.exec tid o (.syncSg id (sgLength :: sgl) len offset length)).2,
            ∀ a, y.owns a = 0 := by
        simp only [SessionState.exec, SessionState.syncSg]
        split_ifs <;> exact ⟨rfl, by simp [MemOp.owns]⟩
      obtain ⟨hsession, hops⟩ := hexec
      exact hs.quiet hnext (fun _ => rfl) hops (by rw [hsession]; rfl) (by rw [hsession]; rfl)
        (by rw [hsession]; rfl)
        (Or.inr ⟨.used id, by rw [hsession]; rfl, fun _ _ => by simp, fun _ => by simp⟩)

end

/-! ## Runs -/

/-- The blocks of the release, and those every call ends with. -/
def MemOp.closing : MemOp → Bool
  | .release | .teardown _ _ | .ret _ => true
  | _ => false

/-- The blocks a call starts with. -/
def MemOp.starts : MemOp → Bool
  | .create | .destroy _ | .sync _ | .release | .ret _ => true
  | _ => false

theorem MemOp.owns_of_starts {op : MemOp} (h : op.starts = true) (a : ℕ) : op.owns a = 0 := by
  cases op <;> first | rfl | cases h

/-- The list is there as long as the file is open; after it, only the release runs. -/
structure Lifecycle (s : FileState) : Prop where
  opened : s.isOpen = true → s.session.list ≠ none ∧ .release ∉ pending s.threads
  closing : s.isOpen = false → ∀ op ∈ pending s.threads, op.closing = true
  closed : s.isOpen = false → .release ∈ pending s.threads ∨ s.session.list = none

section
variable {s t : FileState} {label : FileLabel}

theorem fileStep_exec {tid : ℕ} {o : Except ℤ NewObject}
    (h : fileStep s (.exec tid o) = some t) : ∃ op rest,
      nextBlock s.threads tid = some (op, rest) ∧ s.session.Unused o ∧
        t = s.after tid o op rest := by
  simp only [fileStep] at h
  split at h
  · cases h
  · rename_i op rest hnext
    split_ifs at h with hunused
    exact ⟨op, rest, hnext, hunused, (Option.some.inj h).symm⟩

theorem fileStep_call (hlabel : ∀ tid o, label ≠ .exec tid o) (h : fileStep s label = some t) :
    s.isOpen = true ∧ ∃ (op : MemOp) (isOpen : Bool), op.starts = true ∧
      t = { s.call op with isOpen := isOpen } ∧
      (isOpen = true ∧ op ≠ .release ∨
        isOpen = false ∧ op = .release ∧ s.threads.all List.isEmpty = true) := by
  cases label with
  | exec tid o => exact absurd rfl (hlabel tid o)
  | memCreate =>
    simp only [fileStep] at h
    split_ifs at h with hopen
    cases h
    exact ⟨hopen, .create, s.isOpen, rfl, rfl, Or.inl ⟨hopen, by simp⟩⟩
  | memDestroy args copyIn =>
    simp only [fileStep] at h
    split_ifs at h with hopen hcopy <;> cases h
    · exact ⟨hopen, _, s.isOpen, rfl, rfl, Or.inl ⟨hopen, by simp⟩⟩
    · exact ⟨hopen, _, s.isOpen, rfl, rfl, Or.inl ⟨hopen, by simp⟩⟩
  | memSync args copyIn =>
    simp only [fileStep] at h
    split_ifs at h with hopen hcopy <;> cases h
    · exact ⟨hopen, _, s.isOpen, rfl, rfl, Or.inl ⟨hopen, by simp⟩⟩
    · exact ⟨hopen, _, s.isOpen, rfl, rfl, Or.inl ⟨hopen, by simp⟩⟩
  | release =>
    simp only [fileStep] at h
    split_ifs at h with hopen
    cases h
    exact ⟨hopen.1, .release, false, rfl, rfl, Or.inr ⟨rfl, rfl, hopen.2⟩⟩

theorem ledger_step (hs : Ledger s) (h : fileStep s label = some t) : Ledger t := by
  by_cases hlabel : ∃ tid o, label = .exec tid o
  · obtain ⟨tid, o, rfl⟩ := hlabel
    obtain ⟨op, rest, hnext, hunused, rfl⟩ := fileStep_exec h
    exact hs.exec hnext hunused
  · obtain ⟨-, op, isOpen, hop, rfl, -⟩ :=
      fileStep_call (fun tid o heq => hlabel ⟨tid, o, heq⟩) h
    refine hs.frame rfl rfl (fun _ _ => rfl) (fun _ h => Or.inl h) (fun a => ?_) fun st a => ?_
    · show _ + weigh _ (s.threads ++ [[op]]) = _
      rw [weigh_spawn, List.map_singleton, List.sum_singleton,
        MemOp.owns_of_starts hop]
      rfl
    · show weigh _ (s.threads ++ [[op]]) = _
      have hle := op.past_le_owns st a
      have hzero := MemOp.owns_of_starts hop a
      rw [weigh_spawn, List.map_singleton, List.sum_singleton]
      omega

theorem pending_of_all_empty (h : s.threads.all List.isEmpty = true) : pending s.threads = 0 := by
  rw [Multiset.eq_zero_iff_forall_notMem]
  intro op hop
  obtain ⟨thread, hthread, hmem⟩ := mem_pending.mp hop
  have hempty := List.isEmpty_iff.mp (List.all_eq_true.mp h thread hthread)
  rw [hempty] at hmem
  cases hmem

/-- The list is there as long as no release runs, and does not come back after it. -/
theorem exec_list (session : SessionState) (tid : ℕ) (o : Except ℤ NewObject) (op : MemOp) :
    (op ≠ .release → ((session.exec tid o op).1.list = none ↔ session.list = none)) ∧
      (op = .release → (session.exec tid o op).1.list = none) := by
  refine ⟨fun hop => ?_, ?_⟩
  · cases op with
    | create => cases o <;> exact Iff.rfl
    | listAdd addr =>
      simp only [SessionState.exec, SessionState.listAdd]
      cases hlist : session.list with
      | none =>
        simp only [SessionState.errUnmapKvAddr]
        split <;> simp [SessionState.kfree, hlist]
      | some list =>
        simp only
        split <;> simp [SessionState.event]
    | destroy objAddr =>
      simp only [SessionState.exec, SessionState.destroy]
      cases hlist : session.list with
      | none => simp [hlist]
      | some list =>
        simp only
        split_ifs <;> simp [hlist]
    | teardown addr stage =>
      simp only [SessionState.exec, SessionState.teardown]
      cases session.deref addr with
      | none => exact Iff.rfl
      | some x =>
        cases stage with
        | vunmap | put =>
          simp only
          split_ifs <;> exact Iff.rfl
        | unmap | detach | kfree => exact Iff.rfl
    | sync args =>
      simp only [SessionState.exec, SessionState.sync]
      cases hlist : session.list with
      | none => simp [hlist]
      | some list =>
        simp only
        split_ifs <;> simp [hlist]
    | syncDir addr id offset length => exact Iff.rfl
    | syncSg id sgl len offset length =>
      cases sgl with
      | nil => exact Iff.rfl
      | cons sgLength sgl =>
        simp only [SessionState.exec, SessionState.syncSg]
        split_ifs <;> exact Iff.rfl
    | release => exact absurd rfl hop
    | ret ret => exact Iff.rfl
  · rintro rfl
    simp only [SessionState.exec, SessionState.release]
    cases hlist : session.list with
    | none => simp [hlist]
    | some list => rfl

/-- No block calls for a release, and a closing one only for closing ones. -/
theorem exec_calls (session : SessionState) (tid : ℕ) (o : Except ℤ NewObject) (op : MemOp) :
    ∀ y ∈ (session.exec tid o op).2, y ≠ .release ∧ (op.closing = true → y.closing = true) := by
  cases op with
  | create =>
    cases o <;>
    · simp [SessionState.exec, MemOp.closing]
  | listAdd addr =>
    simp only [SessionState.exec, SessionState.listAdd]
    split
    · simp [MemOp.closing]
    · split <;> simp [MemOp.closing]
  | destroy objAddr =>
    simp only [SessionState.exec, SessionState.destroy]
    split
    · simp [MemOp.closing]
    · split_ifs <;> simp [MemOp.closing]
  | teardown addr stage =>
    simp only [SessionState.exec, SessionState.teardown]
    split
    · simp
    · cases stage <;> simp [MemOp.closing]
  | sync args =>
    simp only [SessionState.exec, SessionState.sync]
    split
    · simp [MemOp.closing]
    · split_ifs <;> simp [MemOp.closing]
  | syncDir addr id offset length => simp [SessionState.exec, SessionState.syncDir, MemOp.closing]
  | syncSg id sgl len offset length =>
    cases sgl with
    | nil => simp [SessionState.exec, SessionState.syncSg]
    | cons sgLength sgl =>
      simp only [SessionState.exec, SessionState.syncSg]
      split_ifs <;> simp [MemOp.closing]
  | release =>
    simp only [SessionState.exec, SessionState.release]
    split
    · simp [MemOp.closing]
    · intro y hy
      simp only [List.mem_append, List.mem_map, List.mem_singleton] at hy
      obtain ⟨addr, -, rfl⟩ | rfl := hy <;> simp [MemOp.closing]
  | ret ret => simp [SessionState.exec]

theorem lifecycle_step (hs : Lifecycle s) (h : fileStep s label = some t) : Lifecycle t := by
  by_cases hlabel : ∃ tid o, label = .exec tid o
  · obtain ⟨tid, o, rfl⟩ := hlabel
    obtain ⟨op, rest, hnext, -, rfl⟩ := fileStep_exec h
    obtain ⟨others, hop, hadv⟩ := pending_advance hnext
    have hmem := mem_pending_of_nextBlock hnext
    have hafter : pending (s.after tid o op rest).threads =
        ((s.session.exec tid o op).2 : Multiset MemOp) + others := hadv _
    obtain ⟨hkept, hgone⟩ := exec_list s.session tid o op
    have hcalls := exec_calls s.session tid o op
    refine ⟨fun hopen => ?_, fun hclose => ?_, fun hclose => ?_⟩
    · obtain ⟨hlist, hno⟩ := hs.opened hopen
      have hne : op ≠ .release := fun heq => hno (heq ▸ hmem)
      refine ⟨fun hnone => hlist ((hkept hne).mp hnone), fun hrel => ?_⟩
      rw [hafter, Multiset.mem_add, Multiset.mem_coe] at hrel
      obtain hrel | hrel := hrel
      · exact (hcalls _ hrel).1 rfl
      · rw [hop] at hno
        exact hno (Multiset.mem_cons_of_mem hrel)
    · intro y hy
      have hall := hs.closing hclose
      rw [hafter, Multiset.mem_add, Multiset.mem_coe] at hy
      obtain hy | hy := hy
      · exact (hcalls y hy).2 (hall op hmem)
      · rw [hop] at hall
        exact hall y (Multiset.mem_cons_of_mem hy)
    · by_cases hrel : op = .release
      · exact Or.inr (hgone hrel)
      · have hold := hs.closed hclose
        rw [hop, Multiset.mem_cons] at hold
        obtain (heq | hin) | hnone := hold
        · exact absurd heq.symm hrel
        · refine Or.inl ?_
          rw [hafter]
          exact Multiset.mem_add.mpr (Or.inr hin)
        · exact Or.inr ((hkept hrel).mpr hnone)
  · obtain ⟨hopen, op, isOpen, hop, rfl, hcase⟩ :=
      fileStep_call (fun tid o heq => hlabel ⟨tid, o, heq⟩) h
    obtain ⟨hlist, hno⟩ := hs.opened hopen
    have hpending : pending (s.threads ++ [[op]]) = pending s.threads + {op} := pending_spawn _ _
    obtain ⟨rfl, hne⟩ | ⟨rfl, rfl, hempty⟩ := hcase
    · refine ⟨fun _ => ⟨hlist, fun hrel => ?_⟩, fun hclose => ?_, fun hclose => ?_⟩
      · have hrel' : MemOp.release ∈ pending (s.threads ++ [[op]]) := hrel
        rw [hpending, Multiset.mem_add, Multiset.mem_singleton] at hrel'
        exact hrel'.elim hno fun heq => hne heq.symm
      · cases hclose
      · cases hclose
    · refine ⟨fun hclose => ?_, fun _ y hy => ?_, fun _ => Or.inl ?_⟩
      · cases hclose
      · have hy' : y ∈ pending (s.threads ++ [[MemOp.release]]) := hy
        rw [hpending, pending_of_all_empty hempty, zero_add, Multiset.mem_singleton] at hy'
        rw [hy']
        rfl
      · show MemOp.release ∈ pending (s.threads ++ [[MemOp.release]])
        rw [hpending]
        simp

theorem ledger (hs : fileSystem.Reachable s) : Ledger s ∧ Lifecycle s := by
  refine hs.invariant (fun s => Ledger s ∧ Lifecycle s) ?_ fun s label t hs h => ?_
  · rintro s rfl
    refine ⟨⟨fun a => rfl, List.nodup_nil, List.nodup_nil, fun c hc => ?_, fun c hc => ?_,
      fun c hc => ?_, fun id hid => ?_, fun id hid => ?_, fun id _ stage => rfl, fun id hid => ?_⟩,
      ⟨fun _ => ⟨by simp, by simp⟩, fun h => ?_, fun h => ?_⟩⟩
    · cases hc
    · cases hc
    · cases hc
    · exact absurd hid (Nat.not_lt_zero id)
    · exact absurd hid (Nat.not_lt_zero id)
    · cases hid
    · cases h
    · cases h
  · exact ⟨ledger_step hs.1 h, lifecycle_step hs.2 h⟩

theorem Ledger.torn_le (hs : Ledger s) (stage : Stage) (id : ℕ) : s.session.torn stage id ≤ 1 := by
  by_cases hborn : id < s.session.numObjs
  · by_cases hmem : id ∈ s.session.cells.map Prod.snd
    · obtain ⟨c, hc, rfl⟩ := List.mem_map.mp hmem
      exact Nat.le_trans (hs.live_le c hc stage) (hs.past_le stage c.1)
    · exact hs.dead_le id hborn hmem stage
  · rw [hs.unborn id (by omega)]
    exact Nat.zero_le 1

theorem Ledger.finished (hs : Ledger s) (hlife : Lifecycle s) (h : s.Finished) :
    s.session.cells = [] := by
  have hpending := pending_of_all_empty h.2
  have hlist : s.session.list = none := by
    obtain hrel | hnone := hlife.closed h.1
    · rw [hpending] at hrel
      exact absurd hrel (Multiset.notMem_zero _)
    · exact hnone
  rw [List.eq_nil_iff_forall_not_mem]
  intro c hc
  have hcount := hs.owned c.1
  have hpos := List.count_pos_iff.mpr (List.mem_map_of_mem (f := Prod.fst) hc)
  unfold SessionState.listed weigh at hcount
  rw [hlist, hpending] at hcount
  simp only [Option.getD_none, List.count_nil, Multiset.map_zero, Multiset.sum_zero] at hcount
  omega

end

/-- **Exactly-once teardown**: the list holds no object twice, no object is unmapped, detached or
freed twice, and when the release has finished, every object that was listed has been once. A
MEM_DESTROY with an address that is not on the list returns `-EINVAL` and changes nothing. -/
theorem torn_down_once {s : FileState} (hs : fileSystem.Reachable s) :
    s.session.listed.Nodup ∧ (∀ stage id, s.session.torn stage id ≤ 1) ∧
      (s.Finished → ∀ id, .added id ∈ s.session.hist → ∀ stage : Stage, stage.always = true →
        s.session.torn stage id = 1) ∧
      ∀ tid objAddr rest, nextBlock s.threads tid = some (.destroy objAddr, rest) →
        objAddr ∉ s.session.listed → ∀ o,
          s.session.exec tid o (.destroy objAddr) = (s.session, [.ret (-einval)]) := by
  obtain ⟨hledger, hlife⟩ := ledger hs
  refine ⟨hledger.listed_nodup, hledger.torn_le, fun hfin id hid stage halways => ?_, ?_⟩
  · apply hledger.dead_eq id (hledger.added id hid) _ stage halways
    rw [hledger.finished hlife hfin]
    exact List.not_mem_nil
  · intro tid objAddr rest hnext hno o
    have hmem := mem_pending_of_nextBlock hnext
    have hopen : s.isOpen = true := by
      by_contra hclosed
      exact Bool.false_ne_true (hlife.closing (by simpa using hclosed) _ hmem)
    obtain ⟨list, hlist⟩ := Option.ne_none_iff_exists'.mp (hlife.opened hopen).1
    simp only [SessionState.listed, hlist, Option.getD_some] at hno
    simp only [SessionState.exec, SessionState.destroy, hlist]
    rw [if_neg hno]

instance (s : FileState) : Decidable s.Finished :=
  inferInstanceAs (Decidable (_ ∧ _))

/-- Two destroys of one object, a second object at its address, and the release. -/
theorem torn_down_once_reused : ∃ s, fileSystem.Reachable s ∧ s.Finished ∧
    .added 1 ∈ s.session.hist ∧ s.session.torn .unmap 1 = 1 ∧ s.session.torn .kfree 1 = 1 := by
  obtain ⟨s, hs, h⟩ := System.Reachable.of_run_any (S := fileSystem)
    (p := fun s => decide (s.Finished ∧ .added 1 ∈ s.session.hist))
    (l := [.memCreate, .exec 0 (.ok ⟨100, true, false, [4096]⟩), .exec 0 (.error 0),
      .exec 0 (.error 0), .memDestroy ⟨0, 0, 100⟩ true, .memDestroy ⟨0, 0, 100⟩ true,
      .exec 1 (.error 0), .exec 2 (.error 0), .exec 1 (.error 0), .exec 1 (.error 0),
      .exec 1 (.error 0), .exec 1 (.error 0), .exec 1 (.error 0), .exec 1 (.error 0),
      .exec 2 (.error 0), .memCreate, .exec 3 (.ok ⟨100, false, true, [4096]⟩),
      .exec 3 (.error 0), .exec 3 (.error 0), .release, .exec 4 (.error 0), .exec 4 (.error 0),
      .exec 4 (.error 0), .exec 4 (.error 0), .exec 4 (.error 0), .exec 4 (.error 0),
      .exec 4 (.error 0)]) rfl (by decide +kernel)
  obtain ⟨hfin, hadded⟩ := of_decide_eq_true h
  obtain ⟨-, -, honce, -⟩ := torn_down_once hs
  exact ⟨s, hs, hfin, hadded, honce hfin 1 hadded .unmap rfl, honce hfin 1 hadded .kfree rfl⟩

end RknpuDriver.Session
