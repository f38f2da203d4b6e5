import RknpuDriver.Devfreq.Cap
import RknpuDriver.Power.Manual
import RknpuDriver.Lib.CString
import Mathlib.Data.List.TakeWhile

/-! # Text written to the nodes of `rknpu_debugger.c`

The `write` functions of the nodes `power`, `delayms`, `freq` and `reset` copy the text to a
buffer on the stack and put a NUL at its last byte, `buf[len - 1]`. They differ in the size of
the buffer and in what they do with the string in it. `stack` are the bytes from the buffer
upwards before the call; indices count from the buffer, so that `-1` is the byte below it.

* `controlNodeSet`: the common part, and the four functions as cases of it.
* `touched_inside_iff`: the accesses stay in the buffer unless nothing was written.
* `node_text_iff`: the texts that mean what they say.
-/

namespace RknpuDriver.Debugger
open RknpuDriver.Lib RknpuDriver.Devfreq RknpuDriver.Power
set_option autoImplicit false

/-- What the functions read of `struct rknpu_device`; `clkRate` is the rate of `clks[0]`. -/
structure NodeDev where
  powerRefcount : ℤ
  devfreq : Bool
  clkRate : ℕ
  deriving DecidableEq, Repr

inductive NodeAction where
  | power (op : ManualOp)
  | setPowerPutDelay (ms : ℕ)
  | setOndemandFreq (freq : ℕ)
  | updateDevfreq
  | softReset
  | logError (text : String)
  deriving DecidableEq, Repr

/-- A call: what it returns, the bytes it touches and what it does. -/
structure NodeCall where
  ret : ℤ
  touched : List ℤ
  actions : List NodeAction
  deriving DecidableEq, Repr

/-- What a function does with its buffer: it reads the first `reads` bytes. -/
structure Handled where
  reads : ℕ
  ret : ℤ
  actions : List NodeAction

/-- The first `n` bytes of the buffer. -/
def firstBytes (n : ℕ) : List ℤ := (List.range n).map Int.ofNat

/-- The buffer after the copy and `buf[len - 1] = '\0'`; without text the NUL goes to the byte
below. -/
def terminated (stack text : List Char) : List Char :=
  if text = [] then stack
  else (text ++ stack.drop text.length).set (text.length - 1) nul

/-- The `write` functions, with a buffer of `size` bytes; `fault` is a failing `copy_from_user`. -/
def controlNodeSet (size : ℕ) (handle : NodeDev → List Char → ℕ → Handled)
    (dev : Option NodeDev) (stack text : List Char) (fault : Bool) : NodeCall :=
  match dev with
  | none => ⟨-enodev, [], []⟩
  | some dev =>
    if size - 1 < text.length then ⟨-einval, [], []⟩
    else if fault && !text.isEmpty then ⟨-efault, firstBytes text.length, []⟩
    else
      let handled := handle dev (terminated stack text) text.length
      ⟨handled.ret, firstBytes text.length ++ ((text.length : ℤ) - 1) :: firstBytes handled.reads,
        handled.actions⟩

/-- `rknpu_power_set` after the NUL. -/
def powerText (_ : NodeDev) (buf : List Char) (len : ℕ) : Handled :=
  let on := ['o', 'n']
  let off := ['o', 'f', 'f']
  if sameString buf on then ⟨compared buf (on ++ [nul]), len, (rknpuPowerSet true).map .power⟩
  else
    let reads := max (compared buf (on ++ [nul])) (compared buf (off ++ [nul]))
    if sameString buf off then ⟨reads, len, (rknpuPowerSet false).map .power⟩
    else ⟨reads, len, [.logError "RKNPU: rknpu power node params is invalid!"]⟩

/-- `rknpu_power_put_delay_set` after the NUL. The string is read to its end, by `kstrtoul` or
for the message. -/
def delayText (_ : NodeDev) (buf : List Char) (len : ℕ) : Handled :=
  let s := cString buf
  match kstrtoul s with
  | .error _ =>
    ⟨s.length + 1, -efault, [.logError
      ("RKNPU: failed to parse power put delay string: " ++ String.ofList s ++ "\n")]⟩
  | .ok ms => ⟨s.length + 1, len, [.setPowerPutDelay ms]⟩

/-- What `rknpu_freq_set` does to have the clock run at `freq`. -/
def requestFreq (dev : NodeDev) (freq : ℕ) : List NodeAction :=
  let update := if freq ≠ dev.clkRate then [.setOndemandFreq freq, .updateDevfreq] else []
  .power (.user .get) :: update ++ [.power (.user .put)]

/-- `rknpu_freq_set` after the NUL. -/
def freqText (dev : NodeDev) (buf : List Char) (len : ℕ) : Handled :=
  let s := cString buf
  match kstrtoul s with
  | .error _ =>
    ⟨s.length + 1, -efault, [.logError
      ("RKNPU: failed to parse freq string: " ++ String.ofList s ++ "\n")]⟩
  | .ok freq =>
    if !dev.devfreq then ⟨s.length + 1, -efault, []⟩
    else ⟨s.length + 1, len, requestFreq dev freq⟩

/-- `rknpu_reset_set` after the NUL. -/
def resetText (dev : NodeDev) (buf : List Char) (len : ℕ) : Handled :=
  let reads := compared buf ['1', nul]
  if sameString buf ['1'] && decide (0 < dev.powerRefcount) then ⟨reads, len, [.softReset]⟩
  else ⟨reads, len, []⟩

def rknpuPowerSetText := controlNodeSet 8 powerText

def rknpuPowerPutDelaySet := controlNodeSet 16 delayText

def rknpuFreqSet := controlNodeSet 16 freqText

def rknpuResetSet := controlNodeSet 8 resetText

/-! ## The buffer -/

section
variable {stack text : List Char}

theorem terminated_eq (h : text ≠ []) :
    terminated stack text = text.dropLast ++ nul :: stack.drop text.length := by
  obtain ⟨init, last, rfl⟩ := (List.eq_nil_or_concat text).resolve_left h
  unfold terminated
  rw [if_neg h, List.concat_eq_append, List.length_append, List.length_singleton,
    Nat.add_sub_cancel, List.append_assoc, List.set_append_right _ _ (Nat.le_refl _),
    Nat.sub_self, List.dropLast_concat]
  rfl

theorem cString_terminated (h : text ≠ []) (hnul : nul ∉ text.dropLast) :
    cString (terminated stack text) = text.dropLast := by
  rw [terminated_eq h, cString_append hnul]

/-- The functions read no further than the NUL. -/
def StopsAtNul (handle : NodeDev → List Char → ℕ → Handled) : Prop :=
  ∀ dev s rest len, nul ∉ s → (handle dev (s ++ nul :: rest) len).reads ≤ s.length + 1

theorem powerText_stops : StopsAtNul powerText := by
  intro dev s rest len hs
  have hon := compared_le s rest ['o', 'n'] (by decide)
  have hoff := compared_le s rest ['o', 'f', 'f'] (by decide)
  unfold powerText
  dsimp only
  split_ifs
  · exact hon
  · exact max_le hon hoff
  · exact max_le hon hoff

theorem delayText_stops : StopsAtNul delayText := by
  intro dev s rest len hs
  simp only [delayText, cString_append hs]
  split <;> exact Nat.le_refl _

theorem freqText_stops : StopsAtNul freqText := by
  intro dev s rest len hs
  simp only [freqText, cString_append hs]
  split
  · exact Nat.le_refl _
  · split_ifs <;> exact Nat.le_refl _

theorem resetText_stops : StopsAtNul resetText := by
  intro dev s rest len hs
  have hone := compared_le s rest ['1'] (by decide)
  unfold resetText
  dsimp only
  split_ifs <;> exact hone

theorem mem_firstBytes {n : ℕ} {i : ℤ} : i ∈ firstBytes n ↔ 0 ≤ i ∧ i < n := by
  unfold firstBytes
  rw [List.mem_map]
  constructor
  · rintro ⟨k, hk, rfl⟩
    have hlt := List.mem_range.mp hk
    exact ⟨Int.natCast_nonneg k, Int.ofNat_lt.mpr hlt⟩
  · rintro ⟨hpos, hlt⟩
    exact ⟨i.toNat, List.mem_range.mpr (by omega), Int.toNat_of_nonneg hpos⟩

/-- **The accesses to the buffer** stay inside it for every text but the empty one, for which the
NUL is written below the buffer. -/
theorem touched_inside_iff {size : ℕ} (hsize : 0 < size)
    {handle : NodeDev → List Char → ℕ → Handled} (hstops : StopsAtNul handle) (dev : NodeDev)
    (stack text : List Char) :
    (∀ fault, ∀ i ∈ (controlNodeSet size handle (some dev) stack text fault).touched,
      0 ≤ i ∧ i < size) ↔ text ≠ [] := by
  constructor
  · rintro h rfl
    have hbelow := h false (-1) (by simp [controlNodeSet])
    omega
  · intro hne fault i hi
    obtain ⟨s, rest, hbuf, hs, hle⟩ := exists_string text.dropLast (stack.drop text.length)
    have hreads := hstops dev s rest text.length hs
    rw [← hbuf, ← terminated_eq hne] at hreads
    have hpos := List.length_pos_iff.mpr hne
    have hdrop := @List.length_dropLast _ text
    unfold controlNodeSet at hi
    dsimp only at hi
    split_ifs at hi with hlong hfault
    · cases hi
    · have hcopied := mem_firstBytes.mp hi
      omega
    · simp only [List.mem_append, List.mem_cons, mem_firstBytes] at hi
      omega

end

/-! ## Numbers -/

theorem kstrtoul_digits {d : List Char} (hne : d ≠ []) (hd : Digits d)
    (hlt : decimalValue d < 2 ^ 64) : kstrtoul d = .ok (decimalValue d) := by
  have hplus : d.head? ≠ some '+' := by
    intro hhead
    have hdigit := hd '+' (List.mem_of_head? hhead)
    exact absurd hdigit (by decide)
  have htake : d.takeWhile Char.isDigit = d := List.takeWhile_eq_self_iff.mpr hd
  have hdrop : d.dropWhile Char.isDigit = [] := List.dropWhile_eq_nil_iff.mpr hd
  simp only [kstrtoul, if_neg hplus, htake, hdrop, foldl_digits, if_neg (Nat.not_le_of_lt hlt),
    if_neg hne, true_or, if_true]

/-- The writes of the number `d`: its digits, with or without a newline. -/
structure Writes (text d : List Char) : Prop where
  some_digit : d ≠ []
  digits : Digits d
  spelled : text = d ∨ text = d ++ ['\n']
  fits : text.length < 16

theorem decimalValue_fits {d : List Char} (hd : Digits d) (hlen : d.length < 16) :
    decimalValue d < 2 ^ 64 := by
  have hpow : 10 ^ d.length ≤ 10 ^ 15 := Nat.pow_le_pow_right (by decide) (by omega)
  have hlt := decimalValue_lt hd
  omega

theorem dropLast_writes {text d : List Char} (h : Writes text d) : nul ∉ text.dropLast := by
  have hd := nul_notMem_digits h.digits
  obtain htext | htext := h.spelled
  · rw [htext]
    exact fun hmem => hd (List.mem_of_mem_dropLast hmem)
  · rw [htext, List.dropLast_concat]
    exact hd

/-- **What a number is read as**: with a newline as itself; without one as itself just when it is
a row of at least two zeros. -/
theorem kstrtoul_written {stack text d : List Char} (h : Writes text d) :
    kstrtoul (cString (terminated stack text)) = .ok (decimalValue d) ↔
      (Digits text → 2 ≤ text.length ∧ ∀ c ∈ text, c = '0') := by
  have hpos := List.length_pos_iff.mpr h.some_digit
  have hfits := h.fits
  have hnul := dropLast_writes h
  obtain htext | htext := h.spelled
  · subst htext
    rw [cString_terminated h.some_digit hnul, forall_prop_of_true h.digits]
    have hdrop : Digits text.dropLast := fun c hc => h.digits c (List.mem_of_mem_dropLast hc)
    have hlen := @List.length_dropLast _ text
    by_cases hone : text.dropLast = []
    · rw [hone, List.length_nil] at hlen
      constructor
      · rw [hone]
        intro hok
        cases hok
      · rintro ⟨htwo, -⟩
        omega
    · have hlong := List.length_pos_iff.mpr hone
      rw [kstrtoul_digits hone hdrop (decimalValue_fits hdrop (by omega)), Except.ok.injEq,
        decimalValue_dropLast_iff h.some_digit, decimalValue_eq_zero h.digits]
      exact ⟨fun hzero => ⟨by omega, hzero⟩, fun hcond => hcond.2⟩
  · have hne : text ≠ [] := by simp [htext]
    have hlen : d.length < 16 := by
      rw [htext, List.length_append, List.length_singleton] at hfits
      omega
    refine iff_of_true ?_ fun hdigits => ?_
    · rw [cString_terminated hne hnul, htext, List.dropLast_concat]
      exact kstrtoul_digits h.some_digit h.digits (decimalValue_fits h.digits hlen)
    · exact absurd (hdigits '\n' (by simp [htext])) (by decide)

/-! ## The texts that mean what they say -/

/-- The control nodes, with the size of the buffer and the `write` function of each. -/
inductive ControlNode where
  | power
  | delayms
  | freq
  | reset
  deriving DecidableEq, Repr

def ControlNode.size : ControlNode → ℕ
  | .power | .reset => 8
  | .delayms | .freq => 16

def ControlNode.write : ControlNode → Option NodeDev → List Char → List Char → Bool → NodeCall
  | .power => rknpuPowerSetText
  | .delayms => rknpuPowerPutDelaySet
  | .freq => rknpuFreqSet
  | .reset => rknpuResetSet

/-- The words of the power node. -/
def word (on : Bool) : List Char := if on then ['o', 'n'] else ['o', 'f', 'f']

/-- A write of `text` does what it says, at every node, and touches nothing but the buffer. -/
structure Means (dev : NodeDev) (stack text : List Char) : Prop where
  delayms : ∀ d, Writes text d →
    (rknpuPowerPutDelaySet (some dev) stack text false).ret = text.length ∧
      (rknpuPowerPutDelaySet (some dev) stack text false).actions =
        [.setPowerPutDelay (decimalValue d)]
  freq : ∀ d, Writes text d → dev.devfreq = true →
    (rknpuFreqSet (some dev) stack text false).ret = text.length ∧
      (rknpuFreqSet (some dev) stack text false).actions = requestFreq dev (decimalValue d)
  power : ∀ on, text = word on ∨ text = word on ++ ['\n'] →
    (rknpuPowerSetText (some dev) stack text false).ret = text.length ∧
      (rknpuPowerSetText (some dev) stack text false).actions = (rknpuPowerSet on).map .power
  inside : ∀ (node : ControlNode) fault,
    ∀ i ∈ (node.write (some dev) stack text fault).touched, 0 ≤ i ∧ i < node.size

/-- Some text was written, and it ends with a byte that may be dropped: it is no number but a row
of at least two zeros, and no word of the power node. -/
structure Expendable (text : List Char) : Prop where
  some_text : text ≠ []
  number : Digits text → text.length < 16 → 2 ≤ text.length ∧ ∀ c ∈ text, c = '0'
  power : ∀ on, text ≠ word on

section
variable {dev : NodeDev} {stack text : List Char}

theorem inside_iff : (∀ (node : ControlNode) fault,
    ∀ i ∈ (node.write (some dev) stack text fault).touched, 0 ≤ i ∧ i < node.size) ↔
      text ≠ [] := by
  constructor
  · intro h
    exact (touched_inside_iff (by decide) delayText_stops dev stack text).mp (h .delayms)
  · intro hne node
    cases node with
    | power => exact (touched_inside_iff (by decide) powerText_stops dev stack text).mpr hne
    | delayms => exact (touched_inside_iff (by decide) delayText_stops dev stack text).mpr hne
    | freq => exact (touched_inside_iff (by decide) freqText_stops dev stack text).mpr hne
    | reset => exact (touched_inside_iff (by decide) resetText_stops dev stack text).mpr hne

theorem controlNodeSet_fits {size : ℕ} (hfits : text.length < size)
    (handle : NodeDev → List Char → ℕ → Handled) :
    (controlNodeSet size handle (some dev) stack text false).ret =
        (handle dev (terminated stack text) text.length).ret ∧
      (controlNodeSet size handle (some dev) stack text false).actions =
        (handle dev (terminated stack text) text.length).actions := by
  have hlong : ¬size - 1 < text.length := by omega
  simp [controlNodeSet, hlong]

theorem delayms_iff (hfits : text.length < 16) (ms : ℕ) :
    ((rknpuPowerPutDelaySet (some dev) stack text false).ret = text.length ∧
        (rknpuPowerPutDelaySet (some dev) stack text false).actions = [.setPowerPutDelay ms]) ↔
      kstrtoul (cString (terminated stack text)) = .ok ms := by
  obtain ⟨hret, hactions⟩ := @controlNodeSet_fits dev stack text _ hfits delayText
  unfold rknpuPowerPutDelaySet
  rw [hret, hactions]
  cases hread : kstrtoul (cString (terminated stack text)) <;> simp [delayText, hread]

theorem requestFreq_of_ok (hfits : text.length < 16) (hdev : dev.devfreq = true) {freq : ℕ}
    (hok : kstrtoul (cString (terminated stack text)) = .ok freq) :
    (rknpuFreqSet (some dev) stack text false).ret = text.length ∧
      (rknpuFreqSet (some dev) stack text false).actions = requestFreq dev freq := by
  obtain ⟨hret, hactions⟩ := @controlNodeSet_fits dev stack text _ hfits freqText
  unfold rknpuFreqSet
  rw [hret, hactions]
  simp [freqText, hok, hdev]

theorem powerText_string {s : List Char} (hs : nul ∉ s) (rest : List Char) (len : ℕ) :
    (powerText dev (s ++ nul :: rest) len).ret = len ∧
      (powerText dev (s ++ nul :: rest) len).actions =
        if s = word true then (rknpuPowerSet true).map .power
        else if s = word false then (rknpuPowerSet false).map .power
        else [.logError "RKNPU: rknpu power node params is invalid!"] := by
  have hon : sameString (s ++ nul :: rest) ['o', 'n'] = true ↔ s = word true :=
    sameString_append hs (by decide)
  have hoff : sameString (s ++ nul :: rest) ['o', 'f', 'f'] = true ↔ s = word false :=
    sameString_append hs (by decide)
  simp only [powerText, hon, hoff]
  split_ifs <;> exact ⟨rfl, rfl⟩

theorem word_ne_nil (on : Bool) : word on ≠ [] := by cases on <;> decide

theorem nul_notMem_word (on : Bool) : nul ∉ word on := by cases on <;> decide

theorem length_word (on : Bool) : (word on).length < 4 := by cases on <;> decide

theorem power_newline {on : Bool} (htext : text = word on ++ ['\n']) :
    (rknpuPowerSetText (some dev) stack text false).ret = text.length ∧
      (rknpuPowerSetText (some dev) stack text false).actions =
        (rknpuPowerSet on).map .power := by
  have hne : text ≠ [] := by simp [htext]
  have hfits : text.length < 8 := by
    rw [htext, List.length_append, List.length_singleton]
    have hlen := length_word on
    omega
  obtain ⟨hret, hactions⟩ := @controlNodeSet_fits dev stack text _ hfits powerText
  rw [terminated_eq hne, htext, List.dropLast_concat] at hret hactions
  obtain ⟨hlen, hdone⟩ := @powerText_string dev _ (nul_notMem_word on)
    (stack.drop (word on ++ ['\n']).length) (word on ++ ['\n']).length
  unfold rknpuPowerSetText
  rw [htext]
  refine ⟨hret.trans hlen, hactions.trans (hdone.trans ?_)⟩
  cases on <;> decide

/-- Without a newline the last letter of a word is lost, and the node does not know the rest. -/
theorem power_cut {on : Bool} (htext : text = word on) :
    (rknpuPowerSetText (some dev) stack text false).actions =
      [.logError "RKNPU: rknpu power node params is invalid!"] := by
  have hne : text ≠ [] := htext ▸ word_ne_nil on
  have hfits : text.length < 8 := by
    rw [htext]
    exact (length_word on).trans (by decide)
  have hnul : nul ∉ (word on).dropLast :=
    fun hmem => nul_notMem_word on (List.mem_of_mem_dropLast hmem)
  obtain ⟨-, hactions⟩ := @controlNodeSet_fits dev stack text _ hfits powerText
  rw [terminated_eq hne, htext] at hactions
  unfold rknpuPowerSetText
  rw [htext]
  refine hactions.trans ((@powerText_string dev _ hnul _ _).2.trans ?_)
  cases on <;> decide

end

/-- **The texts that mean what they say**: those whose last byte may be dropped. -/
theorem node_text_iff (dev : NodeDev) (stack text : List Char) :
    Means dev stack text ↔ Expendable text := by
  constructor
  · rintro ⟨hdelay, -, hpower, hinside⟩
    have hne : text ≠ [] := inside_iff.mp hinside
    refine ⟨hne, fun hdigits hfits => ?_, fun on htext => ?_⟩
    · have hwrites : Writes text text := ⟨hne, hdigits, Or.inl rfl, hfits⟩
      have hread := (delayms_iff hfits (decimalValue text)).mp (hdelay text hwrites)
      exact (kstrtoul_written hwrites).mp hread hdigits
    · have hactions := (hpower on (Or.inl htext)).2
      rw [power_cut htext] at hactions
      cases on <;> cases hactions
  · rintro ⟨hne, hnumber, hword⟩
    have hread : ∀ d, Writes text d →
        kstrtoul (cString (terminated stack text)) = .ok (decimalValue d) :=
      fun d hd => (kstrtoul_written hd).mpr fun hdigits => hnumber hdigits hd.fits
    refine ⟨fun d hd => ?_, fun d hd hdev => ?_, fun on htext => ?_, inside_iff.mpr hne⟩
    · exact (delayms_iff hd.fits _).mpr (hread d hd)
    · exact requestFreq_of_ok hd.fits hdev (hread d hd)
    · obtain htext | htext := htext
      · exact absurd htext (hword on)
      · exact power_newline htext

/-- **A dropped digit**: `500` without a newline sets a delay of 50 ms, `on` is not known without
its newline, and a write of nothing puts a NUL below the buffer. -/
theorem node_text_cut :
    (rknpuPowerPutDelaySet (some ⟨0, true, 600000000⟩) [] ['5', '0', '0'] false).actions =
        [.setPowerPutDelay 50] ∧
      (rknpuPowerSetText (some ⟨0, true, 600000000⟩) [] ['o', 'n'] false).actions =
        [.logError "RKNPU: rknpu power node params is invalid!"] ∧
      -1 ∈ (rknpuPowerPutDelaySet (some ⟨0, true, 600000000⟩) [] [] false).touched ∧
      ¬Means ⟨0, true, 600000000⟩ [] ['5', '0', '0'] := by
  refine ⟨by decide, by decide, by decide, fun h => ?_⟩
  have hactions := (h.delayms ['5', '0', '0'] ⟨by decide, by decide, Or.inl rfl, by decide⟩).2
  exact absurd hactions (by decide)

end RknpuDriver.Debugger
