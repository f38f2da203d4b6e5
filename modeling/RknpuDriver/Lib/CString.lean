import Mathlib.Data.List.Induction
import Mathlib.Data.Nat.Digits.Defs
import Mathlib.Tactic.Ring

/-! # C strings and decimal numbers

A C string in a buffer is what comes before the first NUL. `compared` is how many bytes of the
buffer `strcmp` reads: up to the first difference, or through the NUL. `decimalValue` is the
number that a string of digits denotes, most significant digit first.
-/

namespace RknpuDriver.Lib
set_option autoImplicit false

abbrev nul : Char := '\x00'

/-- The string that starts the buffer. -/
def cString (buf : List Char) : List Char := buf.takeWhile (· ≠ nul)

/-- Whether `strcmp` of the buffer and a literal is zero. -/
def sameString (buf text : List Char) : Bool := (text ++ [nul]).isPrefixOf buf

/-- How many bytes of the buffer a comparison with a literal, NUL included, reads. -/
def compared : List Char → List Char → ℕ
  | _, [] => 0
  | [], _ :: _ => 1
  | b :: buf, c :: text => if b = c then compared buf text + 1 else 1

section
variable {s rest text : List Char}

theorem cString_append (h : nul ∉ s) : cString (s ++ nul :: rest) = s := by
  unfold cString
  rw [List.takeWhile_append_of_pos]
  · simp
  · intro c hc
    exact decide_eq_true fun heq => h (heq ▸ hc)

theorem exists_string (l rest : List Char) :
    ∃ s rest', l ++ nul :: rest = s ++ nul :: rest' ∧ nul ∉ s ∧ s.length ≤ l.length := by
  induction l with
  | nil => exact ⟨[], rest, rfl, List.not_mem_nil, Nat.le_refl _⟩
  | cons c l ih =>
    by_cases hc : c = nul
    · exact ⟨[], l ++ nul :: rest, by rw [hc]; rfl, List.not_mem_nil, Nat.zero_le _⟩
    · obtain ⟨s, rest', heq, hs, hle⟩ := ih
      refine ⟨c :: s, rest', by rw [List.cons_append, heq]; rfl, ?_, Nat.succ_le_succ hle⟩
      rw [List.mem_cons, not_or]
      exact ⟨fun h => hc h.symm, hs⟩

theorem sameString_append (hs : nul ∉ s) (htext : nul ∉ text) :
    sameString (s ++ nul :: rest) text = true ↔ s = text := by
  unfold sameString
  rw [List.isPrefixOf_iff_prefix]
  constructor
  · rintro ⟨tail, htail⟩
    have hstrings := congrArg cString htail
    rw [List.append_assoc, List.singleton_append, cString_append htext, cString_append hs]
      at hstrings
    exact hstrings.symm
  · rintro rfl
    exact ⟨rest, by simp⟩

/-- A comparison reads no further than the NUL of the buffer. -/
theorem compared_le (s rest text : List Char) (htext : nul ∉ text) :
    compared (s ++ nul :: rest) (text ++ [nul]) ≤ s.length + 1 := by
  induction s generalizing text with
  | nil =>
    cases text with
    | nil => simp [compared]
    | cons c text =>
      have hne : nul ≠ c := fun h => htext (h ▸ List.mem_cons_self)
      simp [compared, hne]
  | cons b s ih =>
    cases text with
    | nil =>
      simp only [List.nil_append, List.cons_append, compared]
      split_ifs <;> simp
    | cons c text =>
      have hrest : nul ∉ text := fun h => htext (List.mem_cons_of_mem c h)
      have hle := ih text hrest
      simp only [List.cons_append, compared, List.length_cons]
      split_ifs <;> omega

end

/-! ## Decimal numbers -/

def digitValue (c : Char) : ℕ := c.toNat - '0'.toNat

/-- The number that a string of digits denotes. -/
def decimalValue (d : List Char) : ℕ := Nat.ofDigits 10 (d.reverse.map digitValue)

def Digits (d : List Char) : Prop := ∀ c ∈ d, c.isDigit = true

instance (d : List Char) : Decidable (Digits d) :=
  decidable_of_iff (d.all Char.isDigit = true) List.all_eq_true

theorem decimalValue_concat (d : List Char) (c : Char) :
    decimalValue (d ++ [c]) = decimalValue d * 10 + digitValue c := by
  unfold decimalValue
  rw [List.reverse_append, List.reverse_singleton, List.singleton_append, List.map_cons,
    Nat.ofDigits_cons]
  ring

theorem foldl_digits (d : List Char) :
    d.foldl (fun n c => n * 10 + (c.toNat - '0'.toNat)) 0 = decimalValue d := by
  induction d using List.reverseRecOn with
  | nil => rfl
  | append_singleton d c ih =>
    rw [List.foldl_append, ih, decimalValue_concat]
    rfl

theorem digitValue_lt {c : Char} (h : c.isDigit = true) : digitValue c < 10 := by
  have hrange := Char.isDigit_iff_toNat.mp h
  unfold digitValue
  have hzero : '0'.toNat = 48 := rfl
  have hnine : '9'.toNat = 57 := rfl
  omega

theorem digitValue_eq_zero {c : Char} (h : c.isDigit = true) : digitValue c = 0 ↔ c = '0' := by
  have hrange := Char.isDigit_iff_toNat.mp h
  have hzero : '0'.toNat = 48 := rfl
  unfold digitValue
  constructor
  · intro hvalue
    exact Char.toNat_inj.mp (by omega)
  · rintro rfl
    rfl

theorem nul_notMem_digits {d : List Char} (h : Digits d) : nul ∉ d :=
  fun hmem => absurd (h nul hmem) (by decide)

theorem decimalValue_lt {d : List Char} (h : Digits d) : decimalValue d < 10 ^ d.length := by
  unfold decimalValue
  have hlt := Nat.ofDigits_lt_base_pow_length (b := 10) (l := d.reverse.map digitValue)
    (by decide) (by
      intro x hx
      obtain ⟨c, hc, rfl⟩ := List.mem_map.mp hx
      exact digitValue_lt (h c (List.mem_reverse.mp hc)))
  rwa [List.length_map, List.length_reverse] at hlt

theorem decimalValue_eq_zero {d : List Char} (h : Digits d) :
    decimalValue d = 0 ↔ ∀ c ∈ d, c = '0' := by
  induction d using List.reverseRecOn with
  | nil => simp [decimalValue]
  | append_singleton d c ih =>
    have hd : Digits d := fun x hx => h x (List.mem_append_left _ hx)
    have hc := digitValue_eq_zero (h c (by simp))
    rw [decimalValue_concat]
    simp only [List.mem_append, List.mem_singleton]
    constructor
    · intro hzero x hx
      have hparts : decimalValue d = 0 ∧ digitValue c = 0 := by omega
      obtain hx | rfl := hx
      · exact (ih hd).mp hparts.1 x hx
      · exact hc.mp hparts.2
    · intro hall
      rw [(ih hd).mpr fun x hx => hall x (Or.inl hx), hc.mpr (hall c (Or.inr rfl))]

/-- Dropping the last digit changes the number unless it is zero. -/
theorem decimalValue_dropLast_iff {d : List Char} (hne : d ≠ []) :
    decimalValue d.dropLast = decimalValue d ↔ decimalValue d = 0 := by
  obtain ⟨init, last, rfl⟩ := List.eq_nil_or_concat d |>.resolve_left hne
  rw [List.concat_eq_append, List.dropLast_concat, decimalValue_concat]
  omega

end RknpuDriver.Lib
