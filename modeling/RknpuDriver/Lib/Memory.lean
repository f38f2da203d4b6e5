import RknpuDriver.Lib.Layout
import Mathlib.Data.List.GetD
import Mathlib.Data.Nat.Digits.Defs

/-! # Bytes of a memory

A memory gives a byte at every address, and remembers the ranges that were written. What no write
touched is what it was; a write over a range, and what is read there afterwards, are lists of
bytes.

* `Memory.write`, `Memory.read`.
* `Memory.Records`: the bytes outside the ranges that were written are those of another memory.
* `Memory.read_write_append`: two writes that follow each other.
* `leNat`, `leBytes`: the bytes of a number, the lowest first.
-/

namespace RknpuDriver.Lib
set_option autoImplicit false

structure Memory where
  byte : ℕ → UInt8
  written : List Segment

/-- The number that bytes stand for, the lowest byte first. -/
def leNat (bytes : List UInt8) : ℕ := Nat.ofDigits 256 (bytes.map UInt8.toNat)

/-- The lowest `n` bytes of a number. -/
def leBytes (n v : ℕ) : List UInt8 := (List.range n).map fun i => UInt8.ofNat (v / 256 ^ i)

@[simp] theorem length_leBytes (n v : ℕ) : (leBytes n v).length = n := by simp [leBytes]

/-- A segment that lies in a range. -/
def Segment.Inside (start n : ℕ) (s : Segment) : Prop :=
  start ≤ s.start ∧ s.start + s.length ≤ start + n

instance (start n : ℕ) (s : Segment) : Decidable (s.Inside start n) :=
  inferInstanceAs (Decidable (_ ∧ _))

namespace Memory

/-- A memory nothing was written to yet. -/
def ofBytes (byte : ℕ → UInt8) : Memory := ⟨byte, []⟩

def write (m : Memory) (start : ℕ) (bytes : List UInt8) : Memory where
  byte i := if start ≤ i then bytes.getD (i - start) (m.byte i) else m.byte i
  written := m.written ++ [⟨start, bytes.length⟩]

def read (m : Memory) (start n : ℕ) : List UInt8 := (List.range n).map fun j => m.byte (start + j)

variable {m : Memory} {start n i : ℕ} {bytes : List UInt8} {base : ℕ → UInt8}

@[simp] theorem written_write (m : Memory) (start : ℕ) (bytes : List UInt8) :
    (m.write start bytes).written = m.written ++ [⟨start, bytes.length⟩] := rfl

@[simp] theorem written_ofBytes (byte : ℕ → UInt8) : (ofBytes byte).written = [] := rfl

theorem byte_write_out (h : i < start ∨ start + bytes.length ≤ i) :
    (m.write start bytes).byte i = m.byte i := by
  show (if start ≤ i then bytes.getD (i - start) (m.byte i) else m.byte i) = m.byte i
  split_ifs with hle
  · rw [List.getD_eq_default _ _ (by omega)]
  · rfl

theorem byte_write_in (hle : start ≤ i) (hlt : i < start + bytes.length) :
    (m.write start bytes).byte i = bytes.getD (i - start) 0 := by
  have hin : i - start < bytes.length := by omega
  show (if start ≤ i then bytes.getD (i - start) (m.byte i) else m.byte i) = _
  rw [if_pos hle, List.getD_eq_getElem _ _ hin, List.getD_eq_getElem _ _ hin]

/-- What was written in two writes, the second behind the first. -/
theorem read_write_append (m : Memory) (start : ℕ) (bytes rest : List UInt8) :
    ((m.write start bytes).write (start + bytes.length) rest).read start
      (bytes.length + rest.length) = bytes ++ rest := by
  refine List.ext_getElem (by simp [read]) fun j hj hj' => ?_
  simp only [read, List.getElem_map, List.getElem_range]
  rw [List.length_append] at hj'
  by_cases hfirst : j < bytes.length
  · rw [byte_write_out (by omega), byte_write_in (Nat.le_add_right _ _) (by omega),
      List.getElem_append_left hfirst, Nat.add_sub_cancel_left, List.getD_eq_getElem _ _ hfirst]
  · have hplace : start + j - (start + bytes.length) = j - bytes.length := by omega
    rw [byte_write_in (by omega) (by omega), List.getElem_append_right (by omega), hplace,
      List.getD_eq_getElem _ _ (by omega)]

theorem read_write (m : Memory) (start : ℕ) (bytes : List UInt8) :
    (m.write start bytes).read start bytes.length = bytes := by
  refine List.ext_getElem (by simp [read]) fun j hj hj' => ?_
  simp only [read, List.getElem_map, List.getElem_range]
  rw [byte_write_in (Nat.le_add_right _ _) (by omega), Nat.add_sub_cancel_left,
    List.getD_eq_getElem _ _ hj']

/-! ## What no write touched -/

/-- The bytes that are in no written range are those of `base`. -/
def Records (base : ℕ → UInt8) (m : Memory) : Prop :=
  ∀ i, (∀ s ∈ m.written, i < s.start ∨ s.start + s.length ≤ i) → m.byte i = base i

theorem records_ofBytes (base : ℕ → UInt8) : Records base (ofBytes base) := fun _ _ => rfl

theorem Records.write (hm : Records base m) (start : ℕ) (bytes : List UInt8) :
    Records base (m.write start bytes) := by
  intro i hout
  rw [written_write] at hout
  have hlast := hout ⟨start, bytes.length⟩ (by simp)
  rw [byte_write_out hlast]
  exact hm i fun s hs => hout s (List.mem_append_left _ hs)

/-- When every write was inside a range, the bytes outside of it are unchanged. -/
theorem Records.frame (hm : Records base m) (hinside : ∀ s ∈ m.written, s.Inside start n)
    (hi : i < start ∨ start + n ≤ i) : m.byte i = base i := by
  refine hm i fun s hs => ?_
  obtain ⟨hlow, hhigh⟩ := hinside s hs
  omega

end Memory

end RknpuDriver.Lib
