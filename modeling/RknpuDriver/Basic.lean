import Mathlib.Algebra.Group.Int.Defs
import Mathlib.Algebra.GroupWithZero.Nat
import Mathlib.Data.Int.Notation
import Mathlib.Data.Nat.Notation

/-! # C integers, error codes and ioctl arguments

Kernel functions return `0` or a negated errno; `unsigned int` values are natural numbers
below `2^32`, and arithmetic on them is reduced with `u32` wherever the source's could wrap.
A pointer to an object of the model is a natural number.
-/

namespace RknpuDriver
set_option autoImplicit false

abbrev eio : ℤ := 5
abbrev enomem : ℤ := 12
abbrev efault : ℤ := 14
abbrev einval : ℤ := 22
abbrev etimedout : ℤ := 110

abbrev bitsPerLong : ℕ := 64

/-- `unsigned int` arithmetic: reduction modulo `2^32`. -/
def u32 (n : ℕ) : ℕ := n % 2 ^ 32

/-- `unsigned int` subtraction. -/
def u32Sub (a b : ℕ) : ℕ := u32 (a + 2 ^ 32 - b)

theorem u32_of_lt {n : ℕ} (h : n < 2 ^ 32) : u32 n = n := Nat.mod_eq_of_lt h

theorem u32Sub_of_le {a b : ℕ} (hb : b ≤ a) (ha : a < 2 ^ 32) : u32Sub a b = a - b := by
  unfold u32Sub u32
  omega

/-! ## The memory ioctls -/

structure RknpuMemCreate where
  handle : ℕ
  flags : ℕ
  size : ℕ
  objAddr : ℕ
  dmaAddr : ℕ
  sramSize : ℕ
  iommuDomainId : ℤ
  coreMask : ℕ
  deriving DecidableEq, Repr

structure RknpuMemDestroy where
  handle : ℕ
  reserved : ℕ
  objAddr : ℕ
  deriving DecidableEq, Repr

structure RknpuMemSync where
  flags : ℕ
  reserved : ℕ
  objAddr : ℕ
  offset : ℕ
  size : ℕ
  deriving DecidableEq, Repr

/-- `PAGE_ALIGN` of a 64-bit size. -/
def pageAlign (size : ℕ) : ℕ := (size + 4095) % 2 ^ 64 / 4096 * 4096

end RknpuDriver
