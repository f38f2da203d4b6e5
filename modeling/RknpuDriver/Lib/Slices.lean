import Mathlib.Data.Nat.Notation
import Mathlib.Logic.ExistsUnique

/-! # A range cut into slices

`n` items are cut into slices of `m`, the last of which may be shorter. Slice `k` begins at item
`k * m`. Every item is in exactly one slice.
-/

namespace RknpuDriver.Lib
set_option autoImplicit false

/-- `n / m`, rounded up. -/
def sliceCount (n m : ℕ) : ℕ := (n + m - 1) / m

/-- The length of slice `k`. -/
def sliceLen (n m k : ℕ) : ℕ := min m (n - k * m)

variable {n m k x : ℕ}

theorem lt_sliceCount (hm : 0 < m) : k < sliceCount n m ↔ k * m < n := by
  unfold sliceCount
  rw [← Nat.succ_le_iff, Nat.le_div_iff_mul_le hm, Nat.succ_mul]
  omega

theorem sliceCount_pos (hm : 0 < m) (hn : 0 < n) : 0 < sliceCount n m := by
  rw [lt_sliceCount hm, Nat.zero_mul]
  exact hn

theorem sliceLen_le : sliceLen n m k ≤ m := Nat.min_le_left _ _

theorem sliceLen_pos (hm : 0 < m) (hk : k < sliceCount n m) : 0 < sliceLen n m k := by
  have hbegin := (lt_sliceCount hm).mp hk
  unfold sliceLen
  omega

theorem slice_end_le (hm : 0 < m) (hk : k < sliceCount n m) : k * m + sliceLen n m k ≤ n := by
  have hbegin := (lt_sliceCount hm).mp hk
  unfold sliceLen
  omega

theorem sliceLen_of_succ_lt (hm : 0 < m) (hk : k + 1 < sliceCount n m) : sliceLen n m k = m := by
  have hnext := (lt_sliceCount hm).mp hk
  rw [Nat.succ_mul] at hnext
  unfold sliceLen
  omega

/-- **The slices cover the range**, each item once. -/
theorem existsUnique_slice (hm : 0 < m) (hx : x < n) :
    ∃! k, k < sliceCount n m ∧ k * m ≤ x ∧ x < k * m + sliceLen n m k := by
  have hle : x / m * m ≤ x := Nat.div_mul_le_self x m
  have hlt : x < x / m * m + m := Nat.lt_div_mul_add hm
  refine ⟨x / m, ⟨?_, hle, ?_⟩, ?_⟩
  · rw [lt_sliceCount hm]
    omega
  · unfold sliceLen
    omega
  · rintro k ⟨-, hbegin, hend⟩
    have hlen : sliceLen n m k ≤ m := sliceLen_le
    apply Nat.le_antisymm
    · exact (Nat.le_div_iff_mul_le hm).mpr hbegin
    · apply Nat.le_of_lt_succ
      rw [Nat.div_lt_iff_lt_mul hm, Nat.succ_mul]
      omega

end RknpuDriver.Lib
