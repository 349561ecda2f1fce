import Mathlib

/-! Positions in an unbounded byte stream, numbered in 32 bits from an arbitrary start. -/

namespace SeqNum

def num (r : UInt32) (n : ℕ) : UInt32 := r + UInt32.ofNat n

@[simp] theorem num_zero (r : UInt32) : num r 0 = r := by simp [num]

variable {r : UInt32} {n : ℕ}

theorem num_add {m : ℕ} : num r m + UInt32.ofNat n = num r (m + n) := by
  rw [num, num, UInt32.ofNat_add, add_assoc]

theorem num_succ : num r n + 1 = num r (n + 1) := num_add

theorem ofNat_toNat_mod : (UInt32.ofNat n).toNat = n % 2 ^ 32 := by simp

theorem num_inj_iff {r : UInt32} {m n : ℕ} : num r m = num r n ↔ m % 2 ^ 32 = n % 2 ^ 32 := by
  rw [num, num, add_right_inj, ← UInt32.toNat_inj, ofNat_toNat_mod, ofNat_toNat_mod]

theorem num_inj {r : UInt32} {m n : ℕ} (h : num r m = num r n) (hmn : m < n + 2 ^ 32)
    (hnm : n < m + 2 ^ 32) : m = n := by
  rw [num_inj_iff] at h
  omega

end SeqNum
