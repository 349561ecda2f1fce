import Mathlib

/-! Little-endian fixed-width integers as byte lists. -/

namespace LittleEndian
open List

def encode : ℕ → ℕ → List UInt8
  | 0, _ => []
  | n + 1, x => UInt8.ofNat x :: encode n (x / 256)

def decode : List UInt8 → ℕ
  | [] => 0
  | b :: bs => b.toNat + 256 * decode bs

@[simp] theorem length_encode (n x : ℕ) : (encode n x).length = n := by
  induction n generalizing x with
  | zero => rfl
  | succ n ih => rw [encode, length_cons, ih]

theorem decode_encode (n : ℕ) {x : ℕ} (h : x < 256 ^ n) : decode (encode n x) = x := by
  induction n generalizing x with
  | zero =>
    obtain rfl : x = 0 := by simpa using h
    rfl
  | succ n ih =>
    have hdiv : x / 256 < 256 ^ n := by
      rw [pow_succ] at h
      exact Nat.div_lt_of_lt_mul (by rwa [Nat.mul_comm])
    rw [encode, decode, ih hdiv, UInt8.toNat_ofNat']
    exact Nat.mod_add_div x 256

theorem decode_zero {bs : List UInt8} (h : ∀ b ∈ bs, b = 0) : decode bs = 0 := by
  induction bs with
  | nil => rfl
  | cons b bs ih =>
    rw [forall_mem_cons] at h
    rw [decode, h.1, ih h.2]
    rfl

def take (n : ℕ) (bs : List UInt8) : ℕ × List UInt8 := (decode (bs.take n), bs.drop n)

theorem take_encode (n : ℕ) {x : ℕ} (h : x < 256 ^ n) (rest : List UInt8) :
    take n (encode n x ++ rest) = (x, rest) := by
  have hlen := length_encode n x
  rw [take, take_left' hlen, drop_left' hlen, decode_encode n h]

end LittleEndian
