import Mathlib

/-! A byte-addressed memory as a function of the address: laying a list over a range, and reading a
range back. -/

namespace Overlay
open List
variable {α : Type*}

def write (m : ℕ → α) (off : ℕ) (data : List α) : ℕ → α := fun a =>
  if off ≤ a then (data[a - off]?).getD (m a) else m a

def read (m : ℕ → α) (off len : ℕ) : List α := List.ofFn fun k : Fin len => m (off + k)

variable {off : ℕ}

variable {m : ℕ → α}

@[simp] theorem write_nil : write m off [] = m := by
  funext a
  simp [write]

variable {data : List α}

theorem write_below {off a : ℕ} (h : a < off) :
    write m off data a = m a := by
  rw [write, if_neg (Nat.not_le.mpr h)]

theorem write_above (m : ℕ → α) {off a : ℕ} (h : off + data.length ≤ a) :
    write m off data a = m a := by
  rw [write, if_pos (by omega), getElem?_eq_none (by omega), Option.getD_none]

theorem write_within {off k : ℕ} (h : k < data.length) :
    write m off data (off + k) = data[k] := by
  rw [write, if_pos (by omega), Nat.add_sub_cancel_left, getElem?_eq_getElem h,
    Option.getD_some]

@[simp] theorem length_read {len : ℕ} : (read m off len).length = len := by
  simp [read]

theorem read_congr {m' : ℕ → α} {off len : ℕ} (h : ∀ k < len, m (off + k) = m' (off + k)) :
    read m off len = read m' off len := by
  unfold read
  congr 1
  funext k
  exact h k k.isLt

theorem read_write_same (m : ℕ → α) (off : ℕ) (data : List α) :
    read (write m off data) off data.length = data := by
  apply ext_getElem (by simp)
  intro k hk hk'
  simp only [read, List.getElem_ofFn]
  exact write_within hk'

theorem read_write_disjoint {off off' len : ℕ}
    (h : off' + len ≤ off ∨ off + data.length ≤ off') :
    read (write m off data) off' len = read m off' len := by
  apply read_congr
  intro k hk
  rcases h with h | h
  · exact write_below (by omega)
  · exact write_above m (by omega)

theorem write_append {a b : List α} :
    write (write m off a) (off + a.length) b = write m off (a ++ b) := by
  funext x
  rcases Nat.lt_or_ge x (off + a.length) with hlt | hge
  · rw [write_below hlt]
    rcases Nat.lt_or_ge x off with hx | hx
    · rw [write_below hx, write_below hx]
    · obtain ⟨k, rfl⟩ := Nat.exists_eq_add_of_le hx
      have hk : k < a.length := by omega
      rw [write_within hk, write_within (by rw [length_append]; omega),
        getElem_append_left hk]
  · obtain ⟨k, rfl⟩ := Nat.exists_eq_add_of_le hge
    rcases Nat.lt_or_ge k b.length with hk | hk
    · rw [write_within hk]
      have hlen : a.length + k < (a ++ b).length := by rw [length_append]; omega
      have hwithin : write m off (a ++ b) (off + (a.length + k)) = (a ++ b)[a.length + k] :=
        write_within hlen
      rw [← Nat.add_assoc] at hwithin
      rw [hwithin, getElem_append_right (by omega)]
      simp
    · rw [write_above _ (by omega), write_above m (by omega),
        write_above m (by rw [length_append]; omega)]

theorem read_append {a b : ℕ} :
    read m off (a + b) = read m off a ++ read m (off + a) b := by
  simp only [read, ofFn_add, Fin.val_castLE, Fin.val_natAdd, Nat.add_assoc]

end Overlay
