import SotOs.Lib.Overlay

/-! A file as a zero-filled array with a size, and an array cut into pages of one length. -/

namespace SparseFile
variable {α : Type*}

structure File (α : Type*) [Zero α] where
  bytes : ℕ → α
  size : ℕ
  zero_past : ∀ a, size ≤ a → bytes a = 0

section
variable [Zero α]

def File.empty : File α := ⟨fun _ => 0, 0, fun _ _ => rfl⟩

def File.write (f : File α) (off : ℕ) (data : List α) : File α where
  bytes := Overlay.write f.bytes off data
  size := max f.size (off + data.length)
  zero_past := by
    intro a ha
    rw [Overlay.write_above f.bytes ((le_max_right _ _).trans ha)]
    exact f.zero_past a ((le_max_left _ _).trans ha)

def File.read (f : File α) (off len : ℕ) : List α := Overlay.read f.bytes off (min (f.size - off) len)

end

variable {B : ℕ} {pages pages' : ℕ → Fin B → α} {m : ℕ → α}

/-- The pages at the multiples of `B` spell the array. -/
def Paged (pages : ℕ → Fin B → α) (m : ℕ → α) : Prop :=
  ∀ q (k : Fin B), pages (q * B) k = m (q * B + k)

def spelled (hB : 0 < B) (pages : ℕ → Fin B → α) : ℕ → α := fun a =>
  pages (a / B * B) ⟨a % B, Nat.mod_lt a hB⟩

theorem paged_spelled (hB : 0 < B) : Paged pages (spelled hB pages) := by
  intro q k
  have hdiv : (q * B + k) / B = q := by
    rw [Nat.add_comm, Nat.add_mul_div_right _ _ hB, Nat.div_eq_of_lt k.isLt, Nat.zero_add]
  have hmod : (q * B + k) % B = k := by
    rw [Nat.add_comm, Nat.add_mul_mod_self_right, Nat.mod_eq_of_lt k.isLt]
  simp only [spelled, hdiv, hmod]

def patch (page : Fin B → α) (intra : ℕ) (chunk : List α) : Fin B → α := fun k =>
  if intra ≤ k.val then (chunk[k.val - intra]?).getD (page k) else page k

theorem Paged.patched (h : Paged pages m) {q intra : ℕ} {chunk : List α}
    (hfit : intra + chunk.length ≤ B)
    (hpage : pages' (q * B) = patch (pages (q * B)) intra chunk)
    (hother : ∀ q', q' ≠ q → pages' (q' * B) = pages (q' * B)) :
    Paged pages' (Overlay.write m (q * B + intra) chunk) := by
  intro q' k
  by_cases hq : q' = q
  · subst hq
    simp only [hpage, patch, Overlay.write, h q' k, Nat.add_le_add_iff_left, Nat.add_sub_add_left]
  · rw [hother q' hq, h q' k]
    have hk := k.isLt
    rcases Nat.lt_or_gt_of_ne hq with hlt | hgt
    · have hle : (q' + 1) * B ≤ q * B := Nat.mul_le_mul_right B hlt
      rw [Nat.succ_mul] at hle
      exact (Overlay.write_below (by omega)).symm
    · have hle : (q + 1) * B ≤ q' * B := Nat.mul_le_mul_right B hgt
      rw [Nat.succ_mul] at hle
      exact (Overlay.write_above m (by omega)).symm

theorem Paged.replaced (h : Paged pages m) {q : ℕ}
    (hother : ∀ q', q' ≠ q → pages' (q' * B) = pages (q' * B)) :
    ∃ m', (∀ a, a < q * B → m' a = m a) ∧ Paged pages' m' := by
  rcases Nat.eq_zero_or_pos B with rfl | hB
  · exact ⟨m, fun _ _ => rfl, fun _ k => k.elim0⟩
  refine ⟨spelled hB pages', fun a ha => ?_, paged_spelled hB⟩
  have hne : a / B ≠ q := ((Nat.div_lt_iff_lt_mul hB).mpr ha).ne
  rw [spelled, hother _ hne, h]
  exact congrArg m (Nat.div_add_mod' a B)

theorem Paged.read (h : Paged pages m) (q : ℕ) {intra len : ℕ} (hfit : intra + len ≤ B)
    (fill : α) :
    (List.range len).map (fun k => if hk : intra + k < B then pages (q * B) ⟨intra + k, hk⟩ else fill)
      = Overlay.read m (q * B + intra) len := by
  apply List.ext_getElem
  · simp
  intro k hk hk'
  have hlt : k < len := by simpa using hk
  simp only [List.getElem_map, List.getElem_range, Overlay.read, List.getElem_ofFn]
  rw [dif_pos (by omega), h q, Nat.add_assoc]

end SparseFile
