import Mathlib

/-! Trees given by a parent relation, and when adding an edge, cutting a leaf and moving a subtree
keep it. -/

namespace Rooted
open Relation
variable {α : Type*} {r r' : α → α → Prop} {root : α}

def Grounded (r : α → α → Prop) (root : α) : Prop := ∀ p c, r p c → ReflTransGen r root c

theorem acc_of_below (hsingle : ∀ p q c, r p c → r q c → p = q) (hroot : ∀ p, ¬r p root) {x : α}
    (hx : ReflTransGen r root x) : Acc r x := by
  induction hx with
  | refl => exact ⟨_, fun p hp => absurd hp (hroot p)⟩
  | tail _ hstep ih => exact ⟨_, fun p hp => hsingle _ _ _ hstep hp ▸ ih⟩

theorem Grounded.acyclic (h : Grounded r root) (hsingle : ∀ p q c, r p c → r q c → p = q)
    (hroot : ∀ p, ¬r p root) (x : α) : ¬TransGen r x x := by
  intro hcycle
  obtain ⟨p, -, hp⟩ := TransGen.tail'_iff.mp hcycle
  have hacc : Acc (TransGen r) x := (acc_of_below hsingle hroot (h p x hp)).transGen
  induction hacc with
  | intro x _ ih => exact ih x hcycle hcycle hp

theorem Grounded.congr (h : Grounded r root) (hr : ∀ x y, r' x y ↔ r x y) : Grounded r' root := by
  obtain rfl : r' = r := funext fun x => funext fun y => propext (hr x y)
  exact h

theorem Grounded.grow (h : Grounded r root) (hmono : ∀ x y, r x y → r' x y)
    (hnew : ∀ x y, r' x y → r x y ∨ ReflTransGen r root x) : Grounded r' root := by
  intro x y hxy
  rcases hnew x y hxy with hold | hbelow
  · exact ReflTransGen.mono hmono _ _ (h x y hold)
  · exact (ReflTransGen.mono hmono _ _ hbelow).tail hxy

theorem Grounded.prune (h : Grounded r root) {c : α} (hleaf : ∀ y, ¬r c y)
    (hr : ∀ x y, r' x y ↔ r x y ∧ y ≠ c) : Grounded r' root := by
  have hkeep : ∀ y, ReflTransGen r root y → y ≠ c → ReflTransGen r' root y := by
    intro y hy
    induction hy with
    | refl => exact fun _ => .refl
    | @tail b y _ hby ih =>
      intro hyc
      have hbc : b ≠ c := by
        rintro rfl
        exact hleaf y hby
      exact (ih hbc).tail ((hr b y).mpr ⟨hby, hyc⟩)
  intro x y hxy
  obtain ⟨hold, hyc⟩ := (hr x y).mp hxy
  exact hkeep y (h x y hold) hyc

/-- The relation after `c` has been hung below `q`. -/
def Moved (r r' : α → α → Prop) (c q : α) : Prop := ∀ x y, r' x y ↔ r x y ∧ y ≠ c ∨ x = q ∧ y = c

theorem Grounded.move (h : Grounded r root) {c q : α} (hr : Moved r r' c q)
    (hq : ReflTransGen r root q) (hbelow : ¬ReflTransGen r c q) : Grounded r' root := by
  -- outside the moved subtree the paths stay
  have houtside : ∀ y, ReflTransGen r root y → ¬ReflTransGen r c y → ReflTransGen r' root y := by
    intro y hy
    induction hy with
    | refl => exact fun _ => .refl
    | @tail b y _ hby ih =>
      intro hcy
      have hyc : y ≠ c := by
        rintro rfl
        exact hcy .refl
      have hcb : ¬ReflTransGen r c b := fun hcb => hcy (hcb.tail hby)
      exact (ih hcb).tail ((hr b y).mpr (.inl ⟨hby, hyc⟩))
  have hc : ReflTransGen r' root c := (houtside q hq hbelow).tail ((hr q c).mpr (.inr ⟨rfl, rfl⟩))
  have hkeep : ∀ y, ReflTransGen r root y → ReflTransGen r' root y := by
    intro y hy
    induction hy with
    | refl => exact .refl
    | @tail b y _ hby ih =>
      by_cases hyc : y = c
      · rw [hyc]
        exact hc
      · exact ih.tail ((hr b y).mpr (.inl ⟨hby, hyc⟩))
  intro x y hxy
  rcases (hr x y).mp hxy with ⟨hold, -⟩ | ⟨-, rfl⟩
  · exact hkeep y (h x y hold)
  · exact hc

theorem Moved.cycle {c q : α} (hr : Moved r r' c q) (hacyclic : ∀ x, ¬TransGen r x x)
    (hbelow : ReflTransGen r c q) : TransGen r' c c := by
  have hkeep : ∀ y, ReflTransGen r c y → ReflTransGen r' c y := by
    intro y hy
    induction hy with
    | refl => exact .refl
    | @tail b y hcb hby ih =>
      have hyc : y ≠ c := by
        rintro rfl
        exact hacyclic y (.tail' hcb hby)
      exact ih.tail ((hr b y).mpr (.inl ⟨hby, hyc⟩))
  exact .tail' (hkeep q hbelow) ((hr q c).mpr (.inr ⟨rfl, rfl⟩))

end Rooted
