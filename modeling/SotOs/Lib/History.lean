import Mathlib

/-! Properties of an event that speak about the events before it. -/

universe u

namespace History
open List
variable {ε : Type u} {P Q : List ε → ε → Prop}

/-- Every event of a list meets `P` behind `past` and the events before it. -/
def Along (P : List ε → ε → Prop) : (past : List ε) → List ε → Prop
  | _, [] => True
  | past, e :: es => P past e ∧ Along P (past ++ [e]) es

instance decidableAlong [∀ past e, Decidable (P past e)] :
    (past es : List ε) → Decidable (Along P past es)
  | _, [] => .isTrue trivial
  | past, e :: es =>
    have := decidableAlong (past ++ [e]) es
    inferInstanceAs (Decidable (P past e ∧ Along P (past ++ [e]) es))

theorem along_nil {past : List ε} : Along P past [] := trivial

theorem along_append {past es es' : List ε} :
    Along P past (es ++ es') ↔ Along P past es ∧ Along P (past ++ es) es' := by
  induction es generalizing past with
  | nil => simp [Along]
  | cons e es ih => simp only [cons_append, Along, ih, and_assoc, append_assoc,
      nil_append]

theorem Along.imp {past es : List ε} (h : Along P past es) (hPQ : ∀ past e, P past e → Q past e) :
    Along Q past es := by
  induction es generalizing past with
  | nil => exact trivial
  | cons e es ih => exact ⟨hPQ past e h.1, ih h.2⟩

theorem along_concat {past es : List ε} {e : ε} :
    Along P past (es ++ [e]) ↔ Along P past es ∧ P (past ++ es) e := by
  rw [along_append]
  simp [Along]

theorem Along.split {past es es' : List ε} {e : ε} (h : Along P past (es ++ e :: es')) :
    P (past ++ es) e := (along_append.mp h).2.1

theorem along_of_forall {past es : List ε} (h : ∀ e ∈ es, ∀ more, P (past ++ more) e) :
    Along P past es := by
  induction es generalizing past with
  | nil => exact trivial
  | cons e es ih =>
    obtain ⟨he, hes⟩ := forall_mem_cons.mp h
    refine ⟨by simpa using he [], ih fun e' he' more => ?_⟩
    rw [append_assoc]
    exact hes e' he' ([e] ++ more)

end History
