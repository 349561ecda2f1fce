import Mathlib

/-! Computations on a state that may give up and leave the state they came to: what such a
computation ends in, and two of them run side by side. -/

universe u v w

namespace Fallible

inductive Outcome (σ : Type u)
  | ok (s : σ)
  | fail (s : σ)
  deriving DecidableEq

namespace Outcome
variable {σ : Type u} {τ : Type v} {α : Type w}

def bind : Outcome σ → (σ → Outcome σ) → Outcome σ
  | .ok s, k => k s
  | .fail s, _ => .fail s

def isOk : Outcome σ → Bool
  | .ok _ => true
  | .fail _ => false

theorem exists_of_isOk {r : Outcome σ} (h : r.isOk = true) : ∃ s, r = .ok s := by
  cases r with
  | ok s => exact ⟨s, rfl⟩
  | fail s => cases h

theorem bind_eq_ok {r : Outcome σ} {k : σ → Outcome σ} {t : σ} (h : r.bind k = .ok t) :
    ∃ s, r = .ok s ∧ k s = .ok t := by
  cases r with
  | ok s => exact ⟨s, rfl, h⟩
  | fail s => cases h

@[simp] theorem bind_ok {r : Outcome σ} : r.bind .ok = r := by
  cases r <;> rfl

theorem bind_assoc {r : Outcome σ} {k k' : σ → Outcome σ} :
    (r.bind k).bind k' = r.bind fun s => (k s).bind k' := by
  cases r <;> rfl

def given (s : σ) (x : Option α) (k : α → Outcome σ) : Outcome σ :=
  match x with
  | none => .fail s
  | some a => k a

/-- The computation succeeds with `Q` or gives up with `E`. -/
def Ends (Q E : σ → Prop) : Outcome σ → Prop
  | .ok s => Q s
  | .fail s => E s

section
variable {Q R E : σ → Prop} {r : Outcome σ} {k : σ → Outcome σ}

theorem Ends.bind (h : r.Ends R E) (hk : ∀ s, R s → (k s).Ends Q E) : (r.bind k).Ends Q E := by
  cases r with
  | ok s => exact hk s h
  | fail s => exact h

theorem Ends.imp {F : σ → Prop} (h : r.Ends R F) (hQ : ∀ s, R s → Q s) (hE : ∀ s, F s → E s) :
    r.Ends Q E := by
  cases r with
  | ok s => exact hQ s h
  | fail s => exact hE s h

theorem ends_given {s : σ} {x : Option α} {k : α → Outcome σ} (hnone : E s)
    (hsome : ∀ a, x = some a → (k a).Ends Q E) : (given s x k).Ends Q E := by
  cases x with
  | none => exact hnone
  | some a => exact hsome a rfl

theorem ends_ite {p : Prop} [Decidable p] {r' : Outcome σ} (hp : p → r.Ends Q E)
    (hn : ¬ p → r'.Ends Q E) : (if p then r else r').Ends Q E := by
  by_cases h : p
  · rw [if_pos h]
    exact hp h
  · rw [if_neg h]
    exact hn h

end

/-- Where the first computation succeeds, the second does too, and the states are related. -/
def Leads (R : σ → τ → Prop) (r : Outcome σ) (r' : Outcome τ) : Prop :=
  ∀ s, r = .ok s → ∃ t, r' = .ok t ∧ R s t

section
variable {R R' : σ → τ → Prop}

theorem leads_fail {s : σ} {r : Outcome τ} : Leads R (.fail s) r := nofun

theorem leads_ok {s : σ} {t : τ} (h : R s t) : Leads R (.ok s) (.ok t) := by
  rintro _ ⟨rfl⟩
  exact ⟨t, rfl, h⟩

theorem Leads.bind {r : Outcome σ} {r' : Outcome τ} {k : σ → Outcome σ} {k' : τ → Outcome τ}
    (h : Leads R r r') (hk : ∀ s t, R s t → Leads R' (k s) (k' t)) :
    Leads R' (r.bind k) (r'.bind k') := by
  cases r with
  | ok s =>
    obtain ⟨t, rfl, hst⟩ := h s rfl
    exact hk s t hst
  | fail s => exact leads_fail

theorem leads_given_of {s : σ} {t : τ} {x y : Option α} {k : α → Outcome σ} {k' : α → Outcome τ}
    (hxy : ∀ a, x = some a → y = some a) (h : ∀ a, Leads R (k a) (k' a)) :
    Leads R (given s x k) (given t y k') := by
  cases x with
  | none => exact leads_fail
  | some a =>
    rw [hxy a rfl]
    exact h a

theorem leads_given {s : σ} {t : τ} {x : Option α} {k : α → Outcome σ} {k' : α → Outcome τ}
    (h : ∀ a, Leads R (k a) (k' a)) : Leads R (given s x k) (given t x k') :=
  leads_given_of (fun _ => id) h

theorem leads_guard {p q : Prop} [Decidable p] [Decidable q] {s : σ} {t : τ} {r : Outcome σ}
    {r' : Outcome τ} (hpq : q → p) (h : ¬ p → Leads R r r') :
    Leads R (if p then .fail s else r) (if q then .fail t else r') := by
  by_cases hp : p
  · rw [if_pos hp]
    exact leads_fail
  · rw [if_neg hp, if_neg (mt hpq hp)]
    exact h hp

end

end Outcome

end Fallible
