import SotOs.Lib.Machine

/-! Deadlines on a free-running 32-bit tick counter, and the rule that a machine whose counted steps
use up a budget reaches its goal. -/

namespace Countdown

/-- The ticks until a stamp's age exceeds `limit`; an age one short of the wrap starts from zero. -/
def ticksLeft (limit age : ℕ) : ℕ :=
  if age = 2 ^ 32 - 1 then limit + 2 else if limit ≤ age then 1 else limit + 1 - age

theorem ticksLeft_pos (limit age : ℕ) : 0 < ticksLeft limit age := by
  unfold ticksLeft
  split_ifs <;> omega

theorem ticksLeft_le (limit age : ℕ) : ticksLeft limit age ≤ limit + 2 := by
  unfold ticksLeft
  split_ifs <;> omega

theorem age_succ (now since : UInt32) :
    (now + 1 - since).toNat = ((now - since).toNat + 1) % 2 ^ 32 := by
  have hsub : now + 1 - since = now - since + 1 := (sub_add_eq_add_sub now since 1).symm
  rw [hsub, UInt32.toNat_add]
  rfl

theorem ticksLeft_succ {limit : ℕ} {now since : UInt32} (hlimit : 0 < limit ∧ limit < 2 ^ 31)
    (h : (now + 1 - since).toNat ≤ limit) :
    ticksLeft limit (now + 1 - since).toNat < ticksLeft limit (now - since).toNat := by
  have hage := (now - since).toNat_lt
  rw [age_succ] at h ⊢
  generalize (now - since).toNat = age at h hage ⊢
  by_cases hwrap : age = 2 ^ 32 - 1
  · have hmod : (age + 1) % 2 ^ 32 = 0 := by omega
    have hfresh : ticksLeft limit 0 = limit + 1 := by
      rw [ticksLeft, if_neg (by decide), if_neg (by omega), Nat.sub_zero]
    have hlast : ticksLeft limit age = limit + 2 := if_pos hwrap
    rw [hmod, hfresh, hlast]
    omega
  · have hmod : (age + 1) % 2 ^ 32 = age + 1 := Nat.mod_eq_of_lt (by omega)
    rw [hmod] at h ⊢
    unfold ticksLeft
    split_ifs <;> omega

end Countdown

namespace Machine
variable {σ ι ρ : Type*} (step : σ → ι → σ × ρ)

theorem reaches_of_budget {P G : σ → Prop} {Q : Entry σ ι ρ → Prop} (counts : σ → ι → Bool)
    (budget : σ → ℕ) (hpos : ∀ s, P s → 0 < budget s)
    (hstep : ∀ s i, P s → Q (entry step s i) → G (step s i).1 ∨
      P (step s i).1 ∧ budget (step s i).1 + (if counts s i then 1 else 0) ≤ budget s)
    {s : σ} (hs : P s) (is : List ι) (hQ : ∀ e ∈ trace step s is, Q e)
    (hcount : budget s ≤ (trace step s is).countP fun e => counts e.pre e.input) :
    ∃ k, G (exec step s (is.take k)) := by
  induction is generalizing s with
  | nil =>
    have := hpos s hs
    simp only [trace, List.countP_nil] at hcount
    omega
  | cons i is ih =>
    rw [trace, List.forall_mem_cons] at hQ
    rw [trace, List.countP_cons] at hcount
    rcases hstep s i hs hQ.1 with hdone | ⟨hs', hbudget⟩
    · exact ⟨1, hdone⟩
    · have hrest : budget (step s i).1 ≤
          (trace step (step s i).1 is).countP fun e => counts e.pre e.input := by
        cases hc : counts s i <;> simp [entry, hc] at hcount hbudget <;> omega
      obtain ⟨k, hk⟩ := ih hs' hQ.2 hrest
      exact ⟨k + 1, hk⟩

end Machine
