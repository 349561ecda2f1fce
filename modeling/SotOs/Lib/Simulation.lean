import SotOs.Lib.Machine

/-! Two machines run side by side on the same requests: a relation kept by every pair of matching
steps, with replies that agree, makes the replies of whole runs agree. -/

namespace Machine
open List
variable {σ τ ι κ ρ ν : Type*} (stepA : σ → ι → σ × ρ) (stepB : τ → κ → τ × ν)

theorem simulation {R : σ → τ → Prop} {f : ι → κ} {g : ρ → ν} {Q : Entry σ ι ρ → Prop}
    {P : Entry τ κ ν → Prop}
    (hstep : ∀ s t i, R s t → Q (entry stepA s i) → P (entry stepB t (f i)) →
      R (stepA s i).1 (stepB t (f i)).1 ∧ g (stepA s i).2 = (stepB t (f i)).2)
    {s : σ} {t : τ} (h0 : R s t) (is : List ι) (hQ : ∀ e ∈ trace stepA s is, Q e)
    (hP : ∀ e ∈ trace stepB t (is.map f), P e) :
    R (exec stepA s is) (exec stepB t (is.map f)) ∧ (trace stepA s is).map (fun e => g e.reply) =
        (trace stepB t (is.map f)).map fun e => e.reply := by
  induction is generalizing s t with
  | nil => exact ⟨h0, rfl⟩
  | cons i is ih =>
    rw [trace, forall_mem_cons] at hQ
    rw [map_cons, trace, forall_mem_cons] at hP
    obtain ⟨hnext, hreply⟩ := hstep s t i h0 hQ.1 hP.1
    obtain ⟨hlast, hrest⟩ := ih hnext hQ.2 hP.2
    refine ⟨hlast, ?_⟩
    rw [map_cons, trace, trace, map_cons, map_cons, hrest]
    exact congrArg (· :: _) hreply

end Machine
