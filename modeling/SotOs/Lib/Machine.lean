import Mathlib

/-! Runs of a deterministic machine that answers every input: the state reached, the recorded
exchanges, and the induction rule that follows both. -/

namespace Machine
open List
variable {σ ι ρ : Type*}

/-- One exchange of a run: the state that received the input, and the reply it gave. -/
structure Entry (σ ι ρ : Type*) where
  pre : σ
  input : ι
  reply : ρ

variable (step : σ → ι → σ × ρ)

def exec : σ → List ι → σ
  | s, [] => s
  | s, i :: is => exec (step s i).1 is

variable (s : σ)

def entry (i : ι) : Entry σ ι ρ := ⟨s, i, (step s i).2⟩

def trace : σ → List ι → List (Entry σ ι ρ)
  | _, [] => []
  | s, i :: is => entry step s i :: trace (step s i).1 is

variable (is : List ι)

theorem exec_append (js : List ι) :
    exec step s (is ++ js) = exec step (exec step s is) js := by
  induction is generalizing s with
  | nil => rfl
  | cons i is ih => simpa only [cons_append, exec] using ih (step s i).1

theorem trace_append (js : List ι) :
    trace step s (is ++ js) = trace step s is ++ trace step (exec step s is) js := by
  induction is generalizing s with
  | nil => rfl
  | cons i is ih =>
    simp only [cons_append, trace, exec, ih (step s i).1]

theorem length_trace : (trace step s is).length = is.length := by
  induction is generalizing s with
  | nil => rfl
  | cons i is ih => simp only [trace, length_cons, ih]

theorem trace_induction {P : List (Entry σ ι ρ) → σ → Prop} {s₀ : σ} (h0 : P [] s₀)
    (hstep : ∀ h s i, P h s → P (h ++ [entry step s i]) (step s i).1) (is : List ι) :
    P (trace step s₀ is) (exec step s₀ is) := by
  induction is using reverseRecOn with
  | nil => exact h0
  | append_singleton is i ih =>
    rw [trace_append, exec_append]
    exact hstep _ _ i ih

variable {P : σ → Prop}

theorem exec_invariant (hstep : ∀ s i, P s → P (step s i).1) {s₀ : σ}
    (h0 : P s₀) (is : List ι) : P (exec step s₀ is) :=
  trace_induction step (P := fun _ s => P s) h0 (fun _ s i => hstep s i) is

theorem trace_induction_of {P : List (Entry σ ι ρ) → σ → Prop} {Q : Entry σ ι ρ → Prop} {s₀ : σ}
    (h0 : P [] s₀)
    (hstep : ∀ h s i, Q (entry step s i) → P h s → P (h ++ [entry step s i]) (step s i).1)
    (is : List ι) (hQ : ∀ e ∈ trace step s₀ is, Q e) :
    P (trace step s₀ is) (exec step s₀ is) := by
  refine trace_induction step (P := fun h s => (∀ e ∈ h, Q e) → P h s) (fun _ => h0) ?_ is hQ
  intro h s i ih hall
  rw [forall_mem_append, forall_mem_singleton] at hall
  exact hstep h s i hall.2 (ih hall.1)

variable {Q : Entry σ ι ρ → Prop}

theorem exec_invariant_of
    (hstep : ∀ s i, Q (entry step s i) → P s → P (step s i).1) {s₀ : σ} (h0 : P s₀)
    (is : List ι) (hQ : ∀ e ∈ trace step s₀ is, Q e) : P (exec step s₀ is) :=
  trace_induction_of step (P := fun _ s => P s) h0 (fun _ s i => hstep s i) is hQ

theorem always_iff_of {R : Entry σ ι ρ → Prop}
    (hstep : ∀ s i, R (entry step s i) → P s → (P (step s i).1 ↔ Q (entry step s i))) {s₀ : σ}
    (h0 : P s₀) (is : List ι) (hR : ∀ e ∈ trace step s₀ is, R e) :
    (∀ k, P (exec step s₀ (is.take k))) ↔ ∀ e ∈ trace step s₀ is, Q e := by
  induction is generalizing s₀ with
  | nil => simpa [trace, exec] using h0
  | cons i is ih =>
    rw [trace, forall_mem_cons] at hR ⊢
    constructor
    · intro hall
      have h1 : P (step s₀ i).1 := hall 1
      exact ⟨(hstep s₀ i hR.1 h0).mp h1, (ih h1 hR.2).mp fun k => hall (k + 1)⟩
    · rintro ⟨hi, hrest⟩ k
      cases k with
      | zero => exact h0
      | succ k => exact (ih ((hstep s₀ i hR.1 h0).mpr hi) hR.2).mpr hrest k

theorem always_iff
    (hstep : ∀ s i, P s → (P (step s i).1 ↔ Q (entry step s i))) {s₀ : σ} (h0 : P s₀)
    (is : List ι) : (∀ k, P (exec step s₀ (is.take k))) ↔ ∀ e ∈ trace step s₀ is, Q e :=
  always_iff_of step (R := fun _ => True) (fun s i _ => hstep s i) h0 is fun _ _ => trivial

theorem mem_trace_input {s : σ} {is : List ι} {e : Entry σ ι ρ} (h : e ∈ trace step s is) :
    e.input ∈ is := by
  induction is generalizing s with
  | nil => cases h
  | cons i is ih =>
    rcases mem_cons.mp h with rfl | h
    · exact mem_cons_self
    · exact mem_cons_of_mem i (ih h)

theorem mem_trace_reply {s : σ} {is : List ι} {e : Entry σ ι ρ} (h : e ∈ trace step s is) :
    e.reply = (step e.pre e.input).2 := by
  induction is generalizing s with
  | nil => cases h
  | cons i is ih =>
    rcases mem_cons.mp h with rfl | h
    · rfl
    · exact ih h

theorem trace_pre_invariant (hstep : ∀ s i, P s → P (step s i).1) {s₀ : σ}
    (h0 : P s₀) {is : List ι} {e : Entry σ ι ρ} (h : e ∈ trace step s₀ is) : P e.pre := by
  induction is generalizing s₀ with
  | nil => cases h
  | cons i is ih =>
    rcases mem_cons.mp h with rfl | h
    · exact h0
    · exact ih (hstep s₀ i h0) h

theorem trace_forall_congr {R : Entry σ ι ρ → Prop}
    (hstep : ∀ s i, P s → P (step s i).1)
    (hiff : ∀ s i, P s → (Q (entry step s i) ↔ R (entry step s i))) {s₀ : σ} (h0 : P s₀)
    (is : List ι) : (∀ e ∈ trace step s₀ is, Q e) ↔ ∀ e ∈ trace step s₀ is, R e := by
  refine forall₂_congr fun e he => ?_
  have hentry : e = entry step e.pre e.input := by
    obtain ⟨pre, input, reply⟩ := e
    rw [entry, ← mem_trace_reply step he]
  rw [hentry]
  exact hiff e.pre e.input (trace_pre_invariant step hstep h0 he)

theorem trace_iff_of {R : Entry σ ι ρ → Prop} {D : ι → Prop}
    (hiff : ∀ s i, D i → P s → (Q (entry step s i) ↔ R (entry step s i)))
    (hkeep : ∀ s i, D i → P s → R (entry step s i) → P (step s i).1) {s₀ : σ} (h0 : P s₀)
    (is : List ι) (hD : ∀ i ∈ is, D i) :
    (∀ e ∈ trace step s₀ is, Q e) ↔ ∀ e ∈ trace step s₀ is, R e := by
  induction is generalizing s₀ with
  | nil => simp [trace]
  | cons i is ih =>
    rw [forall_mem_cons] at hD
    rw [trace, forall_mem_cons, forall_mem_cons]
    have hfirst := hiff s₀ i hD.1 h0
    constructor
    · rintro ⟨hq, hrest⟩
      have hr := hfirst.mp hq
      exact ⟨hr, (ih (hkeep s₀ i hD.1 h0 hr) hD.2).mp hrest⟩
    · rintro ⟨hr, hrest⟩
      exact ⟨hfirst.mpr hr, (ih (hkeep s₀ i hD.1 h0 hr) hD.2).mpr hrest⟩

theorem trace_take {s : σ} {is : List ι} {n : ℕ} :
    trace step s (is.take n) = (trace step s is).take n := by
  induction is generalizing s n with
  | nil => simp [trace]
  | cons i is ih =>
    cases n with
    | zero => rfl
    | succ n => simp only [take_succ_cons, trace, ih]

theorem trace_drop (n : ℕ) :
    (trace step s is).drop n = trace step (exec step s (is.take n)) (is.drop n) := by
  induction is generalizing s n with
  | nil => simp [trace, exec]
  | cons i is ih =>
    cases n with
    | zero => rfl
    | succ n => simp only [take_succ_cons, drop_succ_cons, trace, exec, ih]

theorem trace_getElem {s : σ} {is : List ι} {e : Entry σ ι ρ} {n : ℕ}
    (h : (trace step s is)[n]? = some e) :
    ∃ i, is[n]? = some i ∧ e = entry step (exec step s (is.take n)) i := by
  induction is generalizing s n with
  | nil => simp [trace] at h
  | cons i is ih =>
    cases n with
    | zero =>
      rw [trace, getElem?_cons_zero, Option.some.injEq] at h
      exact ⟨i, rfl, h.symm⟩
    | succ n =>
      rw [trace, getElem?_cons_succ] at h
      exact ih h

theorem mem_trace_segment {s : σ} {is : List ι} {a k : ℕ} {e : Entry σ ι ρ} :
    e ∈ trace step (exec step s (is.take a)) ((is.take k).drop a) ↔
      a ≤ k ∧ ∃ n, a ≤ n ∧ n < k ∧ (trace step s is)[n]? = some e := by
  by_cases hak : a ≤ k
  · have htake : is.take a = (is.take k).take a := by rw [take_take, Nat.min_eq_left hak]
    rw [htake, ← trace_drop, trace_take, mem_iff_getElem?]
    simp only [hak, true_and, getElem?_drop, getElem?_take]
    constructor
    · rintro ⟨n, hn⟩
      split_ifs at hn with hlt
      exact ⟨a + n, by omega, hlt, hn⟩
    · rintro ⟨n, han, hnk, hn⟩
      exact ⟨n - a, by rw [Nat.add_sub_cancel' han, if_pos hnk, hn]⟩
  · have hnil : (is.take k).drop a = [] := by
      rw [drop_eq_nil_iff, length_take]
      omega
    simp [hnil, trace, hak]

theorem exec_segment {a k : ℕ} (hak : a ≤ k) :
    exec step (exec step s (is.take a)) ((is.take k).drop a) = exec step s (is.take k) := by
  have htake : is.take a = (is.take k).take a := by rw [take_take, Nat.min_eq_left hak]
  rw [htake, ← exec_append, take_append_drop]

end Machine
