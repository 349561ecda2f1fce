import Mathlib

/-! Readers that take their input in pieces: when every step is also taken with more input behind
it, how the input was cut makes no difference. -/

universe u v w

structure Reader (σ : Type u) (β : Type v) (ο : Type w) where
  step : σ → Option (σ × List ο)
  push : σ → List β → σ
  size : σ → ℕ
  push_append : ∀ s xs ys, push (push s xs) ys = push s (xs ++ ys)
  step_push : ∀ s s' out ys, step s = some (s', out) → step (push s ys) = some (push s' ys, out)
  step_size : ∀ s s' out, step s = some (s', out) → size s' < size s

namespace Reader
variable {σ : Type u} {β : Type v} {ο : Type w} (R : Reader σ β ο)

/-- Steps until the reader waits, at most `fuel`. -/
def drain : (fuel : ℕ) → σ → σ × List ο
  | 0, s => (s, [])
  | fuel + 1, s =>
    match R.step s with
    | none => (s, [])
    | some (s', out) => ((drain fuel s').1, out ++ (drain fuel s').2)

theorem drain_fuel {fuel fuel' : ℕ} {s : σ} (h : R.size s ≤ fuel) (h' : R.size s ≤ fuel') :
    R.drain fuel s = R.drain fuel' s := by
  induction fuel generalizing s fuel' with
  | zero =>
    cases hstep : R.step s with
    | none => cases fuel' <;> simp [drain, hstep]
    | some r =>
      have := R.step_size s r.1 r.2 hstep
      omega
  | succ fuel ih =>
    cases hstep : R.step s with
    | none => cases fuel' <;> simp [drain, hstep]
    | some r =>
      have hlt := R.step_size s r.1 r.2 hstep
      cases fuel' with
      | zero => omega
      | succ fuel' =>
        have hrest : R.drain fuel r.1 = R.drain fuel' r.1 := ih (by omega) (by omega)
        simp [drain, hstep, hrest]

def settle (s : σ) : σ × List ο := R.drain (R.size s) s

theorem settle_of_none {s : σ} (h : R.step s = none) : R.settle s = (s, []) := by
  unfold settle
  cases R.size s <;> simp [drain, h]

theorem settle_of_some {s s' : σ} {out : List ο} (h : R.step s = some (s', out)) :
    R.settle s = ((R.settle s').1, out ++ (R.settle s').2) := by
  have hlt := R.step_size s s' out h
  obtain ⟨n, hn⟩ : ∃ n, R.size s = n + 1 := ⟨R.size s - 1, by omega⟩
  have hrest : R.drain n s' = R.settle s' := R.drain_fuel (by omega) (Nat.le_refl _)
  rw [settle, hn]
  simp [drain, h, hrest]

theorem settle_induction {motive : σ → Prop} (hwait : ∀ s, R.step s = none → motive s)
    (hstep : ∀ s s' out, R.step s = some (s', out) → motive s' → motive s) (s : σ) : motive s := by
  induction hn : R.size s using Nat.strongRecOn generalizing s with
  | _ n ih =>
    cases h : R.step s with
    | none => exact hwait s h
    | some r => exact hstep s r.1 r.2 h (ih _ (hn ▸ R.step_size s r.1 r.2 h) r.1 rfl)

def feed (s : σ) (xs : List β) : σ × List ο := R.settle (R.push s xs)

theorem settle_push (s : σ) (ys : List β) : R.settle (R.push s ys) =
      ((R.feed (R.settle s).1 ys).1, (R.settle s).2 ++ (R.feed (R.settle s).1 ys).2) := by
  induction s using R.settle_induction with
  | hwait s h => simp [R.settle_of_none h, feed]
  | hstep s s' out h ih =>
    rw [R.settle_of_some h, R.settle_of_some (R.step_push s s' out ys h), ih]
    simp

theorem feed_append (s : σ) (xs ys : List β) : R.feed s (xs ++ ys) =
      ((R.feed (R.feed s xs).1 ys).1, (R.feed s xs).2 ++ (R.feed (R.feed s xs).1 ys).2) := by
  rw [feed, ← R.push_append]
  exact R.settle_push (R.push s xs) ys

def feedAll : σ → List (List β) → σ × List ο
  | s, [] => (s, [])
  | s, xs :: rest => ((feedAll (R.feed s xs).1 rest).1, (R.feed s xs).2 ++
      (feedAll (R.feed s xs).1 rest).2)

theorem feedAll_eq {s : σ} {xs : List β} {rest : List (List β)} :
    R.feedAll s (xs :: rest) = R.feed s (xs :: rest).flatten := by
  induction rest generalizing s xs with
  | nil => simp [feedAll]
  | cons ys rest ih =>
    rw [feedAll, ih]
    rw [List.flatten_cons (l := xs), R.feed_append]

end Reader
