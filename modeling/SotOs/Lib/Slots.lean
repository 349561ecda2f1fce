import Mathlib

/-! Tables of `n` slots scanned by index: the first slot that passes a test, the same scan started
at a rotating hint, and one-based slot numbers where `0` stands for no slot. -/

namespace Slots
open List Option
variable {n : ℕ}

/-- The last `k` iterations of `for (i = 0; i < n; i++)`, stopping at the first hit. -/
def scan (p : Fin n → Bool) : (k : ℕ) → k ≤ n → Option (Fin n)
  | 0, _ => none
  | k + 1, h =>
    if p ⟨n - (k + 1), by omega⟩ then some ⟨n - (k + 1), by omega⟩
    else scan p k (Nat.le_of_succ_le h)

variable (hint : ℕ) {p : Fin n → Bool}

@[irreducible] def first (p : Fin n → Bool) : Option (Fin n) := scan p n le_rfl

theorem scan_some : ∀ {k : ℕ} {h : k ≤ n} {i : Fin n}, scan p k h = some i →
    p i = true ∧ n - k ≤ i.val ∧ ∀ j : Fin n, n - k ≤ j.val → j < i → p j = false
  | 0, _, _, hs => by simp [scan] at hs
  | k + 1, h, i, hs => by
    rw [scan] at hs
    split_ifs at hs with hp
    · obtain ⟨⟩ := hs
      refine ⟨hp, le_rfl, fun j hj hlt => ?_⟩
      have : j.val < n - (k + 1) := hlt
      omega
    · obtain ⟨hi, hle, hmin⟩ := scan_some hs
      refine ⟨hi, by omega, fun j hj hlt => ?_⟩
      -- either `j` is the slot tested here, or it lies in the rest of the scan
      by_cases hj' : j.val = n - (k + 1)
      · have : j = ⟨n - (k + 1), by omega⟩ := Fin.ext hj'
        simpa [this] using hp
      · exact hmin j (by omega) hlt

theorem scan_none : ∀ {k : ℕ} {h : k ≤ n}, scan p k h = none →
    ∀ j : Fin n, n - k ≤ j.val → p j = false
  | 0, _, _, j, hj => by
    have := j.isLt
    omega
  | k + 1, h, hs, j, hj => by
    rw [scan] at hs
    split_ifs at hs with hp
    by_cases hj' : j.val = n - (k + 1)
    · have : j = ⟨n - (k + 1), by omega⟩ := Fin.ext hj'
      simpa [this] using hp
    · exact scan_none hs j (by omega)

variable {i : Fin n}

theorem first_some (h : first p = some i) : p i = true := by
  rw [first] at h
  exact (scan_some h).1

theorem first_min {j : Fin n} (h : first p = some i) (hj : j < i) :
    p j = false := by
  rw [first] at h
  exact (scan_some h).2.2 j (by omega) hj

theorem first_none (h : first p = none) (j : Fin n) : p j = false := by
  rw [first] at h
  exact scan_none h j (by omega)

theorem first_eq_none (h : ∀ j, p j = false) : first p = none := by
  cases hf : first p with
  | none => rfl
  | some i =>
    have hi := first_some hf
    rw [h i] at hi
    cases hi

theorem first_isSome {j : Fin n} (h : p j = true) : ∃ i, first p = some i := by
  cases hf : first p with
  | none => simp [first_none hf j] at h
  | some i => exact ⟨i, rfl⟩

theorem first_eq_of_unique (hi : p i = true)
    (huniq : ∀ j, p j = true → j = i) : first p = some i := by
  obtain ⟨j, hj⟩ := first_isSome hi
  rw [hj, huniq j (first_some hj)]

theorem first_eq_of_min (hi : p i = true)
    (hmin : ∀ j < i, p j = false) : first p = some i := by
  obtain ⟨j, hj⟩ := first_isSome hi
  rw [hj]
  rcases lt_trichotomy j i with hlt | rfl | hgt
  · have := first_some hj
    simp [hmin j hlt] at this
  · rfl
  · simp [first_min hj hgt] at hi

theorem first_congr {q : Fin n → Bool} (h : ∀ i, p i = q i) : first p = first q :=
  congrArg first (funext h)

def firstMap {α : Type*} (f : Fin n → Option α) : Option (Fin n × α) :=
  (first fun i => (f i).isSome).bind fun i => (f i).map fun a => (i, a)

theorem firstMap_some {α : Type*} {f : Fin n → Option α} {i : Fin n} {a : α}
    (h : firstMap f = some (i, a)) : f i = some a := by
  obtain ⟨j, -, hj⟩ := bind_eq_some_iff.mp h
  obtain ⟨b, hb, heq⟩ := map_eq_some_iff.mp hj
  cases heq
  exact hb

theorem firstMap_none {α : Type*} {f : Fin n → Option α} (h : firstMap f = none) {i : Fin n} :
    f i = none := by
  cases hf : first fun i => (f i).isSome with
  | none => simpa using first_none hf i
  | some j =>
    obtain ⟨a, ha⟩ := isSome_iff_exists.mp (first_some hf)
    rw [firstMap, hf, bind_some, ha] at h
    cases h

def rot (i : Fin n) : Fin n := ⟨(hint + i.val) % n, Nat.mod_lt _ i.pos⟩

def firstFrom (p : Fin n → Bool) : Option (Fin n) :=
  (first fun i => p (rot hint i)).map (rot hint)

theorem firstFrom_some {hint : ℕ} {p : Fin n → Bool} {i : Fin n}
    (h : firstFrom hint p = some i) : p i = true := by
  obtain ⟨j, hj, rfl⟩ := map_eq_some_iff.mp h
  exact first_some (p := fun i => p (rot hint i)) hj

theorem rot_surjective : Function.Surjective (rot (n := n) hint) := by
  intro j
  have hn := j.pos
  have hj := j.isLt
  have hm := Nat.mod_lt hint hn
  have hval : (hint + (j.val + (n - hint % n)) % n) % n = j.val := by
    rw [Nat.add_mod_mod]
    have he : hint + (j.val + (n - hint % n)) = j.val + n * (hint / n + 1) := by
      have := Nat.div_add_mod hint n
      rw [Nat.mul_add, Nat.mul_one]
      omega
    rw [he, Nat.add_mul_mod_self_left, Nat.mod_eq_of_lt hj]
  exact ⟨⟨(j.val + (n - hint % n)) % n, Nat.mod_lt _ hn⟩, Fin.ext hval⟩

theorem firstFrom_none {hint : ℕ} {p : Fin n → Bool} (h : firstFrom hint p = none) (j : Fin n) :
    p j = false := by
  obtain ⟨i, rfl⟩ := rot_surjective hint j
  exact first_none (map_eq_none_iff.mp h) i

theorem firstFrom_isSome (h : ∃ i, p i = true) :
    ∃ i, firstFrom hint p = some i := by
  cases hfirst : firstFrom hint p with
  | some i => exact ⟨i, rfl⟩
  | none =>
    obtain ⟨i, hi⟩ := h
    rw [firstFrom_none hfirst i] at hi
    cases hi

def highWater (p : Fin n → Bool) : ℕ :=
  (List.finRange n).foldl (fun high i => if p i then i.val + 1 else high) 0

theorem le_foldl_high {l : List (Fin n)} (hl : l.Pairwise (· < ·)) {high : ℕ}
    (h : ∀ i ∈ l, high ≤ i.val + 1) :
    high ≤ l.foldl (fun high i => if p i then i.val + 1 else high) high := by
  induction l generalizing high with
  | nil => exact le_rfl
  | cons k l ih =>
    rw [pairwise_cons] at hl
    rw [forall_mem_cons] at h
    rw [foldl_cons]
    split_ifs
    · refine h.1.trans (ih hl.2 fun i hi => ?_)
      have : k.val < i.val := hl.1 i hi
      omega
    · exact ih hl.2 h.2

theorem lt_highWater (h : p i = true) : i.val < highWater p := by
  have hkey : ∀ (l : List (Fin n)), l.Pairwise (· < ·) → i ∈ l → ∀ high,
      i.val < l.foldl (fun high i => if p i then i.val + 1 else high) high := by
    intro l
    induction l with
    | nil => simp
    | cons k l ih =>
      intro hl hi high
      rw [pairwise_cons] at hl
      rw [foldl_cons]
      rcases mem_cons.mp hi with rfl | hi
      · rw [if_pos h]
        apply le_foldl_high hl.2
        intro j hj
        have : i.val < j.val := hl.1 j hj
        omega
      · exact ih hl.2 hi _
  exact hkey _ (pairwise_lt_finRange n) (mem_finRange i) 0

theorem flatMap_only {β : Type*} (i : Fin n) (E : Fin n → List β) :
    ((List.finRange n).flatMap fun j => if j = i then E j else []) = E i := by
  have hkey : ∀ l : List (Fin n), l.Nodup →
      (l.flatMap fun j => if j = i then E j else []) = if i ∈ l then E i else [] := by
    intro l
    induction l with
    | nil => simp
    | cons k l ih =>
      intro hl
      rw [nodup_cons] at hl
      rw [flatMap_cons, ih hl.2]
      by_cases hk : k = i
      · subst hk
        simp [hl.1]
      · simp [hk, Ne.symm hk]
  rw [hkey _ (nodup_finRange n), if_pos (mem_finRange i)]

def ofId (n : ℕ) (id : ℤ) : Option (Fin n) :=
  if h : 0 < id ∧ id ≤ n then some ⟨id.toNat - 1, by omega⟩ else none

def toId (i : Fin n) : ℤ := i.val + 1

@[simp] theorem ofId_toId (i : Fin n) : ofId n (toId i) = some i := by
  have hi := i.isLt
  have h : 0 < toId i ∧ toId i ≤ n := by unfold toId; omega
  rw [ofId, dif_pos h, some.injEq]
  apply Fin.ext
  simp [toId]

theorem ofId_eq_some {id : ℤ} {i : Fin n} (h : ofId n id = some i) : id = toId i := by
  unfold ofId at h
  split_ifs at h with hid
  obtain ⟨⟩ := h
  simp only [toId]
  omega

theorem toId_injective : Function.Injective (toId (n := n)) := by
  intro i j h
  apply Fin.ext
  unfold toId at h
  omega

theorem toId_pos : 0 < toId i := by
  unfold toId
  omega

end Slots
