import Mathlib

/-! A write-back cache over a memory: what the two hold together, and how filling, overwriting,
flushing and dropping a line change it. -/

namespace WriteBack
open Option Function
variable {ι K V : Type*}

structure Line (K V : Type*) where
  key : Option K
  dirty : Bool
  val : V

structure Cache (ι K V : Type*) where
  mem : K → V
  line : ι → Line K V

/-- No key is cached twice, and a clean line holds what the memory does. -/
structure Coherent (c : Cache ι K V) : Prop where
  unique : ∀ i j k, (c.line i).key = some k → (c.line j).key = some k → i = j
  clean : ∀ i k, (c.line i).key = some k → (c.line i).dirty = false → (c.line i).val = c.mem k

open Classical in
noncomputable def view (c : Cache ι K V) (k : K) : V :=
  if h : ∃ i, (c.line i).key = some k then (c.line h.choose).val else c.mem k

variable {c : Cache ι K V}

theorem view_hit (h : Coherent c) {i : ι} {k : K}
    (hi : (c.line i).key = some k) : view c k = (c.line i).val := by
  have hex : ∃ i, (c.line i).key = some k := ⟨i, hi⟩
  rw [view, dif_pos hex, h.unique _ _ _ hex.choose_spec hi]

theorem view_miss {k : K} (h : ∀ i, (c.line i).key ≠ some k) :
    view c k = c.mem k := dif_neg fun ⟨i, hi⟩ => h i hi

theorem view_eq (h : Coherent c) {f : K → V}
    (hhit : ∀ i k, (c.line i).key = some k → f k = (c.line i).val)
    (hmiss : ∀ k, (∀ i, (c.line i).key ≠ some k) → f k = c.mem k) : view c = f := by
  funext k
  by_cases hk : ∃ i, (c.line i).key = some k
  · obtain ⟨i, hi⟩ := hk
    rw [view_hit h hi, hhit i k hi]
  · have hnone : ∀ i, (c.line i).key ≠ some k := fun i hi => hk ⟨i, hi⟩
    rw [view_miss hnone, hmiss k hnone]

theorem Coherent.view_of_clean (h : Coherent c)
    (hclean : ∀ i, (c.line i).dirty = false) : view c = c.mem :=
  view_eq h (fun i k hi => (h.clean i k hi (hclean i)).symm) fun _ _ => rfl

section
variable [DecidableEq ι] [DecidableEq K]

variable (c : Cache ι K V)

def Cache.setLine (i : ι) (l : Line K V) : Cache ι K V :=
  { c with line := Function.update c.line i l }

def Cache.flush (i : ι) (k : K) : Cache ι K V :=
  { mem := Function.update c.mem k (c.line i).val
    line := Function.update c.line i { c.line i with dirty := false } }

omit [DecidableEq K] in
theorem line_setLine_self (i : ι) (l : Line K V) : (c.setLine i l).line i = l :=
  update_self ..

omit [DecidableEq K] in
theorem line_setLine_ne {i j : ι} (l : Line K V) (h : j ≠ i) :
    (c.setLine i l).line j = c.line j := Function.update_of_ne h ..

theorem Coherent.put {c : Cache ι K V} (h : Coherent c) {i : ι} {k : K} {l : Line K V}
    (hother : ∀ j, (c.line j).key = some k → j = i)
    (hold : (c.line i).key = some k ∨ (c.line i).dirty = false)
    (hkey : l.key = some k) (hclean : l.dirty = false → l.val = c.mem k) :
    Coherent (c.setLine i l) ∧ view (c.setLine i l) = Function.update (view c) k l.val := by
  have hcoh : Coherent (c.setLine i l) := by
    constructor
    · intro a b k' ha hb
      by_cases hai : a = i <;> by_cases hbi : b = i
      · rw [hai, hbi]
      · subst hai
        rw [line_setLine_self, hkey, some.injEq] at ha
        rw [line_setLine_ne c l hbi, ← ha] at hb
        exact absurd (hother b hb) hbi
      · subst hbi
        rw [line_setLine_self, hkey, some.injEq] at hb
        rw [line_setLine_ne c l hai, ← hb] at ha
        exact absurd (hother a ha) hai
      · rw [line_setLine_ne c l hai] at ha
        rw [line_setLine_ne c l hbi] at hb
        exact h.unique a b k' ha hb
    · intro a k' ha hd
      by_cases hai : a = i
      · subst hai
        rw [line_setLine_self] at ha hd ⊢
        rw [hkey, some.injEq] at ha
        rw [← ha]
        exact hclean hd
      · rw [line_setLine_ne c l hai] at ha hd ⊢
        exact h.clean a k' ha hd
  refine ⟨hcoh, view_eq hcoh ?_ ?_⟩
  · intro a k' ha
    by_cases hai : a = i
    · subst hai
      rw [line_setLine_self] at ha ⊢
      rw [hkey, some.injEq] at ha
      rw [← ha, update_self]
    · rw [line_setLine_ne c l hai] at ha ⊢
      have hne : k' ≠ k := by
        rintro rfl
        exact hai (hother a ha)
      rw [update_of_ne hne, view_hit h ha]
  · intro k' hnone
    have hne : k' ≠ k := by
      rintro rfl
      exact hnone i (by rw [line_setLine_self, hkey])
    rw [update_of_ne hne]
    -- the key was cached at most in the line replaced, where it was clean
    by_cases hik : (c.line i).key = some k'
    · have hdirty : (c.line i).dirty = false := by
        refine hold.resolve_left fun hk => hne ?_
        exact some.inj (hik.symm.trans hk)
      rw [view_hit h hik]
      exact h.clean i k' hik hdirty
    · apply view_miss
      intro a ha
      by_cases hai : a = i
      · exact hik (hai ▸ ha)
      · exact hnone a (by rw [line_setLine_ne c l hai, ha])

theorem Coherent.drop {c : Cache ι K V} (h : Coherent c) {i : ι} {k : K} {l : Line K V}
    (hold : (c.line i).key = some k) (hkey : l.key = none) :
    Coherent (c.setLine i l) ∧ view (c.setLine i l) = Function.update (view c) k (c.mem k) := by
  have hother : ∀ {a k'}, ((c.setLine i l).line a).key = some k' → a ≠ i := by
    rintro a k' ha rfl
    rw [line_setLine_self, hkey] at ha
    cases ha
  have hcoh : Coherent (c.setLine i l) := by
    constructor
    · intro a b k' ha hb
      rw [line_setLine_ne c l (hother ha)] at ha
      rw [line_setLine_ne c l (hother hb)] at hb
      exact h.unique a b k' ha hb
    · intro a k' ha hd
      have hai := hother ha
      rw [line_setLine_ne c l hai] at ha hd ⊢
      exact h.clean a k' ha hd
  refine ⟨hcoh, view_eq hcoh ?_ ?_⟩
  · intro a k' ha
    have hai := hother ha
    rw [line_setLine_ne c l hai] at ha ⊢
    have hne : k' ≠ k := by
      rintro rfl
      exact hai (h.unique a i k' ha hold)
    rw [update_of_ne hne, view_hit h ha]
  · intro k' hnone
    by_cases hk : k' = k
    · rw [hk, update_self]
      rfl
    · rw [update_of_ne hk]
      apply view_miss
      intro a ha
      by_cases hai : a = i
      · rw [hai, hold, some.injEq] at ha
        exact hk ha.symm
      · exact hnone a (by rw [line_setLine_ne c l hai, ha])

theorem Coherent.flush {c : Cache ι K V} (h : Coherent c) {i : ι} {k : K}
    (hi : (c.line i).key = some k) :
    Coherent (c.flush i k) ∧ view (c.flush i k) = view c := by
  have hkey : ∀ a, ((c.flush i k).line a).key = (c.line a).key := by
    intro a
    by_cases hai : a = i
    · subst hai
      simp only [Cache.flush, update_self]
    · simp only [Cache.flush, update_of_ne hai]
  have hval : ∀ a, ((c.flush i k).line a).val = (c.line a).val := by
    intro a
    by_cases hai : a = i
    · subst hai
      simp only [Cache.flush, update_self]
    · simp only [Cache.flush, update_of_ne hai]
  have hcoh : Coherent (c.flush i k) := by
    constructor
    · intro a b k' ha hb
      rw [hkey] at ha hb
      exact h.unique a b k' ha hb
    · intro a k' ha hd
      rw [hkey] at ha
      rw [hval]
      by_cases hk : k' = k
      · subst hk
        rw [h.unique a i k' ha hi]
        simp only [Cache.flush, update_self]
      · have hai : a ≠ i := by
          rintro rfl
          exact hk (some.inj (ha.symm.trans hi))
        simp only [Cache.flush, update_of_ne hk, update_of_ne hai] at hd ⊢
        exact h.clean a k' ha hd
  refine ⟨hcoh, view_eq hcoh ?_ ?_⟩
  · intro a k' ha
    rw [hkey] at ha
    rw [hval, view_hit h ha]
  · intro k' hnone
    have hne : k' ≠ k := by
      rintro rfl
      exact hnone i (by rw [hkey, hi])
    have hmiss : ∀ a, (c.line a).key ≠ some k' := fun a ha => hnone a (by rw [hkey, ha])
    rw [view_miss hmiss]
    simp only [Cache.flush, update_of_ne hne]

end

end WriteBack
