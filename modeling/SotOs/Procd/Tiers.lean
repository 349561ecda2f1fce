import SotOs.Procd.Effect

/-! Containment at process creation: what a caller's tier says about the child it gets. -/

namespace SotOs.Procd

structure Silenced (p : Proc) : Prop where
  tier : p.tier = procTier2
  functor : p.functor = ⟨ffsIsolated, fnetSynth, fprocSynthFork⟩

def Fills (s : Server) (out : Outcome) (i : Slot) : Prop :=
  (s.procs i).state = .free ∧ (out.1.procs i).state ≠ .free

structure ChildContained (s : Server) (out : Outcome) (c i : Slot) : Prop where
  denied : (s.procs c).tier ≠ procTier3
  silenced : (s.procs c).tier = procTier2 →
    Silenced (out.1.procs i) ∧ (out.1.procs i).cowSession = (out.1.procs c).cowSession
  tier : (out.1.procs c).tier ≤ (out.1.procs i).tier

def Contained (s : Server) (req : Request) : Prop :=
  ∀ caller c i, forkCaller req = some caller → procdTableGet caller = some c →
    Fills s (dispatch s req) i → ChildContained s (dispatch s req) c i

/-- A fork-like clone that gets a slot is not from Tier 3, and from Tier 2 only with the functors of
that tier. -/
def Guarded (s : Server) : Request → Prop
  | .clone caller flags _ _ =>
    flags &&& cloneUnsupported = 0 → flags &&& lxCloneThread = 0 → freeSlot s ≠ none →
      ∀ c, callerSlot s caller = some c → (s.procs c).tier ≠ procTier3 ∧
        ((s.procs c).tier = procTier2 →
          (s.procs c).functor = ⟨ffsIsolated, fnetSynth, fprocSynthFork⟩)
  | _ => True

variable {caller : UInt32}

section
variable {s s' : Server} {c i j : Slot} {child : Proc} {evs : List Event} {r : Reply}

theorem not_fills_same : ¬ Fills s (s, evs, r) j := fun h => h.2 h.1

theorem fills_only (h : procdSlotAlloc s = some (s', i))
    (hj : Fills s (s'.setProc i child, evs, r) j) : j = i := by
  by_contra hji
  refine hj.2 ?_
  rw [setProc_ne hji, alloc_other h hji]
  exact hj.1

theorem fills_child (h : procdSlotAlloc s = some (s', i)) (hstate : child.state ≠ .free) :
    Fills s (s'.setProc i child, evs, r) i := by
  refine ⟨(freeSlot_some (alloc_some h).1).2, ?_⟩
  rwa [setProc_self]

theorem forkReal_contained (ht : (s.procs c).tier = procTier0 ∨ (s.procs c).tier = procTier1)
    (hj : Fills s (doForkReal s c caller) j) : ChildContained s (doForkReal s c caller) c j := by
  have h2 : (s.procs c).tier ≠ procTier2 := by
    rcases ht with h | h <;> rw [h] <;> decide
  have h3 : (s.procs c).tier ≠ procTier3 := by
    rcases ht with h | h <;> rw [h] <;> decide
  unfold doForkReal at hj ⊢
  cases hall : procdSlotAlloc s with
  | none =>
    rw [hall] at hj
    exact absurd hj not_fills_same
  | some r =>
    obtain ⟨s', i⟩ := r
    rw [hall] at hj
    obtain rfl := fills_only hall hj
    refine ⟨h3, fun h => absurd h h2, ?_⟩
    dsimp only
    by_cases hc : c = j
    · rw [hc]
      exact UInt32.le_refl _
    · rw [setProc_ne hc, setProc_self]
      exact UInt32.le_refl _

theorem forkSynth_contained (ht : (s.procs c).tier = procTier2)
    (hj : Fills s (doForkSynth s c caller) j) : ChildContained s (doForkSynth s c caller) c j := by
  have h3 : (s.procs c).tier ≠ procTier3 := by
    rw [ht]
    decide
  unfold doForkSynth at hj ⊢
  cases hall : procdSlotAlloc s with
  | none =>
    rw [hall] at hj
    exact absurd hj not_fills_same
  | some r =>
    obtain ⟨s', i⟩ := r
    rw [hall] at hj
    obtain rfl := fills_only hall hj
    dsimp only
    by_cases hc : c = j
    · subst hc
      refine ⟨h3, fun _ => ⟨?_, rfl⟩, UInt32.le_refl _⟩
      rw [setProc_self]
      exact ⟨rfl, rfl⟩
    · refine ⟨h3, fun _ => ?_, ?_⟩
      · rw [setProc_self, setProc_ne hc]
        exact ⟨⟨rfl, rfl⟩, rfl⟩
      · rw [setProc_self, setProc_ne hc, alloc_other hall hc, ht]
        exact UInt32.le_refl _

theorem fork_contained : Contained s (.fork caller) := by
  intro caller' c i hcaller hget hfill
  obtain ⟨⟩ := hcaller
  rw [dispatch] at hfill ⊢
  unfold procdHandleFork at hfill ⊢
  simp only [hget] at hfill ⊢
  split_ifs at hfill ⊢ with h01 h2 h3
  · exact forkReal_contained h01 hfill
  · exact forkSynth_contained h2 hfill
  · exact absurd hfill not_fills_same
  · exact absurd hfill not_fills_same

theorem forkLike_contained (hall : procdSlotAlloc s = some (s', i)) (hci : c ≠ i)
    (htier : child.tier = (s.procs c).tier) (hfun : child.functor = (s.procs c).functor)
    (hcow : child.cowSession = (s.procs c).cowSession) :
    ChildContained s (s'.setProc i child, evs, r) c i ↔
      (s.procs c).tier ≠ procTier3 ∧ ((s.procs c).tier = procTier2 →
        (s.procs c).functor = ⟨ffsIsolated, fnetSynth, fprocSynthFork⟩) := by
  have hpost : (s'.setProc i child).procs c = s.procs c := by
    rw [setProc_ne hci, alloc_other hall hci]
  constructor
  · intro h
    refine ⟨h.denied, fun h2 => ?_⟩
    have hs := (h.silenced h2).1.functor
    rwa [setProc_self, hfun] at hs
  · rintro ⟨h3, h2⟩
    refine ⟨h3, fun ht => ?_, ?_⟩
    · rw [setProc_self, hpost]
      exact ⟨⟨htier.trans ht, hfun.trans (h2 ht)⟩, hcow⟩
    · rw [setProc_self, hpost, htier]
      exact UInt32.le_refl _

theorem not_fills_thread {tls ptr : UInt64} : ¬ Fills s (procdCloneThread s caller tls ptr) j := by
  unfold procdCloneThread
  split
  · exact not_fills_same
  next o hcall =>
    split
    · exact not_fills_same
    next s' ti hthread =>
      obtain ⟨hprocs, -⟩ := threadAlloc_some hthread
      rintro ⟨hfree, hne⟩
      by_cases hjo : j = o
      · subst hjo
        exact (callerSlot_some hcall).2.1 hfree
      · rw [setProc_ne hjo, setThread_procs, hprocs] at hne
        exact hne hfree

theorem forkLike_contained_iff {flags : UInt64} :
    (∀ c i, procdTableGet caller = some c → Fills s (procdCloneForkLike s caller flags) i →
        ChildContained s (procdCloneForkLike s caller flags) c i) ↔
      (freeSlot s ≠ none → ∀ c, callerSlot s caller = some c → (s.procs c).tier ≠ procTier3 ∧
        ((s.procs c).tier = procTier2 →
          (s.procs c).functor = ⟨ffsIsolated, fnetSynth, fprocSynthFork⟩)) := by
  unfold procdCloneForkLike
  cases hcall : callerSlot s caller with
  | none =>
    refine ⟨fun _ _ c h => (by cases h), fun _ c i _ hfill => ?_⟩
    exact absurd hfill not_fills_same
  | some c =>
    obtain ⟨hget, hthere, -⟩ := callerSlot_some hcall
    cases hall : procdSlotAlloc s with
    | none =>
      refine ⟨fun _ h => absurd (alloc_none hall) h, fun _ c i _ hfill => ?_⟩
      exact absurd hfill not_fills_same
    | some res =>
      obtain ⟨s', i⟩ := res
      have hfree := (alloc_some hall).1
      have hci : c ≠ i := by
        rintro rfl
        exact hthere (freeSlot_some hfree).2
      have hparent := alloc_other hall hci
      dsimp only
      rw [hparent]
      constructor
      · intro h _ c' hc'
        obtain ⟨⟩ := hc'
        refine (forkLike_contained hall hci ?_ ?_ ?_).mp
          (h c i hget (fills_child hall nofun)) <;> rfl
      · intro h c' j hc' hfill
        obtain rfl := Option.some.inj (hget.symm.trans hc')
        obtain rfl := fills_only hall hfill
        refine (forkLike_contained hall hci ?_ ?_ ?_).mpr (h (by simp [hfree]) c rfl) <;> rfl

end

/-- Containment is kept by exactly the requests that are guarded. -/
theorem contained_iff_guarded (s : Server) (req : Request) : Contained s req ↔ Guarded s req := by
  cases req with
  | clone caller flags tls ptr =>
    have hcontained : Contained s (.clone caller flags tls ptr) ↔
        ∀ c i, procdTableGet caller = some c → Fills s (procdHandleClone s caller flags tls ptr) i →
          ChildContained s (procdHandleClone s caller flags tls ptr) c i :=
      ⟨fun h c i => h caller c i rfl, fun h caller' c i hcaller => by
        obtain ⟨⟩ := hcaller
        exact h c i⟩
    rw [hcontained, Guarded]
    unfold procdHandleClone
    by_cases hns : flags &&& cloneUnsupported = 0
    · by_cases hthread : flags &&& lxCloneThread = 0
      · simp only [hns, hthread, ne_eq, not_true_eq_false, if_false, true_implies]
        exact forkLike_contained_iff
      · simp only [hns, hthread, ne_eq, not_true_eq_false, not_false_eq_true, if_false, if_true,
          true_implies, false_implies, iff_true]
        intro c i _ hfill
        split_ifs at hfill
        · exact absurd hfill not_fills_same
        · exact absurd hfill not_fills_thread
    · simp only [hns, ne_eq, not_false_eq_true, if_true, false_implies, iff_true]
      intro c i _ hfill
      exact absurd hfill not_fills_same
  | fork caller => exact iff_of_true fork_contained trivial
  | _ => exact iff_of_true (fun _ _ _ hcaller => by cases hcaller) trivial

def tier3Server : Server := (dispatch procdTableInit (.spawn 0 3 0 [])).1

theorem tier3_clone_escapes : ¬ Contained tier3Server (.clone 1 0 0 0) := by
  intro h
  have hc : procdTableGet 1 = some 1 := by decide
  have hfill : Fills tier3Server (dispatch tier3Server (.clone 1 0 0 0)) 2 := by
    constructor <;> decide +kernel
  exact (h 1 1 2 rfl hc hfill).denied (by decide +kernel)

end SotOs.Procd
