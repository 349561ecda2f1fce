import SotOs.Lib.Machine
import SotOs.Lib.Slots

/-! The captured bytes of the last sessions: a connection that comes back after its slot went to
another one starts anew. -/

namespace SotOs.Sottrace
open Machine Slots Function List

abbrev captureSlots : ℕ := 8
def captureCap : ℕ := 65536

theorem captureSlots_pos : 0 < captureSlots := by decide

inductive Dir
  | inbound
  | outbound
  deriving DecidableEq

structure Stream where
  buf : List UInt8
  dropped : UInt32
  deriving DecidableEq

structure Capture where
  connId : UInt16
  bound : UInt32
  stream : Dir → Stream

structure Captures where
  slots : Fin captureSlots → Capture
  bindSeq : UInt32

def captureInit : Captures := ⟨fun _ => ⟨0, 0, fun _ => ⟨[], 0⟩⟩, 0⟩

def findCapture (s : Captures) (connId : UInt16) : Option (Fin captureSlots) :=
  first fun i => (s.slots i).connId == connId

def oldestBound (s : Captures) : Fin captureSlots :=
  (finRange captureSlots).foldl
    (fun victim i => if (s.slots i).bound < (s.slots victim).bound then i else victim)
    ⟨0, captureSlots_pos⟩

def findOrBind (s : Captures) (connId : UInt16) : Captures × Option (Fin captureSlots) :=
  if connId = 0 then (s, none)
  else
    match findCapture s connId with
    | some i => (s, some i)
    | none =>
      let victim := (findCapture s 0).getD (oldestBound s)
      let seq := s.bindSeq + 1
      (⟨update s.slots victim ⟨connId, seq, fun _ => ⟨[], 0⟩⟩, seq⟩, some victim)

def Stream.store (t : Stream) (data : List UInt8) : Stream :=
  let take := min data.length (captureCap - t.buf.length)
  ⟨t.buf ++ data.take take, t.dropped + .ofNat (data.length - take)⟩

def captureAppend (s : Captures) (connId : UInt16) (dir : Dir) (data : List UInt8) : Captures :=
  match findOrBind s connId with
  | (s, none) => s
  | (s, some i) =>
    let c := s.slots i
    let stream := update c.stream dir ((c.stream dir).store data)
    { s with slots := update s.slots i { c with stream } }

def captureRelease (s : Captures) (connId : UInt16) : Captures :=
  match findCapture s connId with
  | none => s
  | some i => { s with slots := update s.slots i { s.slots i with connId := 0 } }

def captureGet (s : Captures) (connId : UInt16) : Option Capture :=
  if connId = 0 then none else (findCapture s connId).map s.slots

inductive CaptureOp
  | append (connId : UInt16) (dir : Dir) (data : List UInt8)
  | release (connId : UInt16)

def captureStep (s : Captures) : CaptureOp → Captures
  | .append connId dir data => captureAppend s connId dir data
  | .release connId => captureRelease s connId

def CaptureOp.adds (connId : UInt16) (dir : Dir) (bytes : List UInt8) : CaptureOp → List UInt8
  | .append c d data => if c = connId ∧ d = dir then bytes ++ data else bytes
  | .release c => if c = connId then [] else bytes

structure Logged extends Captures where
  held : List UInt16
  bytes : UInt16 → Dir → List UInt8
  binds : ℕ

def Logged.victim (s : Logged) : UInt16 := (s.slots (oldestBound s.toCaptures)).connId

def Logged.holds (s : Logged) : CaptureOp → List UInt16
  -- A session ends by its release, or when a ninth one comes.
  | .append c _ _ =>
    if c = 0 ∨ c ∈ s.held then s.held
    else (if s.held.length < captureSlots then s.held else s.held.erase s.victim) ++ [c]
  | .release c => s.held.erase c

def Logged.next (s : Logged) (op : CaptureOp) (id : UInt16) (dir : Dir) : List UInt8 :=
  op.adds id dir (if id ∈ s.held then s.bytes id dir else [])

def Logged.counts (s : Logged) : CaptureOp → ℕ
  | .append c _ _ => if c = 0 ∨ c ∈ s.held then s.binds else s.binds + 1
  | .release _ => s.binds

def loggedInit : Logged := ⟨captureInit, [], fun _ _ => [], 0⟩

def loggedStep (s : Logged) (op : CaptureOp) : Logged × Unit :=
  (⟨captureStep s.toCaptures op, s.holds op, s.next op, s.counts op⟩, ())

def capturedOf (bytes : List UInt8) : Stream :=
  ⟨bytes.take captureCap, .ofNat (bytes.length - captureCap)⟩

structure Captured (s : Logged) : Prop where
  apart : ∀ i j, (s.slots i).connId ≠ 0 → (s.slots i).connId = (s.slots j).connId → i = j
  kept : ∀ i dir, (s.slots i).connId ≠ 0 →
    (s.slots i).stream dir = capturedOf (s.bytes (s.slots i).connId dir)
  nodup : s.held.Nodup
  listed : ∀ id, id ∈ s.held ↔ id ≠ 0 ∧ ∃ i, (s.slots i).connId = id

variable {s : Logged} {connId : UInt16} {dir d : Dir} {data bytes : List UInt8}
  {i j : Fin captureSlots} {op : CaptureOp} {b : ℕ}

theorem capturedOf_store : (capturedOf bytes).store data = capturedOf (bytes ++ data) := by
  simp only [capturedOf, Stream.store, length_take, length_append, Stream.mk.injEq]
  constructor
  · rw [take_append, append_right_inj, take_eq_take_iff]
    omega
  · rw [← UInt32.ofNat_add]
    exact congrArg UInt32.ofNat (by omega)

theorem stored_eq {stream : Dir → Stream} {b : Dir → List UInt8}
    (hb : ∀ d, stream d = capturedOf (b d)) :
    update stream dir ((stream dir).store data) d =
      capturedOf ((CaptureOp.append connId dir data).adds connId d (b d)) := by
  by_cases hd : d = dir
  · subst hd
    simp [CaptureOp.adds, hb, capturedOf_store]
  · simp [CaptureOp.adds, hb, hd, Ne.symm hd]

theorem findCapture_some {s : Captures} (h : findCapture s connId = some i) :
    (s.slots i).connId = connId :=
  beq_iff_eq.mp (first_some h)

theorem findCapture_none {s : Captures} (h : findCapture s connId = none) (j : Fin captureSlots) :
    (s.slots j).connId ≠ connId := by
  simpa using first_none h j

theorem Captured.mem (hs : Captured s) (hi : (s.slots i).connId ≠ 0) :
    (s.slots i).connId ∈ s.held :=
  (hs.listed _).mpr ⟨hi, i, rfl⟩

theorem Captured.find_none_iff (hs : Captured s) (hid : connId ≠ 0) :
    findCapture s.toCaptures connId = none ↔ connId ∉ s.held := by
  rw [hs.listed, not_and, not_exists]
  constructor
  · exact fun hfind _ i => findCapture_none hfind i
  · intro hall
    rcases hfind : findCapture s.toCaptures connId with _ | i
    · rfl
    · exact absurd (findCapture_some hfind) (hall hid i)

theorem Captured.length_eq (hs : Captured s) :
    s.held.length = (Finset.univ.filter fun i => (s.slots i).connId ≠ 0).card := by
  rw [← toFinset_card_of_nodup hs.nodup,
    ← Finset.card_image_of_injOn (f := fun i => (s.slots i).connId)]
  · congr 1
    ext id
    simp only [mem_toFinset, hs.listed, Finset.mem_image, Finset.mem_filter, Finset.mem_univ,
      true_and]
    exact ⟨fun ⟨hne, i, hi⟩ => ⟨i, hi ▸ hne, hi⟩, fun ⟨i, hne, hi⟩ => ⟨hi ▸ hne, i, hi⟩⟩
  · intro i hi j _ heq
    exact hs.apart i j (Finset.mem_filter.mp hi).2 heq

theorem Captured.full_iff (hs : Captured s) :
    findCapture s.toCaptures 0 = none ↔ ¬s.held.length < captureSlots := by
  rw [hs.length_eq, not_lt]
  constructor
  · intro hfind
    rw [Finset.filter_true_of_mem fun i _ => findCapture_none hfind i]
    simp
  · intro hle
    rcases hfind : findCapture s.toCaptures 0 with _ | i
    · rfl
    have hlt := Finset.card_lt_univ_of_notMem
      (s := Finset.univ.filter fun i => (s.slots i).connId ≠ 0) (x := i)
      (by simp [findCapture_some hfind])
    rw [Fintype.card_fin] at hlt
    omega

def CaptureOp.on : CaptureOp → UInt16
  | .append connId _ _ => connId
  | .release connId => connId

theorem Captured.other (hs : Captured s) (hj : (s.slots j).connId ≠ 0)
    (hop : (s.slots j).connId ≠ op.on) :
    (s.slots j).stream dir = capturedOf (s.next op (s.slots j).connId dir) := by
  rw [Logged.next, if_pos (hs.mem hj), hs.kept j dir hj]
  cases op with
  | append => exact congrArg capturedOf (if_neg fun h => hop h.1.symm).symm
  | release => exact congrArg capturedOf (if_neg hop.symm).symm

theorem Captured.stay (hs : Captured s) (hheld : s.holds op = s.held)
    (hop : ∀ j, (s.slots j).connId ≠ 0 → (s.slots j).connId ≠ op.on) :
    Captured ⟨s.toCaptures, s.holds op, s.next op, b⟩ := by
  rw [hheld]
  exact ⟨hs.apart, fun j _ hj => hs.other hj (hop j hj), hs.nodup, hs.listed⟩

theorem Captured.set (hs : Captured s) {c : Capture} {n : UInt32}
    (hid : c.connId ≠ 0 → c.connId = op.on)
    (hapart : ∀ j, (s.slots j).connId ≠ 0 → (s.slots j).connId = op.on → j = i)
    (hkept : c.connId ≠ 0 → ∀ dir, c.stream dir = capturedOf (s.next op op.on dir))
    (hnodup : (s.holds op).Nodup)
    (hheld : ∀ id, id ∈ s.holds op ↔
      id ≠ 0 ∧ (c.connId = id ∨ id ∈ s.held ∧ id ≠ (s.slots i).connId)) :
    Captured ⟨⟨update s.slots i c, n⟩, s.holds op, s.next op, b⟩ := by
  refine ⟨fun j k hj heq => ?_, fun j dir hj => ?_, hnodup, fun id => ?_⟩
  · simp only [update_apply] at hj heq
    split_ifs at hj heq with hji hki hki
    · exact hji.trans hki.symm
    · exact hji.trans (hapart k (heq ▸ hj) (heq ▸ hid hj)).symm
    · exact (hapart j hj (heq.trans (hid (heq ▸ hj)))).trans hki.symm
    · exact hs.apart j k hj heq
  · simp only [update_apply] at hj ⊢
    split_ifs at hj ⊢ with hji
    · exact hid hj ▸ hkept hj dir
    · exact hs.other hj fun heq => hji (hapart j hj heq)
  · rw [hheld, hs.listed]
    refine and_congr_right fun hne => ⟨?_, ?_⟩
    · rintro (rfl | ⟨⟨-, j, rfl⟩, hji⟩)
      · exact ⟨i, by simp⟩
      · have hne : j ≠ i := fun h => hji (congrArg (fun k => (s.slots k).connId) h)
        exact ⟨j, by simp [update_of_ne hne]⟩
    · rintro ⟨j, rfl⟩
      by_cases hji : j = i
      · subst hji
        simp
      · simp only [update_of_ne hji] at hne ⊢
        exact .inr ⟨⟨hne, j, rfl⟩, fun heq => hji (hs.apart j i hne heq)⟩

theorem Captured.victim_mem (hs : Captured s) (hfull : findCapture s.toCaptures 0 = none) :
    s.victim ∈ s.held :=
  hs.mem (findCapture_none hfull _)

theorem Captured.holds_new (hs : Captured s) (dir : Dir) (data : List UInt8) (hid : connId ≠ 0)
    (hnew : connId ∉ s.held) :
    let slot := (findCapture s.toCaptures 0).getD (oldestBound s.toCaptures)
    (s.holds (.append connId dir data)).Nodup ∧
      ∀ id, id ∈ s.holds (.append connId dir data) ↔
        id ≠ 0 ∧ (connId = id ∨ id ∈ s.held ∧ id ≠ (s.slots slot).connId) := by
  have hpos : ∀ id, id ∈ s.held → id ≠ 0 := fun id h => ((hs.listed id).mp h).1
  rw [Logged.holds, if_neg (not_or.mpr ⟨hid, hnew⟩), ← concat_eq_append]
  rcases hfind : findCapture s.toCaptures 0 with _ | i
  · rw [if_neg (hs.full_iff.mp hfind)]
    refine ⟨(hs.nodup.erase _).concat fun h => hnew (mem_of_mem_erase h), fun id => ?_⟩
    rw [concat_eq_append, mem_append, hs.nodup.mem_erase_iff, mem_singleton]
    change id ≠ s.victim ∧ _ ∨ _ ↔ _ ∧ (_ ∨ _ ∧ id ≠ s.victim)
    grind
  · rw [if_pos (by_contra fun h => by simp [hs.full_iff.mpr h] at hfind)]
    refine ⟨hs.nodup.concat hnew, fun id => ?_⟩
    rw [concat_eq_append, mem_append, mem_singleton, Option.getD_some, findCapture_some hfind]
    grind

theorem Captured.step (hs : Captured s) : Captured (loggedStep s op).1 := by
  have hapart : ∀ {i}, findCapture s.toCaptures op.on = some i →
      ∀ j, (s.slots j).connId ≠ 0 → (s.slots j).connId = op.on → j = i := fun hfind j hj heq =>
    hs.apart j _ hj (heq.trans (findCapture_some hfind).symm)
  cases op with
  | append connId dir data =>
    change Captured ⟨captureAppend s.toCaptures connId dir data, _, _, _⟩
    unfold captureAppend findOrBind
    split_ifs with hzero
    · exact hs.stay (if_pos (.inl hzero)) fun j hj => hzero ▸ hj
    rcases hfind : findCapture s.toCaptures connId with _ | i
    · have hnew := (hs.find_none_iff hzero).mp hfind
      obtain ⟨hnodup, hheld⟩ := hs.holds_new dir data hzero hnew
      simp only [update_self, update_idem]
      refine hs.set (fun _ => rfl) (fun j _ hj => ?_) (fun _ d => ?_) hnodup hheld
      · exact absurd hj (findCapture_none hfind j)
      rw [Logged.next, CaptureOp.on, if_neg hnew]
      exact stored_eq (b := fun _ => []) fun _ => rfl
    · have hi := findCapture_some hfind
      have hne : (s.slots i).connId ≠ 0 := hi ▸ hzero
      have hmem : connId ∈ s.held := hi ▸ hs.mem hne
      have hheld : s.holds (.append connId dir data) = s.held := if_pos (.inr hmem)
      refine hs.set (fun _ => hi) (hapart hfind) (fun _ d => ?_) (hheld ▸ hs.nodup) fun id => ?_
      · rw [Logged.next, CaptureOp.on, if_pos hmem, ← hi]
        exact stored_eq fun d => hs.kept i d hne
      · rw [hheld, hs.listed]
        grind
  | release connId =>
    change Captured ⟨captureRelease s.toCaptures connId, _, _, _⟩
    unfold captureRelease
    rcases hfind : findCapture s.toCaptures connId with _ | i
    · have hnew : connId ∉ s.held := fun h =>
        ((hs.listed _).mp h).2.elim fun j hj => findCapture_none hfind j hj
      exact hs.stay (erase_of_not_mem hnew) fun j _ => findCapture_none hfind j
    · refine hs.set (absurd rfl) (hapart hfind) (absurd rfl) (hs.nodup.erase _) fun id => ?_
      rw [Logged.holds, hs.nodup.mem_erase_iff, findCapture_some hfind, hs.listed]
      grind

structure Aged (s : Logged) : Prop where
  seq : s.bindSeq = .ofNat s.binds
  le : s.binds < 2 ^ 32 → ∀ i, (s.slots i).connId ≠ 0 → (s.slots i).bound.toNat ≤ s.binds
  ordered : s.binds < 2 ^ 32 → s.held.Pairwise fun x y =>
    ∀ i j, (s.slots i).connId = x → (s.slots j).connId = y → (s.slots i).bound < (s.slots j).bound

theorem Aged.same (ha : Aged s) {slots : Fin captureSlots → Capture} {held : List UInt16}
    {f : UInt16 → Dir → List UInt8} (hsub : held.Sublist s.held) (hpos : ∀ id ∈ held, id ≠ 0)
    (hslots : ∀ j, (slots j).connId ≠ 0 →
      (slots j).connId = (s.slots j).connId ∧ (slots j).bound = (s.slots j).bound) :
    Aged ⟨⟨slots, s.bindSeq⟩, held, f, s.binds⟩ := by
  refine ⟨ha.seq, fun hlt i hi => ?_, fun hlt => ?_⟩
  · obtain ⟨hid, hbound⟩ := hslots i hi
    change (slots i).bound.toNat ≤ _
    rw [hbound]
    exact ha.le hlt i (hid ▸ hi)
  · refine ((ha.ordered hlt).sublist hsub).imp_of_mem fun hx hy hxy i j hi hj => ?_
    obtain ⟨hidi, hboundi⟩ := hslots i (hi ▸ hpos _ hx)
    obtain ⟨hidj, hboundj⟩ := hslots j (hj ▸ hpos _ hy)
    change (slots i).bound < (slots j).bound
    rw [hboundi, hboundj]
    exact hxy i j (hidi.symm.trans hi) (hidj.symm.trans hj)

theorem Aged.bind (ha : Aged s) (hs : Captured s) {c : Capture} {held : List UInt16}
    {f : UInt16 → Dir → List UInt8} (hsub : held.Sublist s.held) (hid : c.connId ≠ 0)
    (hnew : c.connId ∉ s.held) (hbound : c.bound = s.bindSeq + 1) :
    Aged ⟨⟨update s.slots i c, s.bindSeq + 1⟩, held ++ [c.connId], f, s.binds + 1⟩ := by
  have hseq : s.bindSeq + 1 = .ofNat (s.binds + 1) := by rw [ha.seq, UInt32.ofNat_add]; rfl
  have hnum : s.binds + 1 < 2 ^ 32 → c.bound.toNat = s.binds + 1 := fun hlt => by
    rw [hbound, hseq, UInt32.toNat_ofNat_of_lt' hlt]
  refine ⟨hseq, fun hlt j hj => ?_, fun hlt => ?_⟩
  · have hlt' : s.binds < 2 ^ 32 := Nat.lt_of_succ_lt hlt
    simp only [update_apply] at hj ⊢
    split_ifs at hj ⊢ with hji
    · exact (hnum hlt).le
    · exact (ha.le hlt' j hj).trans (Nat.le_succ _)
  have hlt' : s.binds < 2 ^ 32 := Nat.lt_of_succ_lt hlt
  -- the slots of the sessions that were there did not change, and their numbers are smaller
  have hold : ∀ x ∈ held, ∀ j, (update s.slots i c j).connId = x →
      update s.slots i c j = s.slots j := fun x hx j hj => by
    refine update_of_ne (fun hji => hnew ?_) _ _
    subst hji
    rw [update_self] at hj
    exact hj ▸ hsub.subset hx
  refine pairwise_append.mpr ⟨?_, pairwise_singleton _ _, ?_⟩
  · refine ((ha.ordered hlt').sublist hsub).imp_of_mem fun hx hy hxy j k hj hk => ?_
    simp only [hold _ hx j hj, hold _ hy k hk] at hj hk ⊢
    exact hxy j k hj hk
  · intro x hx y hy j k hj hk
    rw [mem_singleton] at hy
    subst hy
    have hki : k = i := by
      by_contra hne
      simp only [update_of_ne hne] at hk
      exact hnew (hk ▸ hs.mem (hk ▸ hid))
    subst hki
    simp only [hold x hx j hj, update_self] at hj ⊢
    have hle := ha.le hlt' j (hj ▸ ((hs.listed x).mp (hsub.subset hx)).1)
    rw [UInt32.lt_iff_toNat_lt, hnum hlt]
    exact Nat.lt_succ_of_le hle

theorem Aged.step (ha : Aged s) (hs : Captured s) : Aged (loggedStep s op).1 := by
  have hpos : ∀ id ∈ s.held, id ≠ 0 := fun id h => ((hs.listed id).mp h).1
  cases op with
  | append connId dir data =>
    change Aged ⟨captureAppend s.toCaptures connId dir data, _, _, _⟩
    unfold captureAppend findOrBind
    by_cases hzero : connId = 0
    · rw [if_pos hzero, Logged.holds, Logged.counts, if_pos (.inl hzero), if_pos (.inl hzero)]
      exact ha.same (.refl _) hpos fun _ _ => ⟨rfl, rfl⟩
    rw [if_neg hzero, Logged.holds, Logged.counts]
    rcases hfind : findCapture s.toCaptures connId with _ | i
    · have hnew := (hs.find_none_iff hzero).mp hfind
      rw [if_neg (not_or.mpr ⟨hzero, hnew⟩), if_neg (not_or.mpr ⟨hzero, hnew⟩)]
      simp only [update_self, update_idem]
      refine ha.bind hs ?_ hzero hnew rfl
      split_ifs
      · exact .refl _
      · exact erase_sublist
    · have hi := findCapture_some hfind
      have hmem : connId ∈ s.held := hi ▸ hs.mem (hi ▸ hzero)
      rw [if_pos (.inr hmem), if_pos (.inr hmem)]
      refine ha.same (.refl _) hpos fun j _ => ?_
      by_cases hji : j = i
      · subst hji
        simp
      · simp [hji]
  | release connId =>
    change Aged ⟨captureRelease s.toCaptures connId, s.held.erase connId, _, s.binds⟩
    have hpos' : ∀ id ∈ s.held.erase connId, id ≠ 0 := fun id h => hpos id (mem_of_mem_erase h)
    unfold captureRelease
    rcases findCapture s.toCaptures connId with _ | i
    · exact ha.same erase_sublist hpos' fun _ _ => ⟨rfl, rfl⟩
    · refine ha.same erase_sublist hpos' fun j hj => ?_
      by_cases hji : j = i
      · subst hji
        simp at hj
      · simp [hji]

theorem oldestBound_le (s : Captures) (i : Fin captureSlots) :
    (s.slots (oldestBound s)).bound ≤ (s.slots i).bound := by
  have hfold : ∀ (l : List (Fin captureSlots)) v, let r := l.foldl (fun victim i =>
      if (s.slots i).bound < (s.slots victim).bound then i else victim) v
      (s.slots r).bound ≤ (s.slots v).bound ∧ ∀ i ∈ l, (s.slots r).bound ≤ (s.slots i).bound := by
    intro l
    induction l with
    | nil => exact fun v => ⟨UInt32.le_refl _, by simp⟩
    | cons k l ih =>
      intro v
      obtain ⟨hv, hl⟩ := ih (if (s.slots k).bound < (s.slots v).bound then k else v)
      refine ⟨UInt32.le_trans hv ?_, forall_mem_cons.mpr ⟨UInt32.le_trans hv ?_, hl⟩⟩
      · split_ifs with hlt
        · exact UInt32.le_of_lt hlt
        · exact UInt32.le_refl _
      · split_ifs with hlt
        · exact UInt32.le_refl _
        · exact UInt32.not_lt.mp hlt
  exact (hfold _ _).2 i (mem_finRange i)

theorem Aged.victim_eq (ha : Aged s) (hs : Captured s) (hlt : s.binds < 2 ^ 32)
    (hfull : s.held.length = captureSlots) : s.held.head? = some s.victim := by
  have hmem := hs.victim_mem (hs.full_iff.mpr hfull.not_lt)
  have hsorted := ha.ordered hlt
  rcases hheld : s.held with _ | ⟨x, rest⟩
  · simp [hheld] at hmem
  rw [hheld, pairwise_cons] at hsorted
  rw [head?_cons]
  rcases mem_cons.mp (hheld ▸ hmem) with heq | hrest
  · rw [heq]
  · obtain ⟨-, j, hj⟩ := (hs.listed x).mp (hheld ▸ mem_cons_self)
    exact absurd (hsorted.1 _ hrest j _ hj rfl) (UInt32.not_lt.mpr (oldestBound_le _ j))

/-- A record has the bytes since its session began, and a session ends by its release or, when
there are eight, by a ninth: the one that was bound first until the bind counter wraps. -/
theorem capture_since_used (ops : List CaptureOp) (connId : UInt16) (dir : Dir) :
    let s := exec loggedStep loggedInit ops
    (captureGet s.toCaptures connId).map (·.stream dir) =
        (if connId ∈ s.held then some (capturedOf (s.bytes connId dir)) else none) ∧
      (s.binds < 2 ^ 32 → s.held.length = captureSlots → s.held.head? = some s.victim) := by
  intro s
  have hinit : Captured loggedInit ∧ Aged loggedInit :=
    ⟨⟨fun _ _ => absurd rfl, fun _ _ => absurd rfl, nodup_nil, fun id => by
      simp [loggedInit, captureInit, eq_comm]⟩, rfl, fun _ _ => absurd rfl, fun _ => .nil⟩
  obtain ⟨hs, ha⟩ : Captured s ∧ Aged s := exec_invariant loggedStep
    (P := fun s => Captured s ∧ Aged s) (fun _ _ h => ⟨h.1.step, h.2.step h.1⟩) hinit ops
  refine ⟨?_, ha.victim_eq hs⟩
  by_cases hzero : connId = 0
  · rw [captureGet, if_pos hzero, if_neg fun h => ((hs.listed _).mp h).1 hzero]
    rfl
  rw [captureGet, if_neg hzero]
  rcases hfind : findCapture s.toCaptures connId with _ | i
  · rw [if_neg ((hs.find_none_iff hzero).mp hfind)]
    rfl
  · have hi := findCapture_some hfind
    rw [if_pos (hi ▸ hs.mem (hi ▸ hzero))]
    exact congrArg some (hi ▸ hs.kept i dir (hi ▸ hzero))

def comesBack : List CaptureOp :=
  ([1, 2, 3, 4, 5, 6, 7, 8, 9, 1] : List UInt16).map fun id => .append id .inbound [id.toUInt8]

theorem evicted_starts_anew :
    (captureGet (comesBack.foldl captureStep captureInit) 1).map (·.stream .inbound) =
        some ⟨[1], 0⟩ ∧
      comesBack.foldl (CaptureOp.adds 1 .inbound) [] = [1, 1] := by
  decide +kernel

end SotOs.Sottrace
