import SotOs.Sto.Occ

/-! The registry invariant: ids are fresh, every live capability is listed by exactly one
transaction that is still in the table, and no two transactions list the same id. -/

namespace SotOs.Sto

open Function Slots List

structure Inv (r : Registry) : Prop where
  lt_activeCount : ∀ i, (r.active i).phase ≠ .free → i.val < r.activeCount
  txId_lt : ∀ i, (r.active i).txId.toNat < r.nextTxId.toNat
  txId_inj : ∀ i k, (r.active i).txId = (r.active k).txId → (r.active i).txId ≠ 0 → i = k
  txId_ne_zero : ∀ i, (r.active i).phase ≠ .free → (r.active i).txId ≠ 0
  listed_lt : ∀ i, ∀ w ∈ (r.active i).wrappedCaps, w.toNat < r.nextWrappedId.toNat
  listed_inj : ∀ i k w, w ∈ (r.active i).wrappedCaps → w ∈ (r.active k).wrappedCaps → i = k
  cap_lt : ∀ j, (r.wrappedPool j).id.toNat < r.nextWrappedId.toNat
  cap_inj : ∀ j k, (r.wrappedPool j).id = (r.wrappedPool k).id → (r.wrappedPool j).id ≠ 0 → j = k
  cap_live : ∀ j, (r.wrappedPool j).id ≠ 0 → (r.wrappedPool j).revoked = false
  cap_parent : ∀ j, (r.wrappedPool j).id ≠ 0 → ∃ i, (r.active i).phase ≠ .free ∧
    (r.active i).txId = (r.wrappedPool j).txId ∧ (r.wrappedPool j).id ∈ (r.active i).wrappedCaps ∧
    ((r.active i).phase = .committed → (r.wrappedPool j).mode = .commitOnly)

theorem inv_registryInit : Inv registryInit where
  lt_activeCount _ h := absurd rfl h
  txId_lt _ := show (0 : UInt64).toNat < (1 : UInt64).toNat by decide
  txId_inj _ _ _ h := absurd rfl h
  txId_ne_zero _ h := absurd rfl h
  listed_lt _ w h := absurd h BoundedList.not_mem_empty
  listed_inj _ _ w h := absurd h BoundedList.not_mem_empty
  cap_lt _ := show (0 : UInt64).toNat < (1 : UInt64).toNat by decide
  cap_inj _ _ _ h := absurd rfl h
  cap_live _ h := absurd rfl h
  cap_parent _ h := absurd rfl h

variable {test : WrappedCap → Bool} {j : Fin maxWrappedCaps}

theorem foldl_sweepTarget {targets : List UInt64} {pool : Fin maxWrappedCaps → WrappedCap} :
    targets.foldl (sweepTarget test) pool j =
      if (pool j).id ∈ targets ∧ test (pool j) = true then
        { pool j with revoked := true, id := 0 }
      else pool j := by
  induction targets generalizing pool with
  | nil => simp
  | cons t targets ih =>
    rw [foldl_cons, ih]
    by_cases ht : (pool j).id = t ∧ test (pool j) = true
    · -- reclaimed by this target; a later target `0` would reclaim it to the same value
      simp [sweepTarget, ht]
    have hkeep : sweepTarget test pool t j = pool j := by
      rw [sweepTarget, if_neg (by simpa using ht)]
    rw [hkeep]
    apply if_congr _ rfl rfl
    constructor
    · rintro ⟨hmem, htest⟩
      exact ⟨mem_cons_of_mem _ hmem, htest⟩
    · rintro ⟨hmem, htest⟩
      rcases mem_cons.mp hmem with heq | hmem
      · exact absurd ⟨heq, htest⟩ ht
      · exact ⟨hmem, htest⟩

theorem sweepWrappedIf_pool {r : Registry} {i : Fin maxTx} :
    (sweepWrappedIf test r i).wrappedPool j =
      if (r.wrappedPool j).id ∈ (r.active i).wrappedCaps ∧ test (r.wrappedPool j) = true then
        { r.wrappedPool j with revoked := true, id := 0 }
      else r.wrappedPool j :=
  foldl_sweepTarget

variable {test : WrappedCap → Bool} {r r' : Registry} {i : Fin maxTx} {j : Fin maxWrappedCaps}
  {a : UInt64} {h : List Exchange}

theorem sweepWrappedIf_live (h : ((sweepWrappedIf test r i).wrappedPool j).id ≠ 0) :
    (sweepWrappedIf test r i).wrappedPool j = r.wrappedPool j ∧
      ¬((r.wrappedPool j).id ∈ (r.active i).wrappedCaps ∧ test (r.wrappedPool j) = true) := by
  rw [sweepWrappedIf_pool] at h ⊢
  split_ifs at h ⊢ with hswept
  · exact absurd rfl h
  · exact ⟨rfl, hswept⟩

theorem sweepWrappedIf_id : ((sweepWrappedIf test r i).wrappedPool j).id = 0 ∨
      (sweepWrappedIf test r i).wrappedPool j = r.wrappedPool j := by
  rw [sweepWrappedIf_pool]
  split_ifs
  · exact .inl rfl
  · exact .inr rfl

theorem registryWrappedFind_eq (hinj : ∀ j k, (r.wrappedPool j).id =
      (r.wrappedPool k).id → (r.wrappedPool j).id ≠ 0 → j = k) (hid : (r.wrappedPool j).id ≠ 0)
    (hlive : (r.wrappedPool j).revoked = false) :
    registryWrappedFind r (r.wrappedPool j).id = some j := by
  have hfirst : first (fun k => (r.wrappedPool k).id == (r.wrappedPool j).id) = some j := by
    apply first_eq_of_unique
    · simp
    · intro k hk
      have hk' : (r.wrappedPool k).id = (r.wrappedPool j).id := by simpa using hk
      exact hinj k j hk' (hk' ▸ hid)
  simp [registryWrappedFind, hid, hfirst, hlive]

theorem registryWrappedFind_some {w : UInt64} (h : registryWrappedFind r w = some j) :
    w ≠ 0 ∧ (r.wrappedPool j).id = w ∧ (r.wrappedPool j).revoked = false := by
  unfold registryWrappedFind at h
  split_ifs at h with h0
  split at h
  · cases h
  · rename_i k hk
    split_ifs at h with hrev
    obtain ⟨⟩ := h
    exact ⟨h0, by simpa using first_some hk, by simpa using hrev⟩

theorem Inv.of_slots (h : Inv r) (hid : ∀ i, (r'.active i).txId = (r.active i).txId)
    (hphase : ∀ i, (r'.active i).phase = (r.active i).phase)
    (hcaps : ∀ i, (r'.active i).wrappedCaps = (r.active i).wrappedCaps)
    (hcount : r'.activeCount = r.activeCount) (hnext : r'.nextTxId = r.nextTxId)
    (hpool : r'.wrappedPool = r.wrappedPool) (hwid : r'.nextWrappedId = r.nextWrappedId) :
    Inv r' where
  lt_activeCount i hi := hcount ▸ h.lt_activeCount i (hphase i ▸ hi)
  txId_lt i := by rw [hid, hnext]; exact h.txId_lt i
  txId_inj i k := by simpa only [hid] using h.txId_inj i k
  txId_ne_zero i := by simpa only [hid, hphase] using h.txId_ne_zero i
  listed_lt i := by simpa only [hcaps, hwid] using h.listed_lt i
  listed_inj i k w := by simpa only [hcaps] using h.listed_inj i k w
  cap_lt j := by simpa only [hpool, hwid] using h.cap_lt j
  cap_inj j k := by simpa only [hpool] using h.cap_inj j k
  cap_live j := by simpa only [hpool] using h.cap_live j
  cap_parent j := by simpa only [hpool, hid, hphase, hcaps] using h.cap_parent j

theorem toNat_succ (h : a.toNat + 1 < 2 ^ 64) : (a + 1).toNat = a.toNat + 1 := by
  rw [UInt64.toNat_add]
  exact Nat.mod_eq_of_lt h

theorem ne_of_toNat_lt {b c : UInt64} (ha : a.toNat < c.toNat) (hb : b = c) : a ≠ b := by
  rintro rfl
  rw [hb] at ha
  exact lt_irrefl _ ha

theorem Inv.begunAt (h : Inv r) (hfree : (r.active i).phase = .free) (b : UInt64)
    (hroom : r.nextTxId.toNat + 1 < 2 ^ 64) : Inv (begunAt r i b) := by
  have hnext : (Sto.begunAt r i b).nextTxId.toNat = r.nextTxId.toNat + 1 := toNat_succ hroom
  have hself : (Sto.begunAt r i b).active i =
      { Transaction.zero with txId := r.nextTxId, ownerBadge := b, phase := .active } := by
    simp [Sto.begunAt]
  have hother : ∀ k, k ≠ i → (Sto.begunAt r i b).active k = r.active k := by
    intro k hk
    simp [Sto.begunAt, update_of_ne hk]
  have hpos : 0 < r.nextTxId.toNat := Nat.zero_lt_of_lt (h.txId_lt i)
  have hfresh : ∀ k, k ≠ i → ((Sto.begunAt r i b).active k).txId ≠ r.nextTxId := by
    intro k hk
    rw [hother k hk]
    exact ne_of_toNat_lt (h.txId_lt k) rfl
  constructor
  case lt_activeCount =>
    intro k hk
    change k.val < if r.activeCount ≤ i.val then i.val + 1 else r.activeCount
    by_cases hki : k = i
    · subst hki
      split_ifs <;> omega
    · rw [hother k hki] at hk
      have := h.lt_activeCount k hk
      split_ifs <;> omega
  case txId_lt =>
    intro k
    rw [hnext]
    by_cases hki : k = i
    · rw [hki, hself]
      exact Nat.lt_succ_self _
    · rw [hother k hki]
      exact Nat.lt_succ_of_lt (h.txId_lt k)
  case txId_inj =>
    intro k l hkl hne
    by_cases hki : k = i <;> by_cases hli : l = i
    · rw [hki, hli]
    · rw [hki, hself] at hkl
      exact absurd hkl.symm (hfresh l hli)
    · rw [hli, hself] at hkl
      exact absurd hkl (hfresh k hki)
    · rw [hother k hki, hother l hli] at hkl
      rw [hother k hki] at hne
      exact h.txId_inj k l hkl hne
  case txId_ne_zero =>
    intro k hk
    by_cases hki : k = i
    · rw [hki, hself]
      rintro h0
      have : r.nextTxId.toNat = 0 := congrArg UInt64.toNat h0
      omega
    · rw [hother k hki] at hk ⊢
      exact h.txId_ne_zero k hk
  case listed_lt =>
    intro k w hw
    by_cases hki : k = i
    · rw [hki, hself] at hw
      exact absurd hw BoundedList.not_mem_empty
    · rw [hother k hki] at hw
      exact h.listed_lt k w hw
  case listed_inj =>
    intro k l w hk hl
    by_cases hki : k = i
    · rw [hki, hself] at hk
      exact absurd hk BoundedList.not_mem_empty
    by_cases hli : l = i
    · rw [hli, hself] at hl
      exact absurd hl BoundedList.not_mem_empty
    · rw [hother k hki] at hk
      rw [hother l hli] at hl
      exact h.listed_inj k l w hk hl
  case cap_lt => exact h.cap_lt
  case cap_inj => exact h.cap_inj
  case cap_live => exact h.cap_live
  case cap_parent =>
    intro j hj
    obtain ⟨k, hk, hrest⟩ := h.cap_parent j hj
    have hki : k ≠ i := fun hki => hk (hki ▸ hfree)
    refine ⟨k, ?_⟩
    rw [hother k hki]
    exact ⟨hk, hrest⟩

theorem Inv.ended (h : Inv r) (hact : (r.active i).txId ≠ 0) {p : Phase}
    (hleft : ∀ j, ((sweepWrappedIf test r i).wrappedPool j).id ≠ 0 →
      (r.wrappedPool j).id ∈ (r.active i).wrappedCaps →
      p = .committed ∧ (r.wrappedPool j).mode = .commitOnly) :
    Inv (registryGc ((sweepWrappedIf test r i).setPhase i p)) := by
  set r' := registryGc ((sweepWrappedIf test r i).setPhase i p)
  have hself : r'.active i = { r.active i with phase := p } := update_self ..
  have hother : ∀ k, k ≠ i → r'.active k = r.active k := fun k hk => update_of_ne hk ..
  have hid : ∀ k, (r'.active k).txId = (r.active k).txId := by
    intro k
    by_cases hki : k = i
    · rw [hki, hself]
    · rw [hother k hki]
  have hcaps : ∀ k, (r'.active k).wrappedCaps = (r.active k).wrappedCaps := by
    intro k
    by_cases hki : k = i
    · rw [hki, hself]
    · rw [hother k hki]
  have hpool : r'.wrappedPool = (sweepWrappedIf test r i).wrappedPool := rfl
  have hkeep : ∀ j, (r'.wrappedPool j).id ≠ 0 → r'.wrappedPool j = r.wrappedPool j :=
    fun j hj => (sweepWrappedIf_live (hpool ▸ hj)).1
  constructor
  case lt_activeCount =>
    intro k hk
    exact lt_highWater (p := fun i => (r'.active i).phase != .free) (by simpa using hk)
  case txId_lt =>
    intro k
    rw [hid]
    exact h.txId_lt k
  case txId_inj => exact fun k l => by simpa only [hid] using h.txId_inj k l
  case txId_ne_zero =>
    intro k hk
    rw [hid]
    by_cases hki : k = i
    · rw [hki]
      exact hact
    · rw [hother k hki] at hk
      exact h.txId_ne_zero k hk
  case listed_lt =>
    intro k w hw
    rw [hcaps] at hw
    exact h.listed_lt k w hw
  case listed_inj => exact fun k l w => by simpa only [hcaps] using h.listed_inj k l w
  case cap_lt =>
    intro j
    rcases sweepWrappedIf_id with h0 | hsame
    · rw [hpool, h0]
      exact Nat.zero_lt_of_lt (h.cap_lt j)
    · rw [hpool, hsame]
      exact h.cap_lt j
  case cap_inj =>
    intro j k hjk hj
    have hk : (r'.wrappedPool k).id ≠ 0 := hjk ▸ hj
    have hsame := hkeep j hj
    rw [hsame, hkeep k hk] at hjk
    rw [hsame] at hj
    exact h.cap_inj j k hjk hj
  case cap_live =>
    intro j hj
    have hsame := hkeep j hj
    rw [hsame] at hj ⊢
    exact h.cap_live j hj
  case cap_parent =>
    intro j hj
    have hj' := hj
    rw [hkeep j hj] at hj'
    obtain ⟨k, hk, htx, hmem, hmode⟩ := h.cap_parent j hj'
    refine ⟨k, ?_⟩
    rw [hkeep j hj, hid, hcaps]
    by_cases hki : k = i
    · subst hki
      obtain ⟨rfl, hcommit⟩ := hleft j hj hmem
      rw [hself]
      exact ⟨by simp, htx, hmem, fun _ => hcommit⟩
    · rw [hother k hki]
      exact ⟨hk, htx, hmem, hmode⟩

theorem Inv.registryAbort (h : Inv r) (hact : (r.active i).phase = .active) :
    Inv (registryAbort r i) := by
  apply h.ended (h.txId_ne_zero i (by simp [hact]))
  intro j hj hmem
  exact absurd ⟨hmem, rfl⟩ (sweepWrappedIf_live hj).2

theorem hasLiveCommitOnly_of_mem (hinj : ∀ j k, (r.wrappedPool j).id =
      (r.wrappedPool k).id → (r.wrappedPool j).id ≠ 0 → j = k) (hid : (r.wrappedPool j).id ≠ 0)
    (hlive : (r.wrappedPool j).revoked = false) (hmode : (r.wrappedPool j).mode = .commitOnly)
    (hmem : (r.wrappedPool j).id ∈ (r.active i).wrappedCaps) : hasLiveCommitOnly r i = true := by
  rw [hasLiveCommitOnly, any_eq_true]
  refine ⟨_, hmem, ?_⟩
  rw [registryWrappedFind_eq hinj hid hlive]
  simp [hmode]

theorem committing_live (h : ((committing r i).wrappedPool j).id ≠ 0) :
    (committing r i).wrappedPool j = r.wrappedPool j ∧
      ((r.wrappedPool j).id ∈ (r.active i).wrappedCaps → (r.wrappedPool j).mode = .commitOnly) := by
  obtain ⟨hsame, hnot⟩ := sweepWrappedIf_live h
  refine ⟨hsame, fun hmem => ?_⟩
  cases hm : (r.wrappedPool j).mode with
  | commitOnly => rfl
  | activeOk => exact absurd ⟨hmem, beq_iff_eq.mpr hm⟩ hnot

theorem Inv.committedAt (h : Inv r) (hact : (r.active i).phase = .active) :
    Inv (committedAt r i) := by
  have hlog : Inv (loggedAt r i) :=
    h.of_slots (fun _ => rfl) (fun _ => rfl) (fun _ => rfl) rfl rfl rfl rfl
  apply hlog.ended (h.txId_ne_zero i (by simp [hact]))
  intro j hj hmem
  obtain ⟨hsame, hmode⟩ := committing_live (r := r) hj
  have hinj : ∀ j k, ((committing r i).wrappedPool j).id = ((committing r i).wrappedPool k).id →
      ((committing r i).wrappedPool j).id ≠ 0 → j = k := by
    intro j k hjk hj
    have hk : ((committing r i).wrappedPool k).id ≠ 0 := hjk ▸ hj
    have hsame := (committing_live hj).1
    rw [hsame, (committing_live hk).1] at hjk
    rw [hsame] at hj
    exact h.cap_inj j k hjk hj
  have hid : (r.wrappedPool j).id ≠ 0 := hsame ▸ hj
  have hlive : hasLiveCommitOnly (committing r i) i = true := by
    apply hasLiveCommitOnly_of_mem hinj hj
    · rw [hsame]
      exact h.cap_live j hid
    · rw [hsame]
      exact hmode hmem
    · rw [hsame]
      exact hmem
  exact ⟨if_pos hlive, hmode hmem⟩

theorem Inv.wrappedAt (h : Inv r) (hact : (r.active i).phase = .active)
    (hfull : (r.active i).wrappedCaps.isFull = false) (o : UInt64) (mode : CapMode)
    (hroom : r.nextWrappedId.toNat + 1 < 2 ^ 64) : Inv (wrappedAt r i j o mode) := by
  set r' := Sto.wrappedAt r i j o mode
  have hnext : r'.nextWrappedId.toNat = r.nextWrappedId.toNat + 1 := toNat_succ hroom
  have hself : r'.active i =
      { r.active i with wrappedCaps := (r.active i).wrappedCaps.push r.nextWrappedId } :=
    update_self ..
  have hother : ∀ k, k ≠ i → r'.active k = r.active k := fun k hk => update_of_ne hk ..
  have hid : ∀ k, (r'.active k).txId = (r.active k).txId := by
    intro k
    by_cases hki : k = i
    · rw [hki, hself]
    · rw [hother k hki]
  have hphase : ∀ k, (r'.active k).phase = (r.active k).phase := by
    intro k
    by_cases hki : k = i
    · rw [hki, hself]
    · rw [hother k hki]
  have hcaps : ∀ k w, w ∈ (r'.active k).wrappedCaps ↔
      w ∈ (r.active k).wrappedCaps ∨ k = i ∧ w = r.nextWrappedId := by
    intro k w
    by_cases hki : k = i
    · rw [hki, hself, BoundedList.mem_push hfull]
      simp
    · rw [hother k hki]
      simp [hki]
  have hpself : r'.wrappedPool j = ⟨r.nextWrappedId, o, (r.active i).txId, mode, false⟩ :=
    update_self ..
  have hpother : ∀ k, k ≠ j → r'.wrappedPool k = r.wrappedPool k :=
    fun k hk => update_of_ne hk ..
  constructor
  case lt_activeCount => exact fun k hk => h.lt_activeCount k (hphase k ▸ hk)
  case txId_lt =>
    intro k
    rw [hid]
    exact h.txId_lt k
  case txId_inj => exact fun k l => by simpa only [hid] using h.txId_inj k l
  case txId_ne_zero => exact fun k => by simpa only [hid, hphase] using h.txId_ne_zero k
  case listed_lt =>
    intro k w hw
    rw [hnext]
    rcases (hcaps k w).mp hw with hw | ⟨-, rfl⟩
    · exact Nat.lt_succ_of_lt (h.listed_lt k w hw)
    · exact Nat.lt_succ_self _
  case listed_inj =>
    intro k l w hk hl
    rw [hcaps] at hk hl
    rcases hk with hk | ⟨hki, hk⟩ <;> rcases hl with hl | ⟨hli, hl⟩
    · exact h.listed_inj k l w hk hl
    · exact absurd hl (ne_of_toNat_lt (h.listed_lt k w hk) rfl)
    · exact absurd hk (ne_of_toNat_lt (h.listed_lt l w hl) rfl)
    · rw [hki, hli]
  case cap_lt =>
    intro k
    rw [hnext]
    by_cases hkj : k = j
    · rw [hkj, hpself]
      exact Nat.lt_succ_self _
    · rw [hpother k hkj]
      exact Nat.lt_succ_of_lt (h.cap_lt k)
  case cap_inj =>
    intro k l hkl hne
    have hfresh : ∀ k, k ≠ j → (r'.wrappedPool k).id ≠ r.nextWrappedId := by
      intro k hk
      rw [hpother k hk]
      exact ne_of_toNat_lt (h.cap_lt k) rfl
    by_cases hkj : k = j <;> by_cases hlj : l = j
    · rw [hkj, hlj]
    · rw [hkj, hpself] at hkl
      exact absurd hkl.symm (hfresh l hlj)
    · rw [hlj, hpself] at hkl
      exact absurd hkl (hfresh k hkj)
    · rw [hpother k hkj, hpother l hlj] at hkl
      rw [hpother k hkj] at hne
      exact h.cap_inj k l hkl hne
  case cap_live =>
    intro k hk
    by_cases hkj : k = j
    · rw [hkj, hpself]
    · rw [hpother k hkj] at hk ⊢
      exact h.cap_live k hk
  case cap_parent =>
    intro k hk
    by_cases hkj : k = j
    · refine ⟨i, ?_⟩
      rw [hkj, hpself, hphase, hid, hcaps]
      simp [hact]
    · rw [hpother k hkj] at hk ⊢
      obtain ⟨l, hl, htx, hmem, hmode⟩ := h.cap_parent k hk
      refine ⟨l, ?_⟩
      rw [hphase, hid, hcaps]
      exact ⟨hl, htx, .inl hmem, hmode⟩

def takesTxId (e : Exchange) : Bool := e.input.req == .begin && (freeSlot e.pre).isSome

def takesWrappedId (e : Exchange) : Bool :=
  match e.reply with
  | .wrapped _ => true
  | _ => false

def NotWrapped (h : List Exchange) : Prop :=
  h.countP takesTxId + 1 < 2 ^ 64 ∧ h.countP takesWrappedId + 1 < 2 ^ 64

instance (h : List Exchange) : Decidable (NotWrapped h) := inferInstanceAs (Decidable (_ ∧ _))

theorem NotWrapped.of_append {h' : List Exchange} (hw : NotWrapped (h ++ h')) : NotWrapped h := by
  unfold NotWrapped at hw ⊢
  rw [countP_append, countP_append] at hw
  omega

structure Counted (h : List Exchange) (r : Registry) : Prop where
  inv : Inv r
  nextTxId : r.nextTxId.toNat = h.countP takesTxId + 1
  nextWrappedId : r.nextWrappedId.toNat = h.countP takesWrappedId + 1

theorem Counted.ne_zero (hc : Counted h r) : r.nextWrappedId ≠ 0 := by
  intro h0
  have hval := hc.nextWrappedId
  rw [h0] at hval
  exact absurd hval (by simp)

theorem Counted.push {e : Exchange} (hc : Counted h e.pre) (hinv : Inv r)
    (htx : r.nextTxId.toNat = e.pre.nextTxId.toNat + [e].countP takesTxId)
    (hwid : r.nextWrappedId.toNat = e.pre.nextWrappedId.toNat + [e].countP takesWrappedId) :
    Counted (h ++ [e]) r where
  inv := hinv
  nextTxId := by
    rw [htx, hc.nextTxId, countP_append]
    omega
  nextWrappedId := by
    rw [hwid, hc.nextWrappedId, countP_append]
    omega

theorem effect_counted {m : Msg} {reply : Reply} (heff : Effect r m r' reply) (hc : Counted h r)
    (hw : NotWrapped (h ++ [⟨r, m, reply⟩])) : Counted (h ++ [⟨r, m, reply⟩]) r' := by
  unfold NotWrapped at hw
  rw [countP_append, countP_append] at hw
  have htx := hc.nextTxId
  have hwid := hc.nextWrappedId
  cases heff with
  | same _ hbegin _ _ hwrap _ =>
    refine hc.push hc.inv ?_ ?_
    · rcases hbegin with hreq | hslot <;> simp [takesTxId, *]
    · cases reply <;> simp_all [takesWrappedId]
  | begun i hreq hslot =>
    have htakes : [(⟨r, m, .txId r.nextTxId⟩ : Exchange)].countP takesTxId = 1 := by
      simp [takesTxId, hreq, hslot]
    rw [htakes] at hw
    have hroom : r.nextTxId.toNat + 1 < 2 ^ 64 := by omega
    refine hc.push (hc.inv.begunAt ?_ _ hroom) ?_ rfl
    · simpa using first_some hslot
    · rw [htakes]
      exact toNat_succ hroom
  | touched i t hfind hreq rs ws =>
    refine hc.push ?_ ?_ rfl
    · refine hc.inv.of_slots ?_ ?_ ?_ rfl rfl rfl rfl <;> intro k <;> by_cases hki : k = i <;>
        simp [hki]
    · rcases hreq with ⟨o, ho⟩ | ⟨o, ho⟩ <;> simp [takesTxId, ho, Registry.setTx]
  | committed i t hreq hfind =>
    refine hc.push (hc.inv.committedAt (registryFind_some hfind).2.1) ?_ rfl
    simp [takesTxId, hreq, committedAt]
    rfl
  | aborted i t _ hreq hfind =>
    refine hc.push (hc.inv.registryAbort (registryFind_some hfind).2.1) ?_ ?_
    · rcases hreq with ⟨hreq, -⟩ | ⟨hreq, -⟩ <;> simp [takesTxId, hreq] <;> rfl
    · rcases hreq with ⟨-, rfl, -⟩ | ⟨-, rfl⟩ <;> rfl
  | wrapped i j t o mw mode hreq hmode hfind hfull hslot _ hreply =>
    rw [if_neg hc.ne_zero] at hreply
    subst hreply
    have htakes : [(⟨r, m, .wrapped r.nextWrappedId⟩ : Exchange)].countP takesWrappedId = 1 := rfl
    rw [htakes] at hw
    have hroom : r.nextWrappedId.toNat + 1 < 2 ^ 64 := by omega
    refine hc.push (hc.inv.wrappedAt (registryFind_some hfind).2.1 hfull o mode hroom) ?_ ?_
    · simp [takesTxId, hreq]
      rfl
    · rw [htakes]
      exact toNat_succ hroom

theorem registryAfter_counted {msgs : List Msg} (hw : NotWrapped (history msgs)) :
    Counted (history msgs) (registryAfter msgs) := by
  refine Machine.trace_induction serve (P := fun h r => NotWrapped h → Counted h r) ?_ ?_ msgs hw
  · exact fun _ => ⟨inv_registryInit, rfl, rfl⟩
  · intro h r m ih hw
    exact effect_counted (serve_effect r m) (ih hw.of_append) hw

end SotOs.Sto
