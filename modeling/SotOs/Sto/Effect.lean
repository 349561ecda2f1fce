import SotOs.Sto.Ipc

/-! What one request can do to the registry. Every invariant of the server is read off these cases;
no later proof unfolds a handler. -/

namespace SotOs.Sto

def begunAt (r : Registry) (i : Fin maxTx) (badge : UInt64) : Registry :=
  { r.setTx i { Transaction.zero with
      txId := r.nextTxId, ownerBadge := badge, phase := .active } with
    nextTxId := r.nextTxId + 1
    activeCount := if r.activeCount ≤ i then i + 1 else r.activeCount }

def wrappedAt (r : Registry) (i : Fin maxTx) (j : Fin maxWrappedCaps) (objId : UInt64)
    (mode : CapMode) : Registry :=
  { r.setTx i { r.active i with
      wrappedCaps := (r.active i).wrappedCaps.push r.nextWrappedId } with
    wrappedPool := Function.update r.wrappedPool j
      ⟨r.nextWrappedId, objId, (r.active i).txId, mode, false⟩
    nextWrappedId := r.nextWrappedId + 1 }

def loggedAt (r : Registry) (i : Fin maxTx) : Registry :=
  -- A commit in its three stages: the write set logged, the ACTIVE_OK capabilities swept, and the
  -- slot released or kept.
  { r with commitLog := r.commitLog.push ⟨(r.active i).txId, (r.active i).writeSet⟩ }

def committing (r : Registry) (i : Fin maxTx) : Registry :=
  registrySweepWrappedByMode (loggedAt r i) i .activeOk

def committedAt (r : Registry) (i : Fin maxTx) : Registry :=
  registryGc ((committing r i).setPhase i
    (if hasLiveCommitOnly (committing r i) i then .committed else .free))

inductive Effect (r : Registry) (m : Msg) : Registry → Reply → Prop
  | same (reply : Reply) (hbegin : m.req ≠ .begin ∨ freeSlot r = none)
      (hcommit : ∀ t, m.req = .commit t → reply ≠ .status .ok ∧ reply ≠ .status .conflict)
      (hrollback : ∀ t, m.req = .rollback t → registryFind r t m.badge = none)
      (hwrap : ∀ w, reply ≠ .wrapped w) (htx : ∀ id, reply = .txId id → id = 0) :
      Effect r m r reply
  | begun (i : Fin maxTx) (hreq : m.req = .begin) (hslot : freeSlot r = some i) :
      Effect r m (begunAt r i m.badge) (.txId r.nextTxId)
  | touched (i : Fin maxTx) (t : UInt64) (hfind : registryFind r t m.badge = some i)
      (hreq : (∃ o, m.req = .read t o) ∨ ∃ o, m.req = .stage t o) (rs ws : ObjSet) (s : Status) :
      Effect r m (r.setTx i { r.active i with readSet := rs, writeSet := ws }) (.status s)
  | committed (i : Fin maxTx) (t : UInt64) (hreq : m.req = .commit t)
      (hfind : registryFind r t m.badge = some i) (hcan : registryCanCommit r i = true)
      (hroom : r.commitLog.isFull = false) : Effect r m (committedAt r i) (.status .ok)
  | aborted (i : Fin maxTx) (t : UInt64) (reply : Reply)
      (hreq : m.req = .commit t ∧ reply = .status .conflict ∧ registryCanCommit r i = false ∨
        m.req = .rollback t ∧ reply = .none)
      (hfind : registryFind r t m.badge = some i) : Effect r m (registryAbort r i) reply
  | wrapped (i : Fin maxTx) (j : Fin maxWrappedCaps) (t o mw : UInt64) (mode : CapMode)
      (hreq : m.req = .wrap t o mw) (hmode : capModeOfWord mw = some mode)
      (hfind : registryFind r t m.badge = some i)
      (hroom : (r.active i).wrappedCaps.isFull = false) (hslot : freePoolSlot r = some j)
      (reply : Reply)
      (hreply : reply = if r.nextWrappedId = 0 then .status .quota else .wrapped r.nextWrappedId) :
      Effect r m (wrappedAt r i j o mode) reply

variable {t badge : UInt64} {i : Fin maxTx}

theorem registryFind_some {r : Registry} (h : registryFind r t badge = some i) :
    i.val < r.activeCount ∧ (r.active i).phase = .active ∧ (r.active i).txId = t ∧
      (r.active i).ownerBadge = badge := by
  have hp := Slots.first_some h
  simpa [and_assoc] using hp

theorem withTx_some {r : Registry} (h : registryFind r t badge = some i)
    {k : Fin maxTx → Registry × Reply} : withTx r t badge k = k i := by
  simp [withTx, h, (registryFind_some h).2.1]

theorem withTx_none {r : Registry} (h : registryFind r t badge = none)
    (k : Fin maxTx → Registry × Reply) : withTx r t badge k = (r, .status .invalidTx) := by
  simp [withTx, h]

variable (r : Registry) (m : Msg) {o : UInt64}

theorem handleBegin_some (h : freeSlot r = some i) :
    handleBegin r badge = (begunAt r i badge, .txId r.nextTxId) := by
  simp [handleBegin, registryBegin, h, begunAt, Registry.setTx]

theorem handleBegin_effect (hreq : m.req = .begin) :
    Effect r m (handleBegin r m.badge).1 (handleBegin r m.badge).2 := by
  cases hs : freeSlot r with
  | none =>
    have he : handleBegin r m.badge = (r, .txId 0) := by simp [handleBegin, registryBegin, hs]
    rw [he]
    refine .same _ (.inr hs) ?_ ?_ ?_ ?_ <;> simp [hreq]
  | some i =>
    rw [handleBegin_some r hs]
    exact .begun i hreq hs

theorem handleRead_effect (hreq : m.req = .read t o) :
    Effect r m (handleRead r m.badge t o).1 (handleRead r m.badge t o).2 := by
  cases hf : registryFind r t m.badge with
  | none =>
    rw [handleRead, withTx_none hf]
    refine .same _ (.inl ?_) ?_ ?_ ?_ ?_ <;> simp [hreq]
  | some i =>
    rw [handleRead, withTx_some hf]
    exact .touched i t hf (.inl ⟨o, hreq⟩) _ (r.active i).writeSet _

theorem handleStage_effect (hreq : m.req = .stage t o) :
    Effect r m (handleStage r m.badge t o).1 (handleStage r m.badge t o).2 := by
  cases hf : registryFind r t m.badge with
  | none =>
    rw [handleStage, withTx_none hf]
    refine .same _ (.inl ?_) ?_ ?_ ?_ ?_ <;> simp [hreq]
  | some i =>
    rw [handleStage, withTx_some hf]
    exact .touched i t hf (.inr ⟨o, hreq⟩) (r.active i).readSet _ _

theorem registryCommit_full (h : r.commitLog.isFull = true) :
    registryCommit r i = (r, .quota) := by simp [registryCommit, h]

theorem registryCommit_room (h : r.commitLog.isFull = false) :
    registryCommit r i = (committedAt r i, .ok) := by
  rw [registryCommit, if_neg (by simp [h])]
  rfl

theorem handleCommit_effect (hreq : m.req = .commit t) :
    Effect r m (handleCommit r m.badge t).1 (handleCommit r m.badge t).2 := by
  rcases hf : registryFind r t m.badge with _ | i
  · rw [handleCommit, withTx_none hf]
    refine .same _ (.inl ?_) ?_ ?_ ?_ ?_ <;> simp [hreq]
  rw [handleCommit, withTx_some hf]
  cases hc : registryCanCommit r i with
  | false => exact .aborted i t _ (.inl ⟨hreq, rfl, hc⟩) hf
  | true =>
    cases hl : r.commitLog.isFull with
    | true =>
      simp only [registryCommit_full r hl, if_true]
      refine .same _ (.inl ?_) ?_ ?_ ?_ ?_ <;> simp [hreq]
    | false =>
      simp only [registryCommit_room r hl, if_true]
      exact .committed i t hreq hf hc hl

theorem handleRollback_some (h : registryFind r t badge = some i) :
    handleRollback r badge t = (registryAbort r i, .none) := by
  simp [handleRollback, h, (registryFind_some h).2.1]

theorem handleRollback_effect (hreq : m.req = .rollback t) :
    Effect r m (handleRollback r m.badge t).1 (handleRollback r m.badge t).2 := by
  cases hf : registryFind r t m.badge with
  | none =>
    have he : handleRollback r m.badge t = (r, .none) := by simp [handleRollback, hf]
    rw [he]
    refine .same _ (.inl ?_) ?_ ?_ ?_ ?_ <;> simp [hreq, hf]
  | some i =>
    rw [handleRollback_some r hf]
    exact .aborted i t _ (.inr ⟨hreq, rfl⟩) hf

theorem registryWrap_some {j : Fin maxWrappedCaps} {mode : CapMode}
    (hroom : (r.active i).wrappedCaps.isFull = false) (hslot : freePoolSlot r = some j) :
    registryWrap r i o mode = (wrappedAt r i j o mode, r.nextWrappedId) := by
  simp [registryWrap, hroom, hslot, wrappedAt, Registry.setTx]

theorem handleWrap_effect {mw : UInt64} (hreq : m.req = .wrap t o mw) :
    Effect r m (handleWrap r m.badge t o mw).1 (handleWrap r m.badge t o mw).2 := by
  have hsame : ∀ s : Status, Effect r m r (.status s) := by
    intro s
    refine .same _ (.inl ?_) ?_ ?_ ?_ ?_ <;> simp [hreq]
  cases hf : registryFind r t m.badge with
  | none =>
    rw [handleWrap, withTx_none hf]
    exact hsame _
  | some i =>
    rw [handleWrap, withTx_some hf]
    cases hm : capModeOfWord mw with
    | none => exact hsame _
    | some mode =>
      cases hl : (r.active i).wrappedCaps.isFull with
      | true => simpa [registryWrap, hl] using hsame .quota
      | false =>
        cases hs : freePoolSlot r with
        | none => simpa [registryWrap, hl, hs] using hsame .quota
        | some j =>
          have he : registryWrap r i o mode = (wrappedAt r i j o mode, r.nextWrappedId) :=
            registryWrap_some r hl hs
          have hw := Effect.wrapped i j t o mw mode hreq hm hf hl hs _ rfl
          simp only [he]
          split_ifs with h0
          · simpa [h0] using hw
          · simpa [h0] using hw

theorem handleInvoke_state (wid : UInt64) : (handleInvoke r wid).1 = r := by
  unfold handleInvoke
  split
  · rfl
  · split_ifs <;> rfl

theorem handleInvoke_effect {wid p : UInt64} (hreq : m.req = .invoke wid p) :
    Effect r m (handleInvoke r wid).1 (handleInvoke r wid).2 := by
  rw [handleInvoke_state]
  have hstatus : ∃ s, (handleInvoke r wid).2 = .status s := by
    unfold handleInvoke
    split
    · exact ⟨_, rfl⟩
    · split_ifs <;> exact ⟨_, rfl⟩
  obtain ⟨s, hs⟩ := hstatus
  rw [hs]
  refine .same _ (.inl ?_) ?_ ?_ ?_ ?_ <;> simp [hreq]

theorem serve_effect : Effect r m (serve r m).1 (serve r m).2 := by
  unfold serve
  split
  case h_1 h => exact handleBegin_effect r m h
  case h_2 h => exact handleRead_effect r m h
  case h_3 h => exact handleStage_effect r m h
  case h_4 h => exact handleCommit_effect r m h
  case h_5 h => exact handleRollback_effect r m h
  case h_6 h => exact handleWrap_effect r m h
  case h_7 h => exact handleInvoke_effect r m h
  case h_8 h => refine .same _ (.inl ?_) ?_ ?_ ?_ ?_ <;> simp [h]
  case h_9 h => refine .same _ (.inl ?_) ?_ ?_ ?_ ?_ <;> simp [h]

end SotOs.Sto
