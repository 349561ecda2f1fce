import SotOs.Sto.Invariant

/-! What a client can change of another client's transactions and capabilities: nothing, as long as
the id counters have not come round. -/

namespace SotOs.Sto

open Machine Function Slots
variable {r r' : Registry} {m : Msg} {reply : Reply}

variable {i k : Fin maxTx} {j : Fin maxWrappedCaps}

theorem ne_of_registryFind {t : UInt64} (hfind : registryFind r t m.badge = some k)
    (howner : (r.active i).ownerBadge ≠ m.badge) : i ≠ k := by
  rintro rfl
  exact howner (registryFind_some hfind).2.2.2

theorem effect_active_frame (heff : Effect r m r' reply) (hi : (r.active i).phase ≠ .free)
    (howner : (r.active i).ownerBadge ≠ m.badge) : r'.active i = r.active i := by
  cases heff with
  | same => rfl
  | begun k hreq hslot =>
    have hne : i ≠ k := by
      rintro rfl
      exact hi (by simpa using first_some hslot)
    exact update_of_ne hne ..
  | touched k t hfind => exact update_of_ne (ne_of_registryFind hfind howner) ..
  | committed k t hreq hfind => exact update_of_ne (ne_of_registryFind hfind howner) ..
  | aborted k t _ hreq hfind => exact update_of_ne (ne_of_registryFind hfind howner) ..
  | wrapped k j t o mw mode hreq hmode hfind =>
    exact update_of_ne (ne_of_registryFind hfind howner) ..

def ParentOf (r : Registry) (i : Fin maxTx) (j : Fin maxWrappedCaps) : Prop :=
  (r.active i).phase ≠ .free ∧ (r.active i).txId = (r.wrappedPool j).txId

theorem Inv.eq_of_listed (hinv : Inv r) (hj : (r.wrappedPool j).id ≠ 0) (hparent : ParentOf r i j)
    (hmem : (r.wrappedPool j).id ∈ (r.active k).wrappedCaps) : i = k := by
  obtain ⟨l, hl, htx, hmem', -⟩ := hinv.cap_parent j hj
  have hil : i = l := hinv.txId_inj i l (hparent.2.trans htx.symm) (hinv.txId_ne_zero i hparent.1)
  rw [hil]
  exact hinv.listed_inj l k _ hmem' hmem

theorem effect_pool_frame (hinv : Inv r) (heff : Effect r m r' reply)
    (hj : (r.wrappedPool j).id ≠ 0) (hparent : ParentOf r i j)
    (howner : (r.active i).ownerBadge ≠ m.badge) : r'.wrappedPool j = r.wrappedPool j := by
  have hunlisted : ∀ {t k}, registryFind r t m.badge = some k →
      (r.wrappedPool j).id ∉ (r.active k).wrappedCaps := by
    intro t k hfind hmem
    exact ne_of_registryFind hfind howner (hinv.eq_of_listed hj hparent hmem)
  cases heff with
  | same => rfl
  | begun => rfl
  | touched => rfl
  | committed k t hreq hfind =>
    change (committing r k).wrappedPool j = _
    rw [committing, registrySweepWrappedByMode, sweepWrappedIf_pool, if_neg]
    · rfl
    · exact fun hswept => hunlisted hfind hswept.1
  | aborted k t _ hreq hfind =>
    change (sweepWrappedIf _ r k).wrappedPool j = _
    rw [sweepWrappedIf_pool, if_neg]
    exact fun hswept => hunlisted hfind hswept.1
  | wrapped k l t o mw mode hreq hmode hfind hfull hslot =>
    have hne : j ≠ l := by
      rintro rfl
      exact hj (by simpa using first_some hslot)
    exact update_of_ne hne ..

/-- A request leaves every transaction of the other badges as it is, and every live capability
of theirs too. -/
theorem request_isolated (msgs : List Msg) (m : Msg) :
    (∀ i, ((registryAfter msgs).active i).phase ≠ .free →
      ((registryAfter msgs).active i).ownerBadge ≠ m.badge →
      (serve (registryAfter msgs) m).1.active i = (registryAfter msgs).active i) ∧
    (NotWrapped (history msgs) → ∀ i j, ((registryAfter msgs).wrappedPool j).id ≠ 0 →
      ParentOf (registryAfter msgs) i j → ((registryAfter msgs).active i).ownerBadge ≠ m.badge →
      (serve (registryAfter msgs) m).1.wrappedPool j = (registryAfter msgs).wrappedPool j) := by
  constructor
  · exact fun i hi howner => effect_active_frame (serve_effect _ m) hi howner
  · intro hw i j hj hparent howner
    exact effect_pool_frame (registryAfter_counted hw).inv (serve_effect _ m) hj hparent howner

def neighbourRun : List Msg := [⟨1, .begin⟩, ⟨1, .wrap 1 9 1⟩, ⟨2, .begin⟩, ⟨2, .wrap 2 9 1⟩]

theorem request_isolated_neighbourRun :
    (serve (registryAfter neighbourRun) ⟨2, .rollback 2⟩).1.active 0 =
        (registryAfter neighbourRun).active 0 ∧
      (serve (registryAfter neighbourRun) ⟨2, .rollback 2⟩).1.wrappedPool 0 =
        (registryAfter neighbourRun).wrappedPool 0 := by
  have hphase : ((registryAfter neighbourRun).active 0).phase ≠ .free := by decide +kernel
  have howner : ((registryAfter neighbourRun).active 0).ownerBadge ≠ 2 := by decide +kernel
  have hw : NotWrapped (history neighbourRun) := by decide +kernel
  have hlive : ((registryAfter neighbourRun).wrappedPool 0).id ≠ 0 := by decide +kernel
  have hparent : ParentOf (registryAfter neighbourRun) 0 0 := ⟨hphase, by decide +kernel⟩
  obtain ⟨hslots, hcaps⟩ := request_isolated neighbourRun ⟨2, .rollback 2⟩
  exact ⟨hslots 0 hphase howner, hcaps hw 0 0 hlive hparent howner⟩

structure Cycled (r : Registry) (wid : UInt64) : Prop where
  next : r.nextWrappedId = wid
  holder : r.active 0 = ⟨1, 1, .active, .empty, .empty, BoundedList.empty.push 1⟩
  rest : ∀ k, k ≠ 0 → (r.active k).phase = .free
  held : r.wrappedPool 0 = ⟨1, 0, 1, .activeOk, false⟩
  unheld : ∀ j, j ≠ 0 → (r.wrappedPool j).id = 0

def cycleHalf (r : Registry) : Registry := wrappedAt (begunAt r 1 2) 1 1 0 .activeOk

variable {wid : UInt64}

theorem Cycled.find (h : Cycled r wid) (hcount : 1 < r'.activeCount)
    (hself : (r'.active 1).phase = .active ∧ (r'.active 1).txId = r.nextTxId ∧
      (r'.active 1).ownerBadge = 2)
    (hother : ∀ k, k ≠ 1 → r'.active k = r.active k) :
    registryFind r' r.nextTxId 2 = some 1 := by
  apply first_eq_of_unique
  · have hlt : (1 : Fin maxTx).val < r'.activeCount := hcount
    rw [decide_eq_true hlt]
    simp [hself]
  · intro k hk
    by_contra hk1
    simp only [hother k hk1, Bool.and_eq_true, decide_eq_true_eq, beq_iff_eq] at hk
    obtain ⟨⟨⟨-, hphase⟩, -⟩, howner⟩ := hk
    by_cases h0 : k = 0
    · rw [h0, h.holder] at howner
      exact absurd howner (by decide)
    · rw [h.rest k h0] at hphase
      cases hphase

theorem Cycled.half (h : Cycled r wid) :
    exec serve r [⟨2, .begin⟩, ⟨2, .wrap r.nextTxId 0 1⟩] = cycleHalf r := by
  have hslot : freeSlot r = some 1 := by
    apply first_eq_of_min
    · simpa using h.rest 1 (by decide)
    · intro k hk
      obtain rfl : k = 0 := Fin.ext (Nat.lt_one_iff.mp hk)
      simp [h.holder]
  have hfind : registryFind (begunAt r 1 2) r.nextTxId 2 = some 1 := by
    apply h.find
    · change 1 < if r.activeCount ≤ 1 then 2 else r.activeCount
      split_ifs <;> omega
    · simp [begunAt]
    · exact fun k hk => update_of_ne hk ..
  have hpool : freePoolSlot (begunAt r 1 2) = some 1 := by
    apply first_eq_of_min
    · change ((r.wrappedPool 1).id == 0) = true
      rw [h.unheld 1 (by decide)]
      rfl
    · intro k hk
      obtain rfl : k = 0 := Fin.ext (Nat.lt_one_iff.mp hk)
      change ((r.wrappedPool 0).id == 0) = false
      rw [h.held]
      rfl
  have hfull : ((begunAt r 1 2).active 1).wrappedCaps.isFull = false := by
    simp [begunAt, Transaction.zero]
    rfl
  have hbegin : (serve r ⟨2, .begin⟩).1 = begunAt r 1 2 := by
    rw [serve, handleBegin_some r hslot]
  have hwrap : (serve (begunAt r 1 2) ⟨2, .wrap r.nextTxId 0 1⟩).1 = cycleHalf r := by
    change (handleWrap (begunAt r 1 2) 2 r.nextTxId 0 1).1 = _
    rw [handleWrap, withTx_some hfind]
    have hmode : capModeOfWord 1 = some .activeOk := rfl
    simp only [hmode, registryWrap_some _ hfull hpool]
    split_ifs <;> rfl
  rw [exec, exec, hbegin, hwrap, exec]

theorem Cycled.back (h : Cycled r wid) :
    (serve (cycleHalf r) ⟨2, .rollback r.nextTxId⟩).1 = registryAbort (cycleHalf r) 1 := by
  have hfind : registryFind (cycleHalf r) r.nextTxId 2 = some 1 := by
    apply h.find
    · change 1 < if r.activeCount ≤ 1 then 2 else r.activeCount
      split_ifs <;> omega
    · simp [cycleHalf, wrappedAt, begunAt]
    · intro k hk
      simp [cycleHalf, wrappedAt, begunAt, update_of_ne hk]
  change (handleRollback (cycleHalf r) 2 r.nextTxId).1 = _
  rw [handleRollback_some _ hfind]

theorem cycleBack_pool : (registryAbort (cycleHalf r) 1).wrappedPool j =
      if ((cycleHalf r).wrappedPool j).id = r.nextWrappedId then
        { (cycleHalf r).wrappedPool j with revoked := true, id := 0 }
      else (cycleHalf r).wrappedPool j := by
  have hcaps : ((cycleHalf r).active 1).wrappedCaps = BoundedList.empty.push r.nextWrappedId := by
    simp [cycleHalf, wrappedAt, begunAt, Transaction.zero]
    rfl
  change (sweepWrappedIf (fun _ => true) (cycleHalf r) 1).wrappedPool j = _
  rw [sweepWrappedIf_pool, hcaps]
  apply if_congr _ rfl rfl
  rw [BoundedList.mem_push rfl]
  simp

theorem cycleHalf_pool (hj : j ≠ 1) :
    (cycleHalf r).wrappedPool j = r.wrappedPool j := update_of_ne hj ..

theorem Cycled.step (h : Cycled r wid) (hwid : wid ≠ 1) :
    Cycled (serve (cycleHalf r) ⟨2, .rollback r.nextTxId⟩).1 (wid + 1) := by
  rw [h.back]
  have hother : ∀ k, k ≠ 1 → (registryAbort (cycleHalf r) 1).active k = r.active k := by
    intro k hk
    simp [registryAbort_active, cycleHalf, wrappedAt, begunAt, update_of_ne hk]
  constructor
  case next =>
    rw [← h.next]
    rfl
  case holder =>
    rw [hother 0 (by decide)]
    exact h.holder
  case rest =>
    intro k h0
    by_cases h1 : k = 1
    · rw [h1, registryAbort_active, update_self]
    · rw [hother k h1]
      exact h.rest k h0
  case held =>
    rw [cycleBack_pool, cycleHalf_pool (by decide), h.held, h.next]
    exact if_neg hwid.symm
  case unheld =>
    intro j hj
    rw [cycleBack_pool]
    by_cases hj1 : j = 1
    · have hself : ((cycleHalf r).wrappedPool j).id = r.nextWrappedId := by
        subst hj1
        simp [cycleHalf, wrappedAt]
        rfl
      rw [if_pos hself]
    · rw [cycleHalf_pool hj1]
      split_ifs
      · rfl
      · exact h.unheld j hj

def holderRun : List Msg := [⟨1, .begin⟩, ⟨1, .wrap 1 0 1⟩]

theorem cycled_holderRun : Cycled (registryAfter holderRun) 2 where
  next := by decide +kernel
  holder := by decide +kernel
  rest := by decide +kernel
  held := by decide +kernel
  unheld := by decide +kernel

theorem isolation_not_total : (¬∀ (msgs : List Msg) (m : Msg) (i : Fin maxTx),
      ((registryAfter msgs).active i).ownerBadge ≠ m.badge →
      (serve (registryAfter msgs) m).1.active i = (registryAfter msgs).active i) ∧
    ¬∀ (msgs : List Msg) (m : Msg) (i : Fin maxTx) (j : Fin maxWrappedCaps),
      ((registryAfter msgs).wrappedPool j).id ≠ 0 → ParentOf (registryAfter msgs) i j →
      ((registryAfter msgs).active i).ownerBadge ≠ m.badge →
      (serve (registryAfter msgs) m).1.wrappedPool j = (registryAfter msgs).wrappedPool j := by
  constructor
  · intro h
    have hsame := congrArg Transaction.phase (h [] ⟨1, .begin⟩ 0 (by decide))
    have hphase : ((serve (registryAfter []) ⟨1, .begin⟩).1.active 0).phase = .active := by
      decide +kernel
    rw [hphase] at hsame
    cases hsame
  · intro h
    have hhalf : ∀ {msgs wid}, Cycled (registryAfter msgs) wid →
        ∃ msgs', registryAfter msgs' = cycleHalf (registryAfter msgs) := fun {msgs _} hc =>
      ⟨msgs ++ _, (exec_append ..).trans hc.half⟩
    -- at 1 the rollback takes the held entry, which the rule forbids
    have hne : ∀ {msgs wid}, Cycled (registryAfter msgs) wid → wid ≠ 1 := by
      rintro msgs wid hc rfl
      obtain ⟨msgs', hrun⟩ := hhalf hc
      generalize registryAfter msgs = r at hc hrun
      have hheld : (cycleHalf r).wrappedPool 0 = ⟨1, 0, 1, .activeOk, false⟩ := by
        rw [cycleHalf_pool (by decide), hc.held]
      have hholder : (cycleHalf r).active 0 = r.active 0 := by
        have h01 : (0 : Fin maxTx) ≠ 1 := by decide
        simp [cycleHalf, wrappedAt, begunAt, update_of_ne h01]
      have hsame := h msgs' ⟨2, .rollback r.nextTxId⟩ 0 0 (by rw [hrun, hheld]; decide)
        (by rw [hrun, ParentOf, hholder, hheld, hc.holder]; decide)
        (by rw [hrun, hholder, hc.holder]; exact (by decide : (1 : UInt64) ≠ 2))
      rw [hrun, hc.back, cycleBack_pool, hheld, hc.next] at hsame
      simp at hsame
    have hround : ∀ n, ∃ msgs, Cycled (registryAfter msgs) (2 + UInt64.ofNat n) := by
      intro n
      induction n with
      | zero => exact ⟨holderRun, cycled_holderRun⟩
      | succ n ih =>
        obtain ⟨msgs, hc⟩ := ih
        obtain ⟨msgs', hrun⟩ := hhalf hc
        refine ⟨msgs' ++ [⟨2, .rollback (registryAfter msgs).nextTxId⟩], ?_⟩
        rw [registryAfter, exec_append, ← registryAfter, hrun, Nat.succ_eq_add_one,
          UInt64.ofNat_add, ← add_assoc]
        exact hc.step (hne hc)
    obtain ⟨msgs, hc⟩ := hround (2 ^ 64 - 1)
    exact hne hc (by decide)

end SotOs.Sto
