import SotOs.Lib.Machine
import SotOs.Sto.Effect

/-! Optimistic concurrency control over whole runs of the server. The conflict evidence is the
commit log, which is cleared only when no transaction is ACTIVE. -/

namespace SotOs.Sto
open BoundedList

open Machine Function List

abbrev Exchange := Entry Registry Msg Reply

def registryAfter (msgs : List Msg) : Registry := exec serve registryInit msgs

def history (msgs : List Msg) : List Exchange := trace serve registryInit msgs

def Begins (e : Exchange) (i : Fin maxTx) : Prop := e.input.req = .begin ∧ freeSlot e.pre = some i

def AsksCommit (e : Exchange) (i : Fin maxTx) : Prop :=
  ∃ t, e.input.req = .commit t ∧ registryFind e.pre t e.input.badge = some i

def Commits (e : Exchange) (i : Fin maxTx) : Prop := AsksCommit e i ∧ e.reply = .status .ok

def Conflicts (e : Exchange) (i : Fin maxTx) : Prop := AsksCommit e i ∧ e.reply = .status .conflict

def SomeActive (r : Registry) : Prop := ∃ i, (r.active i).phase = .active

variable {r : Registry} {i : Fin maxTx} {tx : Transaction}

@[simp] theorem setTx_active : (r.setTx i tx).active = update r.active i tx := rfl

theorem committedAt_active : ∃ p, p ≠ .active ∧
      (committedAt r i).active = update r.active i { r.active i with phase := p } := by
  refine ⟨if hasLiveCommitOnly (committing r i) i then .committed else .free, ?_, rfl⟩
  split_ifs <;> simp

theorem registryAbort_active :
    (registryAbort r i).active = update r.active i { r.active i with phase := .free } :=
  rfl

variable {r r' s : Registry} {i : Fin maxTx} {m : Msg} {reply : Reply} {c : CommitEntry}
  {msgs : List Msg}

theorem countActive_ne_zero (h : SomeActive r) : countActive r ≠ 0 := by
  obtain ⟨i, hi⟩ := h
  have hpos : 0 < countActive r := countP_pos_iff.mpr ⟨i, mem_finRange i, by simp [hi]⟩
  exact Nat.pos_iff_ne_zero.mp hpos

theorem someActive_of_countActive (h : countActive r ≠ 0) : SomeActive r := by
  obtain ⟨i, _, hi⟩ := countP_pos_iff.mp (Nat.pos_of_ne_zero h)
  exact ⟨i, by simpa using hi⟩

theorem registryGc_commitLog (h : SomeActive r) :
    (registryGc r).commitLog = r.commitLog := if_neg (countActive_ne_zero h)

theorem committedAt_commitLog (h : SomeActive (committedAt r i)) : (committedAt r i).commitLog =
      r.commitLog.push ⟨(r.active i).txId, (r.active i).writeSet⟩ :=
  registryGc_commitLog (r := (committing r i).setPhase i
    (if hasLiveCommitOnly (committing r i) i then .committed else .free)) h

theorem registryAbort_commitLog (h : SomeActive (registryAbort r i)) :
    (registryAbort r i).commitLog = r.commitLog :=
  registryGc_commitLog (r := (registrySweepWrapped r i).setPhase i .free) h

theorem effect_commitLog_mono (h : Effect r m r' reply) (hact : SomeActive r')
    (hc : c ∈ r.commitLog) : c ∈ r'.commitLog := by
  cases h with
  | same => exact hc
  | begun => exact hc
  | touched => exact hc
  | committed i t hreq hfind hcan hroom =>
    rw [committedAt_commitLog hact, mem_push hroom]
    exact .inl hc
  | aborted =>
    rw [registryAbort_commitLog hact]
    exact hc
  | wrapped => exact hc

theorem effect_active_back (h : Effect r m r' reply) (hact : (r'.active i).phase = .active)
    (hbegin : ¬(m.req = .begin ∧ freeSlot r = some i)) : (r.active i).phase = .active := by
  cases h with
  | same => exact hact
  | begun k hreq hslot =>
    have hne : i ≠ k := fun hik => hbegin ⟨hreq, hik ▸ hslot⟩
    simpa [begunAt, update_of_ne hne] using hact
  | touched k t hfind =>
    by_cases hik : i = k
    · subst hik
      exact (registryFind_some hfind).2.1
    · simpa [update_of_ne hik] using hact
  | committed k =>
    obtain ⟨p, hp, he⟩ := committedAt_active
    rw [he] at hact
    by_cases hik : i = k
    · subst hik
      simp only [update_self] at hact
      exact absurd hact hp
    · simpa [update_of_ne hik] using hact
  | aborted k =>
    rw [registryAbort_active] at hact
    by_cases hik : i = k
    · subst hik
      simp at hact
    · simpa [update_of_ne hik] using hact
  | wrapped k j t o mw mode hreq hmode hfind =>
    by_cases hik : i = k
    · subst hik
      exact (registryFind_some hfind).2.1
    · simpa [wrappedAt, update_of_ne hik] using hact

theorem serve_of_asks (h : AsksCommit (entry serve r m) i) :
    ((serve r m).2 = .status .ok → (serve r m).1 = committedAt r i ∧ registryCanCommit r i = true ∧
      r.commitLog.isFull = false) ∧
    ((serve r m).2 = .status .conflict → registryCanCommit r i = false) := by
  obtain ⟨t, hreq, hfind⟩ := h
  simp only [entry] at hreq hfind
  have heff := serve_effect r m
  generalize (serve r m).1 = r' at heff ⊢
  generalize (serve r m).2 = reply at heff ⊢
  cases heff with
  | same _ _ hcommit =>
    exact ⟨fun h => absurd h (hcommit t hreq).1, fun h => absurd h (hcommit t hreq).2⟩
  | begun _ hreq' => simp [hreq] at hreq'
  | touched _ _ _ hreq' => rcases hreq' with ⟨o, ho⟩ | ⟨o, ho⟩ <;> simp [hreq] at ho
  | committed k t' hreq' hfind' hcan hroom =>
    obtain rfl : t = t' := by simpa [hreq] using hreq'
    obtain rfl : i = k := by simpa [hfind] using hfind'
    exact ⟨fun _ => ⟨rfl, hcan, hroom⟩, by simp⟩
  | aborted k t' _ hreq' hfind' =>
    rcases hreq' with ⟨hreq', rfl, hcan⟩ | ⟨hreq', -⟩
    · obtain rfl : t = t' := by simpa [hreq] using hreq'
      obtain rfl : i = k := by simpa [hfind] using hfind'
      exact ⟨by simp, fun _ => hcan⟩
    · simp [hreq] at hreq'
  | wrapped k j t' o mw mode hreq' => simp [hreq] at hreq'

theorem objSetContains_iff {s : ObjSet} {o : UInt64} : objSetContains s o = true ↔ o ∈ s := by
  simp [objSetContains, mem_def]

theorem objSetsIntersect_iff {a b : ObjSet} : objSetsIntersect a b = true ↔ ∃ o, o ∈ a ∧ o ∈ b := by
  simp only [objSetsIntersect, any_eq_true, objSetContains_iff, mem_def]

theorem registryCanCommit_iff : registryCanCommit r i = true ↔
      ∀ c ∈ r.commitLog, ∀ o ∈ c.writeSet, o ∉ (r.active i).readSet := by
  simp only [registryCanCommit, all_eq_true, Bool.not_eq_true', ← Bool.not_eq_true,
    objSetsIntersect_iff, not_exists, not_and, mem_def]
  exact forall₂_congr fun c _ => forall_congr' fun o => ⟨fun h hw hr => h hr hw, fun h hr hw => h hw hr⟩

theorem exec_active_back (hend : ((exec serve s msgs).active i).phase = .active)
    (hno : ∀ e ∈ trace serve s msgs, ¬Begins e i) : (s.active i).phase = .active := by
  induction msgs generalizing s with
  | nil => exact hend
  | cons m msgs ih =>
    rw [trace, forall_mem_cons] at hno
    exact effect_active_back (serve_effect s m) (ih hend hno.2) hno.1

theorem exec_commitLog_mono (hend : ((exec serve s msgs).active i).phase = .active)
    (hno : ∀ e ∈ trace serve s msgs, ¬Begins e i) (hc : c ∈ s.commitLog) :
    c ∈ (exec serve s msgs).commitLog := by
  induction msgs generalizing s with
  | nil => exact hc
  | cons m msgs ih =>
    rw [trace, forall_mem_cons] at hno
    have hact : ((serve s m).1.active i).phase = .active := exec_active_back hend hno.2
    exact ih hend hno.2 (effect_commitLog_mono (serve_effect s m) ⟨i, hact⟩ hc)

theorem exec_commit_logged {u : Fin maxTx}
    (hend : ((exec serve s msgs).active i).phase = .active)
    (hno : ∀ e ∈ trace serve s msgs, ¬Begins e i) {e : Exchange}
    (he : e ∈ trace serve s msgs) (hcommit : Commits e u) :
    ∃ c ∈ (exec serve s msgs).commitLog, c.writeSet = (e.pre.active u).writeSet := by
  induction msgs generalizing s with
  | nil => simp [trace] at he
  | cons m msgs ih =>
    rw [trace, forall_mem_cons] at hno
    rw [trace, mem_cons] at he
    rcases he with rfl | he
    · have hact : ((serve s m).1.active i).phase = .active := exec_active_back hend hno.2
      obtain ⟨hpost, -, hroom⟩ := (serve_of_asks hcommit.1).1 hcommit.2
      have hmem : (⟨(s.active u).txId, (s.active u).writeSet⟩ : CommitEntry) ∈
          (serve s m).1.commitLog := by
        rw [hpost] at hact ⊢
        rw [committedAt_commitLog ⟨i, hact⟩, mem_push hroom]
        exact .inr rfl
      exact ⟨_, exec_commitLog_mono (s := (serve s m).1) hend hno.2 hmem, rfl⟩
    · exact ih hend hno.2 he

def Touches (e : Exchange) (i : Fin maxTx) (req : UInt64 → UInt64 → Request) (o : UInt64) : Prop :=
  ∃ t, e.input.req = req t o ∧ registryFind e.pre t e.input.badge = some i ∧ e.reply = .status .ok

variable {o : UInt64}

theorem mem_objSetAdd {a : ObjSet} {o' : UInt64} :
    o ∈ (objSetAdd a o').1 ↔ o ∈ a ∨ o = o' ∧ (objSetAdd a o').2 = .ok := by
  unfold objSetAdd
  split_ifs with hin hfull
  · refine ⟨.inl, fun h => h.elim id fun h => ?_⟩
    rw [h.1]
    exact objSetContains_iff.mp hin
  · simp
  · simp [mem_push (Bool.eq_false_iff.mpr hfull)]

theorem effect_sets (h : Effect r m r' reply) (hact : (r'.active i).phase = .active)
    (hbegin : ¬(m.req = .begin ∧ freeSlot r = some i)) (hread : ∀ t o, m.req ≠ .read t o)
    (hstage : ∀ t o, m.req ≠ .stage t o) :
    (r'.active i).readSet = (r.active i).readSet ∧
      (r'.active i).writeSet = (r.active i).writeSet := by
  have hsame : ∀ {k tx}, tx.readSet = (r.active k).readSet → tx.writeSet = (r.active k).writeSet →
      (update r.active k tx i).readSet = (r.active i).readSet ∧
        (update r.active k tx i).writeSet = (r.active i).writeSet := by
    intro k tx hr hw
    by_cases hik : i = k
    · subst hik
      rw [update_self]
      exact ⟨hr, hw⟩
    · rw [update_of_ne hik]
      exact ⟨rfl, rfl⟩
  cases h with
  | same => exact ⟨rfl, rfl⟩
  | begun k hreq hslot =>
    have hne : i ≠ k := fun hik => hbegin ⟨hreq, hik ▸ hslot⟩
    simp [begunAt, update_of_ne hne]
  | touched k t hfind hreq =>
    rcases hreq with ⟨o, ho⟩ | ⟨o, ho⟩
    · exact absurd ho (hread t o)
    · exact absurd ho (hstage t o)
  | committed k =>
    obtain ⟨p, -, he⟩ := committedAt_active (r := r) (i := k)
    rw [he]
    exact hsame rfl rfl
  | aborted k => exact hsame rfl rfl
  | wrapped k => exact hsame rfl rfl

theorem serve_sets (hact : ((serve s m).1.active i).phase = .active)
    (hno : ¬Begins (entry serve s m) i) :
    (o ∈ ((serve s m).1.active i).readSet ↔
        o ∈ (s.active i).readSet ∨ Touches (entry serve s m) i .read o) ∧
      (o ∈ ((serve s m).1.active i).writeSet ↔
        o ∈ (s.active i).writeSet ∨ Touches (entry serve s m) i .stage o) := by
  obtain ⟨badge, req⟩ := m
  cases req with
  | read t o' =>
    have hserve : serve s ⟨badge, .read t o'⟩ = handleRead s badge t o' := rfl
    simp only [Touches, entry, Request.read.injEq, reduceCtorEq, false_and, exists_false, or_false]
    rcases hfind : registryFind s t badge with _ | k
    · rw [hserve, handleRead, withTx_none hfind]
      simp_all
    · rw [hserve, handleRead, withTx_some hfind]
      by_cases hik : i = k
      · subst hik
        simp [registryAddRead, mem_objSetAdd, hfind, eq_comm]
      · simp [registryAddRead, update_of_ne hik, hfind, Ne.symm hik]
  | stage t o' =>
    have hserve : serve s ⟨badge, .stage t o'⟩ = handleStage s badge t o' := rfl
    simp only [Touches, entry, Request.stage.injEq, reduceCtorEq, false_and, exists_false, or_false]
    rcases hfind : registryFind s t badge with _ | k
    · rw [hserve, handleStage, withTx_none hfind]
      simp_all
    · rw [hserve, handleStage, withTx_some hfind]
      by_cases hik : i = k
      · subst hik
        simp [registryAddWrite, mem_objSetAdd, hfind, eq_comm]
      · simp [registryAddWrite, update_of_ne hik, hfind, Ne.symm hik]
  | _ =>
    obtain ⟨hr, hw⟩ := effect_sets (serve_effect s _) hact hno (by simp) (by simp)
    simp [hr, hw, Touches, entry]

theorem exec_sets (hend : ((exec serve s msgs).active i).phase = .active)
    (hno : ∀ e ∈ trace serve s msgs, ¬Begins e i) :
    (o ∈ ((exec serve s msgs).active i).readSet ↔
        o ∈ (s.active i).readSet ∨ ∃ e ∈ trace serve s msgs, Touches e i .read o) ∧
      (o ∈ ((exec serve s msgs).active i).writeSet ↔
        o ∈ (s.active i).writeSet ∨ ∃ e ∈ trace serve s msgs, Touches e i .stage o) := by
  induction msgs generalizing s with
  | nil => simp [exec, trace]
  | cons m msgs ih =>
    rw [trace, forall_mem_cons] at hno
    have hfirst := serve_sets (o := o) (exec_active_back hend hno.2) hno.1
    have hrest := ih hend hno.2
    simp only [exec, trace, mem_cons, exists_eq_or_imp, ← or_assoc, ← hfirst.1, ← hfirst.2]
    exact hrest

/-- The transaction in slot `i` at step `k` is the one begun at step `b`. -/
def OpenSince (msgs : List Msg) (b k : ℕ) (i : Fin maxTx) : Prop :=
  b < k ∧ (∃ e, (history msgs)[b]? = some e ∧ Begins e i) ∧
    ∀ n e, b < n → n < k → (history msgs)[n]? = some e → ¬Begins e i

/-- A transaction that commits has read nothing that was committed while it was open. -/
theorem commit_no_lost_update (msgs : List Msg) {b j k : ℕ} {ej ek : Exchange} {i u : Fin maxTx}
    (hopen : OpenSince msgs b k i) (hk : (history msgs)[k]? = some ek) (hcommit : Commits ek i)
    (hj : (history msgs)[j]? = some ej) (hother : Commits ej u) (hbj : b < j) (hjk : j < k) :
    ∀ o ∈ (ej.pre.active u).writeSet, o ∉ (ek.pre.active i).readSet := by
  obtain ⟨hbk, -, hlast⟩ := hopen
  obtain ⟨m, -, rfl⟩ := trace_getElem serve hk
  obtain ⟨t, -, hfind⟩ := hcommit.1
  have hseg := exec_segment serve registryInit msgs (Nat.succ_le_of_lt hbk)
  have hend : ((exec serve registryInit (msgs.take k)).active i).phase = .active :=
    (registryFind_some hfind).2.1
  have hno : ∀ e ∈ trace serve (exec serve registryInit (msgs.take (b + 1)))
      ((msgs.take k).drop (b + 1)), ¬Begins e i := by
    intro e he
    obtain ⟨-, n, hbn, hnk, hn⟩ := (mem_trace_segment serve).mp he
    exact hlast n e hbn hnk hn
  have hmem : ej ∈ trace serve (exec serve registryInit (msgs.take (b + 1)))
      ((msgs.take k).drop (b + 1)) :=
    (mem_trace_segment serve).mpr ⟨hbk, j, hbj, hjk, hj⟩
  rw [← hseg] at hend
  obtain ⟨c, hc, hws⟩ := exec_commit_logged hend hno hmem hother
  rw [hseg] at hc
  obtain ⟨-, hcan, -⟩ := (serve_of_asks hcommit.1).1 hcommit.2
  rw [← hws]
  exact registryCanCommit_iff.mp hcan c hc

/-- The sets of an open transaction are what was read and staged in it. -/
theorem sets_iff_answered (msgs : List Msg) {b k : ℕ} (hopen : OpenSince msgs b k i)
    (hend : ((registryAfter (msgs.take k)).active i).phase = .active) :
    (o ∈ ((registryAfter (msgs.take k)).active i).readSet ↔
        ∃ n e, b < n ∧ n < k ∧ (history msgs)[n]? = some e ∧ Touches e i .read o) ∧
      (o ∈ ((registryAfter (msgs.take k)).active i).writeSet ↔
        ∃ n e, b < n ∧ n < k ∧ (history msgs)[n]? = some e ∧ Touches e i .stage o) := by
  obtain ⟨hbk, ⟨eb, hb, hreq, hslot⟩, hlast⟩ := hopen
  obtain ⟨m, hm, rfl⟩ := trace_getElem serve hb
  have hseg := exec_segment serve registryInit msgs (Nat.succ_le_of_lt hbk)
  have hno : ∀ e ∈ trace serve (exec serve registryInit (msgs.take (b + 1)))
      ((msgs.take k).drop (b + 1)), ¬Begins e i := by
    intro e he
    obtain ⟨-, n, hbn, hnk, hn⟩ := (mem_trace_segment serve).mp he
    exact hlast n e hbn hnk hn
  -- the transaction begins with empty sets
  have hempty : ((exec serve registryInit (msgs.take (b + 1))).active i).readSet = .empty ∧
      ((exec serve registryInit (msgs.take (b + 1))).active i).writeSet = .empty := by
    have hserve : serve (exec serve registryInit (msgs.take b)) m =
        handleBegin (exec serve registryInit (msgs.take b)) m.badge := by
      unfold serve
      rw [show m.req = .begin from hreq]
    rw [take_add_one, hm, exec_append]
    change ((serve _ m).1.active i).readSet = _ ∧ ((serve _ m).1.active i).writeSet = _
    rw [hserve, handleBegin_some (exec serve registryInit (msgs.take b)) hslot]
    simp [begunAt, Transaction.zero]
  rw [registryAfter, ← hseg] at hend ⊢
  obtain ⟨hr, hw⟩ := exec_sets (o := o) hend hno
  have hsegment : ∀ req, (∃ e ∈ trace serve (exec serve registryInit (msgs.take (b + 1)))
      ((msgs.take k).drop (b + 1)), Touches e i req o) ↔
        ∃ n e, b < n ∧ n < k ∧ (history msgs)[n]? = some e ∧ Touches e i req o := by
    intro req
    simp only [mem_trace_segment, history]
    constructor
    · rintro ⟨e, ⟨-, n, hbn, hnk, hn⟩, htouch⟩
      exact ⟨n, e, hbn, hnk, hn, htouch⟩
    · rintro ⟨n, e, hbn, hnk, hn, htouch⟩
      exact ⟨e, ⟨hbk, n, hbn, hnk, hn⟩, htouch⟩
  rw [hr, hw, hempty.1, hempty.2, ← hsegment, ← hsegment]
  simp

def disjointRun : List Msg :=
  [⟨1, .begin⟩, ⟨2, .begin⟩, ⟨2, .stage 2 7⟩, ⟨2, .commit 2⟩, ⟨1, .read 1 8⟩, ⟨1, .commit 1⟩]

theorem commit_no_lost_update_disjointRun :
    7 ∈ ((registryAfter (disjointRun.take 3)).active 1).writeSet ∧
      7 ∉ ((registryAfter (disjointRun.take 5)).active 0).readSet := by
  have hwrote : 7 ∈ ((registryAfter (disjointRun.take 3)).active 1).writeSet := by decide +kernel
  refine ⟨hwrote, commit_no_lost_update disjointRun (b := 0) (j := 3) (k := 5)
    ⟨by decide, ⟨_, rfl, rfl, by decide +kernel⟩, ?_⟩ rfl ⟨⟨1, rfl, by decide +kernel⟩, by decide +kernel⟩
    rfl ⟨⟨2, rfl, by decide +kernel⟩, by decide +kernel⟩ (by decide) (by decide) 7 hwrote⟩
  rintro n e h0 h5 hn ⟨hreq, hslot⟩
  obtain ⟨m, hm, rfl⟩ := trace_getElem serve hn
  obtain rfl | rfl | rfl | rfl : n = 1 ∨ n = 2 ∨ n = 3 ∨ n = 4 := by omega
  · have h1 : freeSlot (registryAfter (disjointRun.take 1)) ≠ some 0 := by decide +kernel
    exact h1 hslot
  all_goals
    obtain ⟨⟩ := hm
    cases hreq

theorem effect_someActive (h : Effect r m r' reply) (hr : ∀ c ∈ r.commitLog, SomeActive r) :
    ∀ c ∈ r'.commitLog, SomeActive r' := by
  intro c hc
  have hgc : ∀ q : Registry, c ∈ (registryGc q).commitLog → SomeActive (registryGc q) := by
    intro q hq
    apply someActive_of_countActive (r := q)
    intro h0
    simp [registryGc, h0] at hq
  cases h with
  | same => exact hr c hc
  | begun i => exact ⟨i, by simp [begunAt]⟩
  | touched i t hfind => exact ⟨i, by simpa using (registryFind_some hfind).2.1⟩
  | committed => exact hgc _ hc
  | aborted => exact hgc _ hc
  | wrapped i j t o mw mode hreq hmode hfind =>
    exact ⟨i, by simpa [wrappedAt] using (registryFind_some hfind).2.1⟩

theorem mem_registryGc_commitLog (h : c ∈ (registryGc r).commitLog) : c ∈ r.commitLog := by
  unfold registryGc at h
  split_ifs at h
  · exact absurd h not_mem_empty
  · exact h

theorem serve_commitLog_back (hc : c ∈ (serve r m).1.commitLog) : c ∈ r.commitLog ∨
      ∃ i, Commits (entry serve r m) i ∧ c.writeSet = (r.active i).writeSet := by
  have heff := serve_effect r m
  generalize he : serve r m = out at heff hc
  obtain ⟨r', reply⟩ := out
  simp only at heff hc
  cases heff with
  | same => exact .inl hc
  | begun => exact .inl hc
  | touched => exact .inl hc
  | committed i t hreq hfind hcan hroom =>
    have hpush := mem_registryGc_commitLog hc
    change c ∈ (r.commitLog.push ⟨(r.active i).txId, (r.active i).writeSet⟩) at hpush
    rw [mem_push hroom] at hpush
    rcases hpush with hold | rfl
    · exact .inl hold
    · exact .inr ⟨i, ⟨⟨t, hreq, hfind⟩, by simp [entry, he]⟩, rfl⟩
  | aborted i =>
    exact .inl (mem_registryGc_commitLog (r := (registrySweepWrapped r i).setPhase i .free) hc)
  | wrapped => exact .inl hc

/-- Where a record in the log comes from: an OK commit, with a transaction ACTIVE ever since. -/
def Logged (h : List Exchange) (r : Registry) (c : CommitEntry) : Prop :=
  SomeActive r ∧ ∃ j e u, h[j]? = some e ∧ Commits e u ∧ c.writeSet = (e.pre.active u).writeSet ∧
    ∀ (n : ℕ) (e' : Exchange), j < n → h[n]? = some e' → SomeActive e'.pre

theorem commitLog_logged :
    ∀ c ∈ (registryAfter msgs).commitLog, Logged (history msgs) (registryAfter msgs) c := by
  apply trace_induction serve
    (P := fun h r => ∀ c ∈ r.commitLog, Logged h r c)
  · intro c hc
    exact absurd hc not_mem_empty
  · intro h r m ih c hc
    have hact := effect_someActive (serve_effect r m) (fun c hc => (ih c hc).1) c hc
    refine ⟨hact, ?_⟩
    rcases serve_commitLog_back hc with hold | ⟨i, hcommit, hws⟩
    · obtain ⟨hr, j, e, u, hj, hu, hws, hsince⟩ := ih c hold
      have hjlt : j < h.length := (List.getElem?_eq_some_iff.mp hj).1
      refine ⟨j, e, u, by rw [getElem?_append_left hjlt, hj], hu, hws, fun n e' hn he' => ?_⟩
      by_cases hnlt : n < h.length
      · rw [getElem?_append_left hnlt] at he'
        exact hsince n e' hn he'
      rw [getElem?_append_right (by omega), getElem?_singleton] at he'
      split_ifs at he'
      obtain ⟨⟩ := he'
      exact hr
    · refine ⟨h.length, _, i, by simp, hcommit, hws, fun n e' hn he' => ?_⟩
      rw [getElem?_append_right (by omega), getElem?_singleton, if_neg (by omega)] at he'
      cases he'

/-- A conflict comes from a commit since which the server was never without an ACTIVE transaction.
-/
theorem conflict_from_busy_period (msgs : List Msg) {k : ℕ} {ek : Exchange} {i : Fin maxTx}
    (hk : (history msgs)[k]? = some ek) (hconflict : Conflicts ek i) :
    ∃ j ej u, j < k ∧ (history msgs)[j]? = some ej ∧ Commits ej u ∧
      (∃ o, o ∈ (ej.pre.active u).writeSet ∧ o ∈ (ek.pre.active i).readSet) ∧
      ∀ n e, j < n → n ≤ k → (history msgs)[n]? = some e → SomeActive e.pre := by
  obtain ⟨m, -, rfl⟩ := trace_getElem serve hk
  have hcan := (serve_of_asks hconflict.1).2 hconflict.2
  have hclash : ¬∀ c ∈ (registryAfter (msgs.take k)).commitLog, ∀ o ∈ c.writeSet,
      o ∉ ((registryAfter (msgs.take k)).active i).readSet := by
    rw [← registryCanCommit_iff]
    exact ne_true_of_eq_false hcan
  push Not at hclash
  obtain ⟨c, hc, o, ho, hread⟩ := hclash
  obtain ⟨hact, j, ej, u, hj, hcommit, hws, hsince⟩ := commitLog_logged c hc
  rw [history, trace_take] at hj hsince
  have hjk : j < k := by
    have hlt := (List.getElem?_eq_some_iff.mp hj).1
    rw [length_take] at hlt
    omega
  rw [getElem?_take_of_lt hjk] at hj
  refine ⟨j, ej, u, hjk, hj, hcommit, ⟨o, hws ▸ ho, hread⟩, fun n e hjn hnk hn => ?_⟩
  rcases Nat.lt_or_eq_of_le hnk with hlt | rfl
  · exact hsince n e hjn (by rwa [getElem?_take_of_lt hlt])
  · rw [hk] at hn
    obtain ⟨⟩ := hn
    exact hact

def staleConflictRun : List Msg :=
  [⟨1, .begin⟩, ⟨2, .begin⟩, ⟨2, .stage 2 7⟩, ⟨2, .commit 2⟩, ⟨2, .begin⟩, ⟨2, .read 3 7⟩,
    ⟨2, .commit 3⟩]

theorem conflict_from_busy_period_staleConflictRun :
    ∃ j ej u, j < 6 ∧ (history staleConflictRun)[j]? = some ej ∧ Commits ej u ∧
      (∃ o, o ∈ (ej.pre.active u).writeSet ∧
        o ∈ ((registryAfter (staleConflictRun.take 6)).active 1).readSet) ∧
      ∀ n e, j < n → n ≤ 6 → (history staleConflictRun)[n]? = some e → SomeActive e.pre :=
  conflict_from_busy_period staleConflictRun (k := 6) (i := 1) rfl
    ⟨⟨3, rfl, by decide +kernel⟩, by decide +kernel⟩

theorem conflict_without_later_commit :
    ¬∀ (msgs : List Msg) (b k : ℕ) (ek : Exchange) (i : Fin maxTx), OpenSince msgs b k i →
      (history msgs)[k]? = some ek → Conflicts ek i →
      ∃ j ej u, b < j ∧ j < k ∧ (history msgs)[j]? = some ej ∧ Commits ej u ∧
        ∃ o, o ∈ (ej.pre.active u).writeSet ∧ o ∈ (ek.pre.active i).readSet := by
  intro h
  have hopen : OpenSince staleConflictRun 4 6 1 := by
    refine ⟨by decide, ⟨_, rfl, rfl, by decide +kernel⟩, ?_⟩
    rintro n e h4 h6 hn ⟨hreq, -⟩
    obtain rfl : n = 5 := by omega
    obtain ⟨m, hm, rfl⟩ := trace_getElem serve hn
    obtain ⟨⟩ := hm
    cases hreq
  obtain ⟨j, ej, u, h4, h6, hj, ⟨⟨t, hreq, -⟩, -⟩, -⟩ := h staleConflictRun 4 6 _ 1 hopen rfl
    ⟨⟨3, rfl, by decide +kernel⟩, by decide +kernel⟩
  obtain rfl : j = 5 := by omega
  obtain ⟨m, hm, rfl⟩ := trace_getElem serve hj
  obtain ⟨⟩ := hm
  cases hreq

end SotOs.Sto
