import SotOs.Synth.SshCuts
import SotOs.Synth.SshGate

/-! The pool of sessions: one that has reached authentication loses its slot only in a pool full of
such sessions, and no call changes the session of another connection. -/

namespace SotOs.Synth
open Machine Function Slots
variable {env : Env} {s : Server} {call : SshCall} {i : SshSlot} {c : SshConn} {t : Turn}

def SshConn.Active (c : SshConn) : Prop := c.aborted = false ∧ c.phase = .auth

def Evicts (s : Server) (call : SshCall) (i : SshSlot) : Prop :=
  ∃ connId req outmax, call = .respond connId req outmax ∧ sshFind s connId = none ∧ i = sshEvict s

def KeepsSlots (env : Env) (e : Entry Server SshCall SshReply) : Prop :=
  ∀ i c, e.pre.slots i = some c →
    let slots' := (sshStep env e.pre e.input).1.slots
    (slots' i = some c ∨ e.input.target = some c.connId ∨ Evicts e.pre e.input i) ∧
      (c.Active → (∃ d, slots' i = some d ∧ d.connId = c.connId ∧ (d.aborted = true ∨ d.Active)) ∨
        (∃ outmax, e.input = .respond c.connId [] outmax) ∨
        Evicts e.pre e.input i ∧ ∀ j, ∃ d, e.pre.slots j = some d ∧ d.Active)

structure Pooled (s : Server) : Prop where
  apart : ∀ i j c d, s.slots i = some c → s.slots j = some d → c.connId = d.connId → i = j
  greeted : ∀ i c, s.slots i = some c → c.aborted = true ∨ c.phase ≠ .fresh

theorem evict_full (hs : Pooled s) (hslot : s.slots (sshEvict s) = some c) (hc : c.Active)
    (j : SshSlot) : ∃ d, s.slots j = some d ∧ d.Active := by
  obtain ⟨hlive, hauth⟩ := hc
  unfold sshEvict at hslot
  -- each scan that finds a slot finds one that is not active
  rcases hfree : first fun i => (s.slots i).isNone with _ | k
  · rcases hover : first fun i => (s.slots i).any fun c => c.aborted || c.phase == .kexed with _ | k
    · rcases hid : first fun i => (s.slots i).any fun c => c.phase == .idsent with _ | k
      · obtain ⟨d, hd⟩ := Option.isSome_iff_exists.mp (by simpa using first_none hfree j)
        have hnot := first_none hover j
        have hnot' := first_none hid j
        have hgreeted := hs.greeted j d hd
        rcases hphase : d.phase <;> simp_all [SshConn.Active]
      · have hk := first_some hid
        simp_all
    · have hk := first_some hover
      simp_all
  · have hk := first_some hfree
    simp_all

inductive Touched (s : Server) (call : SshCall) : Server → Prop
  | none (s' : Server) (hslots : s'.slots = s.slots) : Touched s call s'
  | slot (i : SshSlot) (t : Turn) (hdone : t.conn.aborted = true ∨ t.conn.phase ≠ .fresh)
      (hother : ∀ j d, s.slots j = some d → d.connId = t.conn.connId → j = i)
      (hslot : ∀ c, s.slots i = some c → Evicts s call i ∨ call.target = some c.connId ∧
        t.conn.connId = c.connId ∧
        (c.phase = .auth → t.conn.phase = .auth ∨ ∃ outmax, call = .respond c.connId [] outmax)) :
      Touched s call (s.set i t)

theorem touched_own (hs : Pooled s) (hc : s.slots i = some c) (hid : call.target = some c.connId)
    (hconn : t.conn.connId = c.connId) (hdone : t.conn.aborted = true ∨ t.conn.phase ≠ .fresh)
    (hauth : c.phase = .auth → t.conn.phase = .auth ∨ ∃ outmax, call = .respond c.connId [] outmax) :
    Touched s call (s.set i t) := by
  refine .slot i t hdone (fun j d hd h => hs.apart j i d c hd hc (h.trans hconn)) fun d hd => ?_
  obtain ⟨⟩ := hc.symm.trans hd
  exact .inr ⟨hid, hconn, hauth⟩

theorem sshStep_touched (hs : Pooled s) : Touched s call (sshStep env s call).1 := by
  have hcases := sshStep_cases env s call
  generalize sshStep env s call = r at hcases ⊢
  rcases hcases with ⟨s', hslots⟩ | ⟨i, c, reset, room, req, t, ret, ht, connId, outmax, rfl, hslot⟩ |
    ⟨i, c, t, ret, data, ht, hc, hid, -⟩
  · exact .none s' hslots
  · have hsame : SameSession c t.conn := ht ▸ respondOn_same
    have hdone : t.conn.aborted = true ∨ t.conn.phase ≠ .fresh := ht ▸ respondOn_done
    rcases hslot with ⟨_, _, hc, rfl⟩ | ⟨_, d, hd, rfl, rfl⟩ | hfind
    · exact touched_own hs hc rfl hsame.connId hdone fun h => .inl (hsame.auth h)
    · exact touched_own hs hd rfl hsame.connId hdone fun _ => .inr ⟨outmax, rfl⟩
    · refine .slot _ t hdone (fun j d hd h => ?_) fun _ _ => .inl ⟨connId, req, outmax, rfl, hfind, rfl⟩
      simpa [hd, h.trans hsame.connId, SshConn.init] using first_none hfind j
  · have hkept := ht.kept
    refine touched_own hs hc hid hkept.connId ?_ fun h => .inl (hkept.auth h)
    exact (hs.greeted i c hc).imp hkept.ended fun h hfresh => h (hkept.greeted hfresh)

theorem pooled_step (hs : Pooled s) : Pooled (sshStep env s call).1 := by
  have htouched : Touched s call (sshStep env s call).1 := sshStep_touched hs
  generalize (sshStep env s call).1 = s' at htouched ⊢
  rcases htouched with ⟨_, hslots⟩ | ⟨i, t, hdone, hother, -⟩
  · exact ⟨hslots ▸ hs.apart, hslots ▸ hs.greeted⟩
  refine ⟨fun j k c d hc hd h => ?_, fun j c hc => ?_⟩
  · simp only [Server.set, update_apply] at hc hd
    split_ifs at hc hd with hj hk hk
    · exact hj.trans hk.symm
    · obtain ⟨⟩ := hc
      exact hj.trans (hother k d hd h.symm).symm
    · obtain ⟨⟩ := hd
      exact (hother j c hc h).trans hk.symm
    · exact hs.apart j k c d hc hd h
  · simp only [Server.set, update_apply] at hc
    split_ifs at hc
    · obtain ⟨⟩ := hc
      exact hdone
    · exact hs.greeted j c hc

theorem active_keeps_slot (env : Env) (rng : ℕ) (calls : List SshCall) :
    ∀ e ∈ trace (sshStep env) (.init rng) calls, KeepsSlots env e := by
  intro e he i c hc
  have hinit : Pooled (.init rng) := ⟨by simp [Server.init], by simp [Server.init]⟩
  have hs : Pooled e.pre := trace_pre_invariant _ (fun _ _ => pooled_step) hinit he
  have htouched : Touched e.pre e.input (sshStep env e.pre e.input).1 := sshStep_touched hs
  dsimp only
  generalize (sshStep env e.pre e.input).1 = s' at htouched ⊢
  rcases htouched with ⟨_, hslots⟩ | ⟨k, t, -, -, hslot⟩
  · have hkeep : s'.slots i = some c := hslots ▸ hc
    exact ⟨.inl hkeep, fun hactive => .inl ⟨c, hkeep, rfl, .inr hactive⟩⟩
  by_cases hik : i = k
  · subst hik
    rcases hslot c hc with hevict | ⟨hid, hconn, hauth⟩
    · refine ⟨.inr (.inr hevict), fun hactive => .inr (.inr ⟨hevict, ?_⟩)⟩
      obtain ⟨_, _, _, _, _, rfl⟩ := hevict
      exact evict_full hs hc hactive
    · refine ⟨.inr (.inl hid), fun hactive => ?_⟩
      rcases hauth hactive.2 with hphase | hnew
      · refine .inl ⟨t.conn, by simp [Server.set], hconn, ?_⟩
        exact (Bool.eq_false_or_eq_true _).imp_right fun hlive => ⟨hlive, hphase⟩
      · exact .inr (.inl hnew)
  · have hkeep : (e.pre.set k t).slots i = some c := by simpa [Server.set, hik] using hc
    exact ⟨.inl hkeep, fun hactive => .inl ⟨c, hkeep, rfl, .inr hactive⟩⟩

def thirdFrame : List SshCall := [.respond 1 [] 0, .respond 2 [] 0, .respond 1 [83] 0]

theorem active_keeps_slot_third :
    let s := exec (sshStep plainEnv) (.init 0) (thirdFrame.take 2)
    (s.slots 0).isSome ∧ (s.slots 1).isSome ∧
      KeepsSlots plainEnv (entry (sshStep plainEnv) s (.respond 1 [83] 0)) :=
  ⟨by decide +kernel, by decide +kernel,
    active_keeps_slot plainEnv 0 thirdFrame _ (.tail _ (.tail _ (.head _)))⟩

theorem sessions_pooled (env : Env) (rng : ℕ) (calls : List SshCall) :
    Pooled (exec (sshStep env) (.init rng) calls) :=
  exec_invariant _ (fun _ _ => pooled_step) (by constructor <;> simp [Server.init]) calls

end SotOs.Synth
