import SotOs.Lib.Incremental
import SotOs.Synth.SshCost

/-! How a client's bytes are cut into frames makes no difference to the server, as long as no frame
overruns the reassembly buffer and no unfinished line reaches the identification limit. -/

namespace SotOs.Synth
open SshConn

open Machine Function Slots List Option
variable {env : Env} {flags : ShellFlags} {room : Option ℕ} {c : SshConn} {rng : ℕ}

def SshConn.cleared (c : SshConn) : SshConn := if c.aborted then { c with rx := [] } else c

theorem cleared_of_running (h : c.aborted = false) : c.cleared = c := by
  simp [cleared, h]

@[simp] theorem cleared_aborted : c.cleared.aborted = c.aborted := by
  cases h : c.aborted <;> simp [cleared, h]

def lineStep (c : SshConn) : Option SshConn :=
  match splitLine c.rx with
  | none => none
  | some (line, rest) =>
    match idOf line with
    | none => some { c with rx := rest }
    | some id =>
      some (if sshVcMax ≤ id.length then c.abort.cleared
        else { c with vc := id, idDone := true, rx := rest })

def packetStep (env : Env) (flags : ShellFlags) (c : SshConn) (rng : ℕ) :
    Option ((SshConn × ℕ) × List UInt8) :=
  match sshNextPacket env.crypto c with
  | .more => none
  | .bad c => some ((c.cleared, rng), [])
  | .packet c payload =>
    let t := handle env flags none c rng payload
    some ((t.conn.cleared, t.rng), outBytes t.events)

def sessionStep (env : Env) (flags : ShellFlags) (s : SshConn × ℕ) :
    Option ((SshConn × ℕ) × List UInt8) :=
  if s.1.aborted then none
  else if s.1.idDone then packetStep env flags s.1 s.2
  else (lineStep s.1).map fun c => ((c, s.2), [])

def sessionPush (s : SshConn × ℕ) (ys : List UInt8) : SshConn × ℕ :=
  if s.1.aborted then s else ({ s.1 with rx := s.1.rx ++ ys }, s.2)

theorem sessionStep_aborted (h : c.aborted = true) : sessionStep env flags (c, rng) = none :=
  if_pos h

theorem sessionStep_packet (h : c.aborted = false) (hid : c.idDone = true) :
    sessionStep env flags (c, rng) = packetStep env flags c rng := by
  simp only [sessionStep, h, hid, Bool.false_eq_true, if_false, if_true]

theorem sessionStep_line (h : c.aborted = false) (hid : c.idDone = false) :
    sessionStep env flags (c, rng) = (lineStep c).map fun c => ((c, rng), []) := by
  simp only [sessionStep, h, hid, Bool.false_eq_true, if_false]

variable {ys : List UInt8}

theorem sessionPush_running (h : c.aborted = false) :
    sessionPush (c, rng) ys = ({ c with rx := c.rx ++ ys }, rng) := by
  simp only [sessionPush, h, Bool.false_eq_true, if_false]

variable {s' : SshConn × ℕ} {out rx : List UInt8} {c' : SshConn} {fuel : ℕ}
  {r : (SshConn × ℕ) × List UInt8} {t : Turn} {frames : List (List UInt8)}

theorem sessionStep_cases (h : sessionStep env flags (c, rng) = some (s', out)) :
    c.aborted = false ∧ (c.idDone = true ∧ packetStep env flags c rng = some (s', out) ∨
      c.idDone = false ∧ lineStep c = some s'.1 ∧ s'.2 = rng ∧ out = []) := by
  cases haborted : c.aborted with
  | true =>
    rw [sessionStep_aborted haborted] at h
    cases h
  | false =>
    refine ⟨rfl, ?_⟩
    cases hid : c.idDone with
    | true =>
      rw [sessionStep_packet haborted hid] at h
      exact .inl ⟨rfl, h⟩
    | false =>
      rw [sessionStep_line haborted hid] at h
      obtain ⟨c', hline, heq⟩ := map_eq_some_iff.mp h
      cases heq
      exact .inr ⟨rfl, hline, rfl, rfl⟩

theorem sessionPush_append (s : SshConn × ℕ) (xs ys : List UInt8) :
    sessionPush (sessionPush s xs) ys = sessionPush s (xs ++ ys) := by
  by_cases h : s.1.aborted = true
  · simp [sessionPush, h]
  · simp [sessionPush, h]

theorem cleared_push :
    (({ c with rx := c.rx ++ ys } : SshConn).cleared, rng) = sessionPush (c.cleared, rng) ys := by
  cases h : c.aborted <;> simp [cleared, sessionPush, h]

theorem lineStep_push (hc : c.aborted = false) (h : lineStep c = some c') :
    (lineStep { c with rx := c.rx ++ ys }).map (fun c => ((c, rng), ([] : List UInt8))) =
      some (sessionPush (c', rng) ys, []) := by
  unfold lineStep at h ⊢
  split at h
  · cases h
  · rename_i line rest hline
    simp only [splitLine_append hline]
    split at h <;> cases h
    · simp [sessionPush, hc]
    · split_ifs
      · simp [sessionPush, cleared, abort]
      · simp [sessionPush, hc]

theorem packetStep_push (h : packetStep env flags c rng = some (s', out)) :
    packetStep env flags { c with rx := c.rx ++ ys } rng = some (sessionPush s' ys, out) := by
  have hmore : sshNextPacket env.crypto c ≠ .more := by
    intro hmore
    simp [packetStep, hmore] at h
  unfold packetStep at h ⊢
  rw [nextPacket_push ys hmore]
  cases hopen : sshNextPacket env.crypto c with
  | more => exact absurd hopen hmore
  | bad d =>
    rw [hopen] at h
    cases h
    simp only [Opened.push, cleared_push]
  | packet d payload =>
    rw [hopen] at h
    cases h
    have hrx : (handle env flags none d rng payload).conn.rx = d.rx := handle_conn_rx
    simp only [Opened.push, handle_rx, Turn.withRx, ← hrx, cleared_push]

theorem sessionStep_push (s s' : SshConn × ℕ) (out ys : List UInt8)
    (h : sessionStep env flags s = some (s', out)) :
    sessionStep env flags (sessionPush s ys) = some (sessionPush s' ys, out) := by
  obtain ⟨c, rng⟩ := s
  obtain ⟨haborted, ⟨hid, hpacket⟩ | ⟨hid, hline, hrng, rfl⟩⟩ := sessionStep_cases h
  · rw [sessionPush_running haborted,
      sessionStep_packet (c := { c with rx := c.rx ++ ys }) haborted hid]
    exact packetStep_push hpacket
  · obtain ⟨c', rng'⟩ := s'
    obtain rfl : rng' = rng := hrng
    rw [sessionPush_running haborted,
      sessionStep_line (c := { c with rx := c.rx ++ ys }) haborted hid]
    exact lineStep_push haborted hline

theorem cleared_rx_le (c : SshConn) : c.cleared.rx.length ≤ c.rx.length := by
  cases h : c.aborted <;> simp [cleared, h]

theorem packetStep_size (h : packetStep env flags c rng = some (s', out)) :
    s'.1.rx.length < c.rx.length := by
  have hcases := nextPacket_cases env.crypto c
  simp only [packetStep] at h
  generalize sshNextPacket env.crypto c = opened at h hcases
  cases hcases with
  | more => cases h
  | bad giv cc hrx =>
    cases h
    simpa [cleared, abort] using hrx
  | packet giv cc total payload hclear hsealed htotal =>
    cases h
    have hle := cleared_rx_le (handle env flags none
      ({ c with givIn := giv, ccIn := cc }.shifted total) rng payload).conn
    rw [handle_conn_rx] at hle
    have hdrop : ({ c with givIn := giv, ccIn := cc }.shifted total).rx.length =
        c.rx.length - total := by simp [shifted]
    dsimp only at hle ⊢
    omega

theorem lineStep_size (h : lineStep c = some c') : c'.rx.length < c.rx.length := by
  unfold lineStep at h
  split at h
  · cases h
  · rename_i line rest hsplit
    have hlt := splitLine_length hsplit
    split at h <;> cases h
    · exact hlt
    · split_ifs
      · have hnil : c.abort.cleared.rx = [] := by simp [cleared, abort]
        rw [hnil, length_nil]
        omega
      · exact hlt

theorem sessionStep_size (s s' : SshConn × ℕ) (out : List UInt8)
    (h : sessionStep env flags s = some (s', out)) : s'.1.rx.length < s.1.rx.length := by
  obtain ⟨c, rng⟩ := s
  obtain ⟨-, ⟨-, hpacket⟩ | ⟨-, hline, -, -⟩⟩ := sessionStep_cases h
  · exact packetStep_size hpacket
  · exact lineStep_size hline

def sessionReader (env : Env) (flags : ShellFlags) : Reader (SshConn × ℕ) UInt8 UInt8 where
  step := sessionStep env flags
  push := sessionPush
  size s := s.1.rx.length
  push_append := sessionPush_append
  step_push := sessionStep_push
  step_size := sessionStep_size

theorem settle_aborted (h : c.aborted = true) :
    (sessionReader env flags).settle (c, rng) = ((c, rng), []) :=
  (sessionReader env flags).settle_of_none (sessionStep_aborted h)

theorem settle_packet (h : c.aborted = false) (hid : c.idDone = true)
    (hstep : packetStep env flags c rng = some (s', out)) :
    (sessionReader env flags).settle (c, rng) = (((sessionReader env flags).settle s').1,
      out ++ ((sessionReader env flags).settle s').2) :=
  (sessionReader env flags).settle_of_some ((sessionStep_packet h hid).trans hstep)

theorem settle_line (h : c.aborted = false) (hid : c.idDone = false) (hstep : lineStep c = some c') :
    (sessionReader env flags).settle (c, rng) = (sessionReader env flags).settle (c', rng) := by
  have hsome : (sessionReader env flags).step (c, rng) = some ((c', rng), []) := by
    refine (sessionStep_line h hid).trans ?_
    rw [hstep, map_some]
  rw [(sessionReader env flags).settle_of_some hsome, nil_append]

theorem settle_unfinished (h : c.aborted = false) (hid : c.idDone = false)
    (hnone : splitLine c.rx = none) :
    (sessionReader env flags).settle (c, rng) = ((c, rng), []) := by
  refine Reader.settle_of_none _ ((sessionStep_line h hid).trans ?_)
  simp only [lineStep, hnone, map_none]

def Turn.shown (t : Turn) : (SshConn × ℕ) × List UInt8 :=
  ((t.conn.cleared, t.rng), outBytes t.events)

variable {payload : List UInt8} {events : List SshEvent}

@[simp] theorem outBytes_got : outBytes (.got c payload :: events) = outBytes events := rfl

theorem takePackets_settle (hc : c.aborted = false) (hid : c.idDone = true)
    (hfuel : c.rx.length ≤ fuel) : (sessionReader env flags).settle (c, rng) =
      (takePackets env flags fuel none c rng).shown := by
  induction fuel generalizing c rng with
  | zero =>
    have hnone : (sessionReader env flags).step (c, rng) = none := by
      refine eq_none_iff_forall_ne_some.mpr fun r hr => ?_
      have hlt := (sessionReader env flags).step_size _ r.1 r.2 hr
      exact absurd (Nat.lt_of_lt_of_le hlt hfuel) (Nat.not_lt_zero _)
    rw [Reader.settle_of_none _ hnone]
    simp only [takePackets, Turn.shown, Turn.idle, outBytes_nil, cleared_of_running hc]
  | succ fuel ih =>
    cases hopen : sshNextPacket env.crypto c with
    | more =>
      have hnone : (sessionReader env flags).step (c, rng) = none := by
        refine (sessionStep_packet hc hid).trans ?_
        simp only [packetStep, hopen]
      rw [Reader.settle_of_none _ hnone]
      simp only [takePackets, hopen, Turn.shown, Turn.idle, outBytes_nil, cleared_of_running hc]
    | bad d =>
      have hstep : packetStep env flags c rng = some ((d.cleared, rng), []) := by
        simp only [packetStep, hopen]
      have haborted : d.cleared.aborted = true := by
        have hcases := nextPacket_cases env.crypto c
        rw [hopen] at hcases
        cases hcases
        rfl
      rw [settle_packet hc hid hstep, settle_aborted haborted]
      simp only [takePackets, hopen, Turn.shown, Turn.idle, outBytes_nil, append_nil]
    | packet d payload =>
      have hstep : packetStep env flags c rng = some
          (((handle env flags none d rng payload).conn.cleared,
            (handle env flags none d rng payload).rng),
            outBytes (handle env flags none d rng payload).events) := by
        simp only [packetStep, hopen]
      have htaken := nextPacket_taken hopen
      have hrx : (handle env flags none d rng payload).conn.rx = d.rx := handle_conn_rx
      have hsame := handle_same env flags none d rng payload
      rw [settle_packet hc hid hstep]
      simp only [takePackets, hopen]
      generalize handle env flags none d rng payload = t at hrx hsame ⊢
      cases haborted : t.conn.aborted with
      | true =>
        rw [settle_aborted (by rw [cleared_aborted, haborted])]
        simp [Turn.shown]
      | false =>
        have hlen := htaken.clear
        rw [cleared_of_running haborted, ih haborted (hsame.idDone (htaken.idDone hid))
          (by rw [hrx]; omega)]
        simp [Turn.shown, Turn.andThen, outBytes_append]

theorem scanId_settle (hc : c.aborted = false) (hid : c.idDone = false) (hfuel : c.rx.length ≤ fuel) :
    (sessionReader env flags).settle (c, rng) =
      match scanId fuel c.rx with
      | .waiting rest => (({ c with rx := rest }, rng), [])
      | .tooLong _ => ((c.abort.cleared, rng), [])
      | .found id rest => (sessionReader env flags).settle
          ({ c with vc := id, idDone := true, rx := rest }, rng) := by
  induction fuel generalizing c with
  | zero =>
    have hnil : c.rx = [] := eq_nil_of_length_eq_zero (Nat.le_zero.mp hfuel)
    exact settle_unfinished hc hid (by rw [hnil]; rfl)
  | succ fuel ih =>
    rcases hsplit : splitLine c.rx with _ | r
    · rw [settle_unfinished hc hid hsplit]
      simp only [scanId, hsplit]
    obtain ⟨line, rest⟩ := r
    have hlt := splitLine_length hsplit
    cases hline : idOf line with
    | none =>
      have hstep : lineStep c = some { c with rx := rest } := by
        simp only [lineStep, hsplit, hline]
      have hrest := ih (c := { c with rx := rest }) hc hid (by dsimp only; omega)
      rw [settle_line hc hid hstep, hrest]
      simp only [scanId, hsplit, hline]
      rfl
    | some id =>
      by_cases hlong : sshVcMax ≤ id.length
      · have hstep : lineStep c = some c.abort.cleared := by
          simp only [lineStep, hsplit, hline, if_pos hlong]
        rw [settle_line hc hid hstep, settle_aborted (by rw [cleared_aborted]; rfl)]
        simp only [scanId, hsplit, hline, if_pos hlong]
      · have hstep : lineStep c = some { c with vc := id, idDone := true, rx := rest } := by
          simp only [lineStep, hsplit, hline, if_neg hlong]
        rw [settle_line hc hid hstep]
        simp only [scanId, hsplit, hline, if_neg hlong]

def Skipped (lines : List (List UInt8)) : Prop := ∀ line ∈ lines, 10 ∉ line ∧ idOf line = none

def Unfinished (rx tail : List UInt8) : Prop :=
  10 ∉ tail ∧ ∃ lines, Skipped lines ∧ rx = (lines.map (· ++ [10])).flatten ++ tail

theorem scanId_waiting {rest : List UInt8} (hfuel : rx.length ≤ fuel)
    (h : scanId fuel rx = .waiting rest) : Unfinished rx rest := by
  induction fuel generalizing rx with
  | zero =>
    have hnil : rx = [] := eq_nil_of_length_eq_zero (Nat.le_zero.mp hfuel)
    cases h
    exact ⟨by simp [hnil], [], by simp [Skipped], by simp⟩
  | succ fuel ih =>
    unfold scanId at h
    split at h
    · rename_i hnone
      cases h
      exact ⟨splitLine_none hnone, [], by simp [Skipped], by simp⟩
    · rename_i line more hsplit
      have hlt := splitLine_length hsplit
      obtain ⟨hrx, hmem⟩ := splitLine_spec hsplit
      split at h
      · rename_i hline
        obtain ⟨htail, lines, hskip, hmore⟩ := ih (by omega) h
        refine ⟨htail, line :: lines, ?_, ?_⟩
        · exact forall_mem_cons.mpr ⟨⟨hmem, hline⟩, hskip⟩
        · rw [hrx, hmore]
          simp
      · split_ifs at h

structure Fits (c : SshConn) (req : List UInt8) : Prop where
  buffer : c.rx.length + req.length ≤ sshRxMax
  line : c.idDone = false → ∀ tail, Unfinished (c.rx ++ req) tail → tail.length < sshVcMax

theorem consume_settle (hc : c.aborted = false)
    (hline : c.idDone = false → ∀ tail, Unfinished c.rx tail → tail.length < sshVcMax) :
    (sessionReader env flags).settle (c, rng) = (consume env flags none c rng).shown := by
  unfold consume
  by_cases hdone : c.idDone = true
  · rw [if_pos hdone]
    exact takePackets_settle hc hdone le_rfl
  have hid : c.idDone = false := Bool.eq_false_of_not_eq_true hdone
  rw [if_neg hdone, scanId_settle hc hid le_rfl]
  cases hscan : scanId c.rx.length c.rx with
  | waiting rest =>
    have hshort := hline hid rest (scanId_waiting le_rfl hscan)
    simp only [if_neg (Nat.not_le.mpr hshort), Turn.shown, Turn.idle, outBytes_nil]
    rw [cleared_of_running (c := { c with rx := rest }) hc]
  | tooLong rest => simp [Turn.shown, Turn.abort, cleared, abort]
  | found id rest =>
    exact takePackets_settle (c := { c with vc := id, idDone := true, rx := rest }) hc rfl le_rfl

theorem RoomFree.bind {f : Option ℕ → Turn} {k : Turn → Option ℕ → Turn} (hf : RoomFree f)
    (hk : ∀ t, RoomFree (k t)) (hext : ∀ t, t.size ≤ (k t none).size) :
    RoomFree fun room => k (f room) room := by
  intro room h
  have hfirst := hf room (allows_mono h (hext _))
  simp only [hfirst]
  exact hk (f none) room h

theorem RoomFree.andThen {g : Option ℕ → Turn} (hg : RoomFree g) (t : Turn) :
    RoomFree fun room => t.andThen (g (roomAfter room t.events)) := by
  intro room h
  simp only [Turn.andThen, roomAfter_none, outBytes_append, length_append] at h
  simp only [hg _ (allows_roomAfter h), roomAfter_none]

theorem size_le_andThen (t u : Turn) : t.size ≤ (t.andThen u).size := by
  simp [Turn.size, Turn.andThen, outBytes_append]

theorem takePackets_roomFree (env : Env) (flags : ShellFlags) (fuel : ℕ) (c : SshConn) (rng : ℕ) :
    RoomFree fun room => takePackets env flags fuel room c rng := by
  induction fuel generalizing c rng with
  | zero => exact roomFree_const
  | succ fuel ih =>
    simp only [takePackets]
    split
    · exact roomFree_const
    · exact roomFree_const
    rename_i d payload _
    have hfree : RoomFree fun room => handle env flags room d rng payload :=
      (handle_plain : Plain [] _ _).free
    have hgot := hfree.map (fun t => { t with events := .got c payload :: t.events }) fun _ => le_rfl
    refine hgot.bind (k := fun t room => if t.conn.aborted then t
      else t.andThen (takePackets env flags fuel (roomAfter room t.events) t.conn t.rng)) ?_ ?_
    · exact fun t => roomFree_ite roomFree_const ((ih t.conn t.rng).andThen t)
    · intro t
      split_ifs
      · exact le_rfl
      · exact size_le_andThen _ _

theorem consume_roomFree : RoomFree fun room => consume env flags room c rng := by
  unfold consume
  refine roomFree_ite (takePackets_roomFree _ _ _ _ _) ?_
  split
  · exact roomFree_const
  · exact roomFree_const
  · exact takePackets_roomFree _ _ _ _ _

variable {wire : List UInt8}

theorem outBytes_idLine : outBytes (.idLine wire :: events) = wire ++ outBytes events := rfl

theorem outBytes_sent : outBytes [.sent payload wire] = wire := List.append_nil wire

theorem greetWith_roomFree {kexinit : Option (List UInt8)} :
    RoomFree fun room => greetWith env room c rng kexinit := by
  intro room h
  have hroom : allows none sshId.length = true := rfl
  simp only [greetWith, hroom, Bool.true_eq_false, if_false, roomAfter_none] at h ⊢
  cases kexinit with
  | none =>
    have hid : allows room sshId.length = true := by simpa [outBytes_idLine] using h
    simp only [hid, Bool.true_eq_false, if_false]
  | some p =>
    dsimp only at h ⊢
    cases he : sshEmit env none { c with is := p } (rng + 16) p with
    | none =>
      rw [he] at h
      have hid : allows room sshId.length = true := by simpa [outBytes_idLine] using h
      simp only [hid, Bool.true_eq_false, if_false, emit_none he]
    | some e =>
      rw [he] at h
      simp only [outBytes_idLine, outBytes_sent, length_append] at h
      have hid := allows_mono h (Nat.le_add_right _ _)
      have hwire : allows (roomAfter room [.idLine sshId]) e.wire.length = true :=
        allows_roomAfter (by simpa [outBytes_idLine] using h)
      simp only [hid, Bool.true_eq_false, if_false, emit_fits he hwire]

theorem respondOn_roomFree (env : Env) (flags : ShellFlags) (c : SshConn) (rng : ℕ)
    (req : List UInt8) : RoomFree fun room => respondOn env flags room c rng req := by
  have hgreet : RoomFree fun room => greeting env room c rng := by
    simp only [greeting, emitIdKexinit]
    exact roomFree_ite greetWith_roomFree roomFree_const
  simp only [respondOn_eq]
  refine roomFree_ite roomFree_const (hgreet.bind (k := afterGreeting env flags req) ?_ ?_)
  · exact fun t => roomFree_ite roomFree_const (roomFree_ite roomFree_const
      (consume_roomFree.andThen t))
  · intro t
    unfold afterGreeting
    split_ifs
    · exact le_rfl
    · exact le_rfl
    · exact size_le_andThen _ _

theorem length_of_putU32 {cap : ℕ} {b : Option (List UInt8)} {v : UInt32} {r : List UInt8}
    (h : sshPutU32 cap b v = some r) : r.length ≤ cap := length_of_putBytes h

theorem serverKexinit_length {cookie p : List UInt8} (h : serverKexinit cookie = some p) :
    p.length ≤ sshIsMax := length_of_putU32 h

structure Greeted (c : SshConn) (t : Turn) : Prop extends SameSession c t.conn where
  rx : t.conn.rx = c.rx
  known : t.conn.idDone = c.idDone
  done : t.conn.aborted = true ∨ t.conn.phase ≠ .fresh
  size : t.size ≤ 1400

theorem greetWith_greeted (hfresh : c.phase = .fresh) {kexinit : Option (List UInt8)}
    (hkexinit : ∀ p, kexinit = some p → p.length ≤ sshIsMax) :
    Greeted c (greetWith env room c rng kexinit) := by
  have hid : sshId.length = 21 := by decide +kernel
  have hline : (outBytes [.idLine sshId]).length ≤ 1400 := by simp [outBytes_idLine, hid]
  unfold greetWith
  split
  · exact ⟨{ }, rfl, rfl, .inl rfl, Nat.zero_le _⟩
  cases kexinit with
  | none => exact ⟨{ }, rfl, rfl, .inl rfl, hline⟩
  | some p =>
    have hlen := hkexinit p rfl
    dsimp only
    split
    · exact ⟨{ }, rfl, rfl, .inl rfl, hline⟩
    rename_i e he
    have hwire := emit_length he
    have hle := sealedLen_le { c with is := p } p.length
    obtain ⟨seq, giv, cc, hconn⟩ := emit_conn he
    rw [hconn]
    refine ⟨{ greeted := fun _ => hfresh, keyed := fun h => ?_, auth := fun h => ?_ }, rfl, rfl,
      .inr nofun, ?_⟩
    · simp [hfresh, SshPhase.keyed] at h
    · cases hfresh.symm.trans h
    simp only [Turn.size, outBytes_idLine, outBytes_sent, length_append, hid, hwire]
    simp only [sshIsMax] at hlen
    omega

theorem greeting_greeted (env : Env) (room : Option ℕ) (c : SshConn) (rng : ℕ) :
    Greeted c (greeting env room c rng) := by
  unfold greeting
  split
  · rename_i hfresh
    unfold emitIdKexinit
    exact greetWith_greeted hfresh fun _ => serverKexinit_length
  · rename_i hfresh
    exact ⟨.refl c, rfl, rfl, .inr hfresh, Nat.zero_le _⟩

def replyRoom : ℕ := 65472

theorem credit_le : c.credit ≤ kexCost := by
  unfold credit
  split_ifs <;> simp

variable {req : List UInt8}

theorem respondOn_room
    (h : c.aborted = false → c.rx.length + req.length ≤ sshRxMax) :
    respondOn env flags (some replyRoom) c rng req = respondOn env flags none c rng req := by
  refine respondOn_roomFree env flags c rng req _ ?_
  suffices hsize : (respondOn env flags none c rng req).size ≤ replyRoom by
    simpa [allows, Turn.size] using hsize
  have hgreet := greeting_greeted env none c rng
  rw [respondOn_eq]
  generalize greeting env none c rng = g at hgreet ⊢
  have hsize := hgreet.size
  split_ifs with haborted
  · simp [Turn.idle, Turn.size]
  have hfits := h (Bool.eq_false_of_not_eq_true haborted)
  unfold afterGreeting
  split_ifs
  · exact hsize.trans (by decide)
  · exact hsize.trans (by decide)
  have hrest : (consume env flags (roomAfter none g.events)
      { g.conn with rx := g.conn.rx ++ req } g.rng).size ≤
      kexCost + 6 * (c.rx.length + req.length) := by
    refine consume_size.trans (Nat.add_le_add credit_le ?_)
    rw [length_append, hgreet.rx]
  generalize consume env flags _ _ _ = t at hrest ⊢
  have hsum : (g.andThen t).size = g.size + t.size := by
    simp [Turn.size, Turn.andThen, outBytes_append]
  simp only [sshRxMax, kexCost] at hfits hrest
  simp only [hsum, replyRoom]
  omega

def welcome (env : Env) (c : SshConn) (rng : ℕ) : Turn :=
  if c.aborted then .idle c rng else greeting env none c rng

variable {req : List UInt8}

theorem feed_aborted (h : c.aborted = true) :
    (sessionReader env flags).feed (c.cleared, rng) req = ((c.cleared, rng), []) := by
  have hcleared : c.cleared.aborted = true := by rw [cleared_aborted, h]
  have hpush : sessionPush (c.cleared, rng) req = (c.cleared, rng) := if_pos hcleared
  exact (congrArg _ hpush).trans (settle_aborted hcleared)

theorem respondOn_shown (hreq : req ≠ [])
    (hfits : c.aborted = false → Fits c req) (ht : t = respondOn env flags none c rng req)
    {w : Turn} (hw : w = welcome env c rng)
    (hr : r = (sessionReader env flags).feed (w.conn.cleared, w.rng) req) :
    t.shown = (r.1, outBytes w.events ++ r.2) := by
  have hgreet := greeting_greeted env none c rng
  rw [ht, hr, hw, respondOn_eq, welcome]
  generalize greeting env none c rng = g at hgreet ⊢
  by_cases haborted : c.aborted = true
  · rw [if_pos haborted, if_pos haborted]
    simp only [Turn.idle, feed_aborted haborted, Turn.shown, outBytes_nil, append_nil]
  have hfits := hfits (Bool.eq_false_of_not_eq_true haborted)
  rw [if_neg haborted, if_neg haborted]
  by_cases hover : g.conn.aborted = true
  · rw [afterGreeting, if_pos (.inr hover), feed_aborted hover]
    simp only [Turn.shown, append_nil]
  have hrunning : g.conn.aborted = false := Bool.eq_false_of_not_eq_true hover
  have hskip : ¬(req.length = 0 ∨ g.conn.aborted = true) := by
    simp [hrunning, hreq]
  have hroom : ¬sshRxMax < g.conn.rx.length + req.length := by
    rw [hgreet.rx]
    exact Nat.not_lt.mpr hfits.buffer
  have hfeed : (sessionReader env flags).feed (g.conn.cleared, g.rng) req =
      (consume env flags none { g.conn with rx := g.conn.rx ++ req } g.rng).shown := by
    rw [cleared_of_running hrunning]
    refine (congrArg _ (sessionPush_running hrunning)).trans ?_
    refine consume_settle (c := { g.conn with rx := g.conn.rx ++ req }) hrunning ?_
    dsimp only
    rw [hgreet.rx, hgreet.known]
    exact hfits.line
  rw [afterGreeting, if_neg hskip, if_neg hroom, hfeed]
  simp only [Turn.shown, Turn.andThen, outBytes_append, roomAfter_none]

theorem afterGreeting_same (req : List UInt8) (t : Turn) :
    SameSession t.conn (afterGreeting env flags req t room).conn := by
  refine kept_ite (.refl _) (kept_ite (abort_kept _).toSameSession ?_)
  refine SameSession.trans ?_ consume_same
  exact { }

theorem respondOn_same :
    SameSession c (respondOn env flags room c rng req).conn := by
  have hgreet := (greeting_greeted env room c rng).toSameSession
  rw [respondOn_eq]
  exact kept_ite (.refl c) (hgreet.trans (afterGreeting_same req _))

theorem respondOn_done :
    (respondOn env flags room c rng req).conn.aborted = true ∨
      (respondOn env flags room c rng req).conn.phase ≠ .fresh := by
  have hgreet := greeting_greeted env room c rng
  rw [respondOn_eq]
  split_ifs with haborted
  · exact .inl haborted
  generalize greeting env room c rng = g at hgreet ⊢
  rcases hgreet.done with hover | hphase
  · rw [afterGreeting, if_pos (.inr hover)]
    exact .inl hover
  · exact .inr fun hfresh => hphase ((afterGreeting_same req g).greeted hfresh)

theorem welcome_idle (h : c.aborted = true ∨ c.phase ≠ .fresh) : welcome env c rng = .idle c rng := by
  unfold welcome greeting
  split_ifs with haborted hfresh
  · rfl
  · exact absurd hfresh (h.resolve_left haborted)
  · rfl

def frameCalls (connId : UInt16) (frames : List (List UInt8)) : List SshCall :=
  frames.map fun req => .respond connId req replyRoom

def sentBytes (trace : List (Entry Server SshCall SshReply)) : List UInt8 :=
  trace.flatMap fun e => outBytes e.reply.events

def Server.seen (s : Server) : (SshSlot → Option SshConn) × ℕ :=
  (fun i => (s.slots i).map SshConn.cleared, s.rng)

def FitsCall (e : Entry Server SshCall SshReply) : Prop :=
  match e.input with
  | .respond connId req _ =>
    let c := (sshSlot e.pre connId (req.length == 0)).2.1
    c.aborted = false → Fits c req
  | _ => True

theorem sshSlot_connId (s : Server) (connId : UInt16) (fresh : Bool) :
    (sshSlot s connId fresh).2.1.connId = connId := by
  unfold sshSlot
  split
  · rename_i i hfind
    split
    · rfl
    have hmatch := first_some hfind
    cases hslot : s.slots i with
    | none => rfl
    | some c => simpa [hslot] using hmatch
  · rfl

theorem sshSlot_set (s : Server) (connId : UInt16) (fresh : Bool) (ht : t.conn.connId = connId) :
    sshSlot (s.set (sshSlot s connId fresh).1 t) connId false =
      ((sshSlot s connId fresh).1, t.conn, false) := by
  have hfind : sshFind (s.set (sshSlot s connId fresh).1 t) connId =
      some (sshSlot s connId fresh).1 := by
    refine first_eq_of_min (by simp [Server.set, ht]) fun j hj => ?_
    have hne : j ≠ (sshSlot s connId fresh).1 := hj.ne
    simp only [Server.set, update_of_ne hne]
    rcases hold : sshFind s connId with _ | i
    · exact first_none hold j
    have hslot : (sshSlot s connId fresh).1 = i := by
      simp only [sshSlot, hold]
      split_ifs <;> rfl
    exact first_min hold (hslot ▸ hj)
  generalize (sshSlot s connId fresh).1 = i at hfind ⊢
  simp only [sshSlot, hfind]
  simp [Server.set]

theorem seen_set {s : Server} {i : SshSlot} :
    (s.set i t).seen = (update s.seen.1 i (some t.conn.cleared), t.rng) := by
  refine Prod.ext (funext fun j => ?_) rfl
  by_cases hj : j = i
  · subst hj
    simp [Server.seen, Server.set]
  · simp [Server.seen, Server.set, hj]

section
variable {s : Server} {connId : UInt16} {req : List UInt8} {i : SshSlot} {new : Bool}

theorem fitsCall_iff (hreq : req ≠ []) (hslot : sshSlot s connId false = (i, c, new)) :
    FitsCall (entry (sshStep env) s (.respond connId req replyRoom)) ↔
      (c.aborted = false → Fits c req) := by
  have hfresh : (req.length == 0) = false := by simp [hreq]
  simp only [FitsCall, entry, hfresh, hslot]

theorem respond_frame (hreq : req ≠ []) (hslot : sshSlot s connId false = (i, c, new))
    (hfits : c.aborted = false → Fits c req) (ht : t = respondOn env s.flags none c s.rng req) :
    sshStep env s (.respond connId req replyRoom) =
        (s.set i t, ⟨some i, new, t.events, t.size, []⟩) ∧
      sshSlot (s.set i t) connId false = (i, t.conn, false) ∧
      welcome env t.conn t.rng = .idle t.conn t.rng := by
  have hfresh : (req.length == 0) = false := by simp [hreq]
  have hroom : respondOn env s.flags (some replyRoom) c s.rng req = t :=
    (respondOn_room fun h => (hfits h).buffer).trans ht.symm
  refine ⟨?_, ?_, ?_⟩
  · simp only [sshStep, sshRespond, hfresh, hslot, hroom]
    rfl
  · have hid : t.conn.connId = connId := by
      have hfound := sshSlot_connId s connId false
      rw [hslot] at hfound
      rw [ht]
      exact respondOn_same.connId.trans hfound
    have hset := sshSlot_set s connId false hid
    rwa [hslot] at hset
  · rw [ht]
    exact welcome_idle respondOn_done

theorem frames_feedAll {rest : List (List UInt8)} (hne : ∀ f ∈ req :: rest, f ≠ [])
    (hfits : ∀ e ∈ trace (sshStep env) s (frameCalls connId (req :: rest)), FitsCall e)
    (hslot : sshSlot s connId false = (i, c, new)) {g : Turn} (hg : g = welcome env c s.rng)
    (hr : r = (sessionReader env s.flags).feedAll (g.conn.cleared, g.rng) (req :: rest)) :
    (exec (sshStep env) s (frameCalls connId (req :: rest))).seen =
        (update s.seen.1 i (some r.1.1), r.1.2) ∧
      sentBytes (trace (sshStep env) s (frameCalls connId (req :: rest))) =
        outBytes g.events ++ r.2 := by
  induction rest generalizing s req c new g r with
  | nil =>
    obtain ⟨hreq, -⟩ := forall_mem_cons.mp hne
    obtain ⟨hfit, -⟩ := forall_mem_cons.mp hfits
    replace hfit := (fitsCall_iff hreq hslot).mp hfit
    obtain ⟨t, ht⟩ : ∃ t, t = respondOn env s.flags none c s.rng req := ⟨_, rfl⟩
    obtain ⟨hstep, -, -⟩ := respond_frame hreq hslot hfit ht
    obtain ⟨hconn, hout⟩ := Prod.mk.inj (respondOn_shown hreq hfit ht hg rfl)
    rw [hr]
    simp only [frameCalls, map_cons, map_nil, exec, trace,
      entry, hstep, seen_set, sentBytes, flatMap_cons, flatMap_nil,
      append_nil, Reader.feedAll, hout, ← hconn, and_self]
  | cons req' rest ih =>
    obtain ⟨hreq, hne'⟩ := forall_mem_cons.mp hne
    obtain ⟨hfit, hfits'⟩ := forall_mem_cons.mp hfits
    replace hfit := (fitsCall_iff hreq hslot).mp hfit
    obtain ⟨first, hfirst⟩ : ∃ first, first =
        (sessionReader env s.flags).feed (g.conn.cleared, g.rng) req := ⟨_, rfl⟩
    obtain ⟨t, ht⟩ : ∃ t, t = respondOn env s.flags none c s.rng req := ⟨_, rfl⟩
    obtain ⟨hstep, hslot', hidle⟩ := respond_frame hreq hslot hfit ht
    obtain ⟨hconn, hout⟩ := Prod.mk.inj (respondOn_shown hreq hfit ht hg hfirst)
    obtain ⟨more, hmore⟩ : ∃ more, more =
        (sessionReader env s.flags).feedAll (t.conn.cleared, t.rng) (req' :: rest) := ⟨_, rfl⟩
    have hr' : r = (more.1, first.2 ++ more.2) := by
      rw [hr, hmore, hconn, hfirst]
      rfl
    change ∀ e ∈ trace (sshStep env) (sshStep env s (.respond connId req replyRoom)).1
      (frameCalls connId (req' :: rest)), FitsCall e at hfits'
    rw [hstep] at hfits'
    obtain ⟨hseen, hsent⟩ := ih hne' hfits' hslot' hidle.symm hmore
    rw [seen_set, update_idem] at hseen
    constructor
    · change (exec (sshStep env) (sshStep env s (.respond connId req replyRoom)).1
        (frameCalls connId (req' :: rest))).seen = _
      rw [hstep, hseen, hr']
    · change outBytes (sshStep env s (.respond connId req replyRoom)).2.events ++
        sentBytes (trace (sshStep env) (sshStep env s (.respond connId req replyRoom)).1
          (frameCalls connId (req' :: rest))) = _
      rw [hstep, hsent, hr']
      simp only [hout, Turn.idle, outBytes_nil, nil_append, append_assoc]

end

theorem eq_nil_of_flatten (hne : ∀ f ∈ frames, f ≠ []) (h : frames.flatten = []) : frames = [] := by
  refine eq_nil_iff_forall_not_mem.mpr fun f hf => hne f hf ?_
  exact flatten_eq_nil_iff.mp h f hf

theorem Unfinished.length_le {tail : List UInt8} (h : Unfinished rx tail) :
    tail.length ≤ rx.length := by
  obtain ⟨-, lines, -, rfl⟩ := h
  rw [length_append]
  exact Nat.le_add_left _ _

theorem fits_of_short (h : c.rx.length + req.length < sshVcMax) :
    Fits c req := by
  refine ⟨?_, fun _ tail htail => ?_⟩
  · exact (h.trans (by decide)).le
  · exact htail.length_le.trans_lt (by rwa [length_append])

theorem short_fits {s : Server} {connId : UInt16} (hreq : req ≠ [])
    (h : (sshSlot s connId false).2.1.rx.length + req.length < sshVcMax) :
    FitsCall (entry (sshStep env) s (.respond connId req replyRoom)) :=
  (fitsCall_iff hreq rfl).mpr fun _ => fits_of_short h

/-- However a client's bytes are cut into frames that fit, the server sends the same bytes and ends
in the same state. -/
theorem cut_anyhow (env : Env) (s : Server) (connId : UInt16) (frames frames' : List (List UInt8))
    (hcut : frames.flatten = frames'.flatten) (hne : ∀ f ∈ frames, f ≠ [])
    (hne' : ∀ f ∈ frames', f ≠ [])
    (hfits : ∀ e ∈ trace (sshStep env) s (frameCalls connId frames), FitsCall e)
    (hfits' : ∀ e ∈ trace (sshStep env) s (frameCalls connId frames'), FitsCall e) :
    sentBytes (trace (sshStep env) s (frameCalls connId frames)) =
        sentBytes (trace (sshStep env) s (frameCalls connId frames')) ∧
      (exec (sshStep env) s (frameCalls connId frames)).seen =
        (exec (sshStep env) s (frameCalls connId frames')).seen := by
  rcases frames with _ | ⟨req, rest⟩
  · obtain rfl := eq_nil_of_flatten hne' hcut.symm
    exact ⟨rfl, rfl⟩
  cases frames' with
  | nil => exact absurd (eq_nil_of_flatten hne hcut) (cons_ne_nil _ _)
  | cons req' rest' =>
    obtain ⟨hseen, hsent⟩ := frames_feedAll hne hfits rfl rfl rfl
    obtain ⟨hseen', hsent'⟩ := frames_feedAll hne' hfits' rfl rfl rfl
    rw [hseen, hsent, hseen', hsent', Reader.feedAll_eq, Reader.feedAll_eq, hcut]
    exact ⟨rfl, rfl⟩

def greetedServer : Server := (sshStep plainEnv (Server.init 0) (.respond 1 [] replyRoom)).1

theorem cut_identification :
    [ascii "SSH-2.0-x\r\n"].flatten = [ascii "SSH-2.", ascii "0-x\r", [10]].flatten ∧
      sentBytes (trace (sshStep plainEnv) (Server.init 0)
          (frameCalls 1 [ascii "SSH-2.0-x\r\n"])) =
        sentBytes (trace (sshStep plainEnv) (Server.init 0)
          (frameCalls 1 [ascii "SSH-2.", ascii "0-x\r", [10]])) ∧
      (exec (sshStep plainEnv) (Server.init 0)
          (frameCalls 1 [ascii "SSH-2.0-x\r\n"])).seen =
        (exec (sshStep plainEnv) (Server.init 0)
          (frameCalls 1 [ascii "SSH-2.", ascii "0-x\r", [10]])).seen := by
  have hcut : [ascii "SSH-2.0-x\r\n"].flatten = [ascii "SSH-2.", ascii "0-x\r", [10]].flatten := by
    decide +kernel
  have hne : ∀ f ∈ [ascii "SSH-2.0-x\r\n"], f ≠ [] := by decide +kernel
  have hne' : ∀ f ∈ [ascii "SSH-2.", ascii "0-x\r", [10]], f ≠ [] := by decide +kernel
  refine ⟨hcut, cut_anyhow plainEnv (Server.init 0) 1 _ _ hcut hne hne' ?_ ?_⟩
  · rintro e (_ | ⟨_, _ | _⟩)
    exact short_fits (by decide +kernel) (by decide +kernel)
  · rintro e (_ | ⟨_, _ | ⟨_, _ | ⟨_, _ | _⟩⟩⟩)
    all_goals exact short_fits (by decide +kernel) (by decide +kernel)

theorem cut_preamble_aborts :
    [List.replicate 300 97 ++ [10]].flatten = [List.replicate 300 97, ([10] : List UInt8)].flatten ∧
      (∀ f ∈ [List.replicate 300 97 ++ [10], List.replicate 300 97, ([10] : List UInt8)],
        f ≠ [] ∧ f.length ≤ 1460) ∧
      ((exec (sshStep plainEnv) greetedServer
        (frameCalls 1 [List.replicate 300 97 ++ [10]])).slots 0).map (·.aborted) = some false ∧
      ((exec (sshStep plainEnv) greetedServer
        (frameCalls 1 [List.replicate 300 97, [10]])).slots 0).map (·.aborted) = some true := by
  decide +kernel

end SotOs.Synth
