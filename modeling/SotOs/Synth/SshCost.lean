import SotOs.Synth.SshKept

/-! How much the server answers: a packet pays for its reply, a key exchange is paid for once. -/

namespace SotOs.Synth
open List Turn
variable {env : Env} {flags : ShellFlags} {room : Option ℕ} {c : SshConn} {rng : ℕ}

theorem handle_spent (env : Env) (flags : ShellFlags) (room : Option ℕ) (c : SshConn) (rng : ℕ)
    (pl : List UInt8) : (handle env flags room c rng pl).spent ≤
      c.credit + if c.recvEnc then pl.length + 120 else 0 := by
  unfold handle onKexinit
  dsimp only
  split
  · split
    · exact abort_spent
    split
    · exact abort_spent
    have hcredit := (negotiate_untouched { c with ic := pl }).1.credit_le
    exact (idle_spent _ _ _).trans (Nat.add_le_add_right hcredit _)
  split
  · exact (onKexEcdhInit_outcome env room c rng pl).2.trans (Nat.le_add_right _ _)
  split
  · exact idle_spent { c with recvEnc := true, seqIn := if c.strictKex then 0 else c.seqIn } rng _
  split
  · exact (handleSealed_sealed env flags room c rng pl).spent
  · exact idle_spent _ _ _

theorem takePackets_size {fuel : ℕ} :
    (takePackets env flags fuel room c rng).size ≤ c.credit + 6 * c.rx.length := by
  induction fuel generalizing c rng room with
  | zero => simp [takePackets, idle, size]
  | succ fuel ih =>
    unfold takePackets
    split
    · simp [idle, size]
    · simp [idle, size]
    rename_i d payload hopen
    have htaken := nextPacket_taken hopen
    have hclear := htaken.clear
    have hcredit : d.credit = c.credit := by rw [SshConn.credit, htaken.phase]; rfl
    have hspent := handle_spent env flags room d rng payload
    have hpays : (if d.recvEnc then payload.length + 120 else 0) + 6 * d.rx.length ≤
        6 * c.rx.length := by
      split_ifs with henc
      · have := htaken.tagged (htaken.recvEnc ▸ henc)
        omega
      · omega
    have hrx : (handle env flags room d rng payload).conn.rx = d.rx := handle_conn_rx
    dsimp only
    generalize handle env flags room d rng payload = t at hspent hrx ⊢
    have hgot : (outBytes (.got c payload :: t.events)).length = t.size := rfl
    split_ifs with haborted
    · simp only [spent, haborted, if_true] at hspent
      change t.size ≤ _
      omega
    · have hrest : (takePackets env flags fuel (roomAfter room (.got c payload :: t.events))
          t.conn t.rng).size ≤ t.conn.credit + 6 * t.conn.rx.length := ih
      simp only [spent, haborted, Bool.false_eq_true, if_false] at hspent
      rw [hrx] at hrest
      generalize takePackets env flags fuel _ t.conn t.rng = u at hrest ⊢
      have hsum : (andThen { t with events := .got c payload :: t.events } u).size =
          t.size + u.size := by
        simp only [size, andThen, outBytes_append, length_append, hgot]
      rw [hsum]
      omega

theorem consume_size : (consume env flags room c rng).size ≤ c.credit + 6 * c.rx.length := by
  unfold consume
  split
  · exact takePackets_size
  split
  · split <;> simp [idle, abort, size]
  · simp [abort, size]
  rename_i id rest hscan
  have hrest := scanId_rest_le c.rx.length c.rx
  rw [hscan] at hrest
  refine takePackets_size.trans ?_
  exact Nat.add_le_add_left (Nat.mul_le_mul_left 6 hrest) _

end SotOs.Synth
