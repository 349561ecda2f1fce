import SotOs.Synth.Ssh

/-! The counter blocks of AES-CTR in a session: a 32-bit counter wraps where the 128-bit one of RFC
4344 carries. -/

namespace SotOs.Synth
open List

structure BearCrypto extends Crypto where
  counter : ∀ key iv cc data,
    (aesCtr key iv cc data).2 = cc + UInt32.ofNat ((data.length + 15) / 16)

abbrev CtrBlock := List UInt8 × UInt32

variable (iv : List UInt8)

def runBlocks (cc : UInt32) (n : ℕ) : List CtrBlock :=
  (List.range n).map fun j => (iv, cc + UInt32.ofNat j)

def sentBlocks (env : Env) : SshConn → ℕ → List (Option ℕ × List UInt8) → List CtrBlock
  | _, _, [] => []
  | c, rng, (room, payload) :: rest =>
    match sshEmit env room c rng payload with
    | none => sentBlocks env c rng rest
    | some e =>
      runBlocks c.ivOut c.ccOut ((e.wire.length - 32 + 15) / 16) ++ sentBlocks env e.conn e.rng rest

def openedBlocks (crypto : Crypto) : SshConn → List (List UInt8) → List CtrBlock
  | _, [] => []
  | c, req :: rest =>
    let c := { c with rx := c.rx ++ req }
    match sshNextPacket crypto c with
    | .more => openedBlocks crypto c rest
    | .bad _ => []
    | .packet d _ => runBlocks c.ivIn c.ccIn ((c.rx.length - d.rx.length - 32 + 15) / 16) ++
        openedBlocks crypto d rest

def CtrBlock.toNat (b : CtrBlock) : ℕ :=
  Nat.ofDigits 256 (b.1.reverse.map UInt8.toNat) * 2 ^ 32 + b.2.toNat

def ivBlock : CtrBlock := (iv.take 12, be32 (iv.drop 12))

def Counts (blocks : List CtrBlock) : Prop := blocks.map CtrBlock.toNat =
  (List.range blocks.length).map fun i => ((ivBlock iv).toNat + i) % 2 ^ 128

def ctrKeyed (env : Env) (c : SshConn) : SshConn :=
  { sshKdf env { c with cipherGcm := false, cipherChacha := false } with
    sendEnc := true, recvEnc := true }

theorem runBlocks_append (cc : UInt32) (m n : ℕ) :
    runBlocks iv cc m ++ runBlocks iv (cc + UInt32.ofNat m) n = runBlocks iv cc (m + n) := by
  simp only [runBlocks, range_add, map_append, map_map, UInt32.ofNat_add,
    UInt32.add_assoc, Function.comp_def]

structure CtrMode (c : SshConn) : Prop where
  sendEnc : c.sendEnc = true
  recvEnc : c.recvEnc = true
  gcm : c.cipherGcm = false
  chacha : c.cipherChacha = false

variable {bear : BearCrypto} {rand : ℕ → UInt8} {c : SshConn}

/-- What a packet of either direction leaves behind: the mode, the IV and the next counter. -/
def Moved (c d : SshConn) (iv : SshConn → List UInt8) (cc : SshConn → UInt32) (n : ℕ) : Prop :=
  CtrMode d ∧ iv d = iv c ∧ cc d = cc c + UInt32.ofNat ((n + 15) / 16)

theorem emit_moved (h : CtrMode c) {room : Option ℕ} {rng : ℕ} {payload : List UInt8} {e : Emitted}
    (he : sshEmit ⟨bear.toCrypto, rand⟩ room c rng payload = some e) :
    Moved c e.conn SshConn.ivOut SshConn.ccOut (e.wire.length - 32) := by
  simp only [sshEmit, h.sendEnc, h.gcm, h.chacha, Bool.true_eq_false, if_false,
    Bool.false_eq_true] at he
  split_ifs at he
  obtain ⟨⟩ := he
  refine ⟨⟨rfl, h.2, rfl, rfl⟩, rfl, (bear.counter _ _ _ _).trans ?_⟩
  simp only [length_append, bear.aesCtr_length, bear.hmac_length, Nat.add_sub_cancel]

theorem packet_moved (h : CtrMode c) {d : SshConn} {payload : List UInt8}
    (ho : sshNextPacket bear.toCrypto c = .packet d payload) :
    Moved c d SshConn.ivIn SshConn.ccIn (c.rx.length - d.rx.length - 32) := by
  simp only [sshNextPacket, h.recvEnc, h.gcm, h.chacha, Bool.true_eq_false, if_false,
    Bool.false_eq_true, ctrOpen, openWith, ctrFinish, Opened.of] at ho
  split_ifs at ho with _ _ hlen
  split at ho
  · cases ho
  · obtain ⟨rfl, -⟩ := Opened.packet.inj ho
    refine ⟨⟨h.1, rfl, rfl, rfl⟩, rfl, (bear.counter _ _ _ _).trans ?_⟩
    simp only [SshConn.shifted, length_take, length_drop]
    congr 3
    omega

theorem Moved.blocks {d : SshConn} {iv : SshConn → List UInt8} {cc : SshConn → UInt32} {n : ℕ}
    {rest : List CtrBlock} (h : Moved c d iv cc n)
    (hrest : ∃ k, rest = runBlocks (iv d) (cc d) k) :
    ∃ k, runBlocks (iv c) (cc c) ((n + 15) / 16) ++ rest = runBlocks (iv c) (cc c) k := by
  obtain ⟨k, rfl⟩ := hrest
  rw [h.2.1, h.2.2, runBlocks_append]
  exact ⟨_, rfl⟩

theorem sentBlocks_run (h : CtrMode c) (rng : ℕ) (out : List (Option ℕ × List UInt8)) :
    ∃ n, sentBlocks ⟨bear.toCrypto, rand⟩ c rng out = runBlocks c.ivOut c.ccOut n := by
  induction out generalizing c rng with
  | nil => exact ⟨0, rfl⟩
  | cons p out ih =>
    rw [sentBlocks]
    split
    · exact ih h rng
    · rename_i e he
      have hmoved := emit_moved h he
      exact hmoved.blocks (ih hmoved.1 e.rng)

theorem openedBlocks_run (h : CtrMode c) (reqs : List (List UInt8)) :
    ∃ n, openedBlocks bear.toCrypto c reqs = runBlocks c.ivIn c.ccIn n := by
  induction reqs generalizing c with
  | nil => exact ⟨0, rfl⟩
  | cons req reqs ih =>
    have hrx : CtrMode { c with rx := c.rx ++ req } := ⟨h.1, h.2, h.3, h.4⟩
    rw [openedBlocks]
    dsimp only
    split
    · exact ih hrx
    · exact ⟨0, rfl⟩
    · rename_i ho
      have hmoved := packet_moved hrx ho
      exact hmoved.blocks (ih hmoved.1)

theorem counts_run (n : ℕ) :
    Counts iv (runBlocks (ivBlock iv).1 (ivBlock iv).2 n) ↔
      (ivBlock iv).2.toNat + n ≤ 2 ^ 32 := by
  have hhead : Nat.ofDigits 256 ((ivBlock iv).1.reverse.map UInt8.toNat) < 256 ^ 12 := by
    refine (Nat.ofDigits_lt_base_pow_length (by decide) fun x hx => ?_).trans_le
      (Nat.pow_le_pow_right (j := 12) (by decide) (by simp [ivBlock]))
    obtain ⟨byte, -, rfl⟩ := mem_map.mp hx
    exact byte.toNat_lt
  have hlow := (ivBlock iv).2.toNat_lt
  simp only [Counts, CtrBlock.toNat, runBlocks, map_map, length_map, length_range,
    Function.comp_def, map_inj_left, mem_range, UInt32.toNat_add]
  generalize Nat.ofDigits 256 _ = head at hhead ⊢
  constructor
  · intro h
    by_contra hwrap
    have hfirst := h (2 ^ 32 - (ivBlock iv).2.toNat) (by omega)
    simp at hfirst
    omega
  · intro h i hi
    simp
    omega

/-- The blocks of both directions are those of RFC 4344 while the low word of the IV does not wrap,
and no longer. -/
theorem counter_blocks_iff (bear : BearCrypto) (rand : ℕ → UInt8) (c : SshConn) (rng : ℕ)
    (out : List (Option ℕ × List UInt8)) (reqs : List (List UInt8)) :
    let env : Env := ⟨bear.toCrypto, rand⟩
    let sent := sentBlocks env (ctrKeyed env c) rng out
    let got := openedBlocks bear.toCrypto (ctrKeyed env c) reqs
    (Counts (sshKdfOne env c 'B' 16) sent ↔
        (ivBlock (sshKdfOne env c 'B' 16)).2.toNat + sent.length ≤ 2 ^ 32) ∧
      (Counts (sshKdfOne env c 'A' 16) got ↔
        (ivBlock (sshKdfOne env c 'A' 16)).2.toNat + got.length ≤ 2 ^ 32) := by
  intro env sent got
  have hmode : CtrMode (ctrKeyed env c) := ⟨rfl, rfl, rfl, rfl⟩
  obtain ⟨m, hsent⟩ : ∃ m, sent = runBlocks _ _ m := sentBlocks_run hmode rng out
  obtain ⟨n, hgot⟩ : ∃ n, got = runBlocks _ _ n := openedBlocks_run hmode reqs
  have hlen : ∀ iv cc k, (runBlocks iv cc k).length = k := by simp [runBlocks]
  rw [hsent, hgot, hlen, hlen]
  exact ⟨counts_run _ m, counts_run _ n⟩

def onesCrypto : BearCrypto :=
  { plainEnv.crypto with
    aesCtr := fun _ _ cc data => (data, cc + UInt32.ofNat ((data.length + 15) / 16))
    aesCtr_length := fun _ _ _ _ => rfl
    sha256 := fun _ => List.replicate 32 255
    counter := fun _ _ _ _ => rfl }

theorem second_block_wraps :
    let env : Env := ⟨onesCrypto.toCrypto, fun _ => 0⟩
    ¬ Counts (sshKdfOne env (.init 1) 'B' 16)
      (sentBlocks env (ctrKeyed env (.init 1)) 0 [(none, List.replicate 12 0)]) := by
  unfold Counts
  decide +kernel

end SotOs.Synth
