import Mathlib

/-! The SSH wire format: encoders that append to a bounded buffer, readers that never look past the
payload, and the clear-text packet framer. -/

namespace SotOs.Synth
open Option

def ascii (s : String) : List UInt8 := s.toByteArray.data.toList

def u32Bytes (v : UInt32) : List UInt8 :=
  [(v >>> 24).toUInt8, (v >>> 16).toUInt8, (v >>> 8).toUInt8, v.toUInt8]

@[simp] theorem u32Bytes_length {v : UInt32} : (u32Bytes v).length = 4 := rfl

def be32 : List UInt8 → UInt32
  | a :: b :: c :: d :: _ =>
    (a.toUInt32 <<< 24) ||| (b.toUInt32 <<< 16) ||| (c.toUInt32 <<< 8) ||| d.toUInt32
  | _ => 0

theorem be32_append {b : List UInt8} (h : 4 ≤ b.length) {more : List UInt8} :
    be32 (b ++ more) = be32 b := by
  match b, h with
  | _ :: _ :: _ :: _ :: _, _ => rfl

def sshPutBytes (cap : ℕ) (b : Option (List UInt8)) (p : List UInt8) : Option (List UInt8) :=
  b.bind fun b => if b.length + p.length ≤ cap then some (b ++ p) else none

def sshPutByte (cap : ℕ) (b : Option (List UInt8)) (v : UInt8) : Option (List UInt8) :=
  sshPutBytes cap b [v]

def sshPutU32 (cap : ℕ) (b : Option (List UInt8)) (v : UInt32) : Option (List UInt8) :=
  sshPutBytes cap b (u32Bytes v)

def sshPutString (cap : ℕ) (b : Option (List UInt8)) (p : List UInt8) : Option (List UInt8) :=
  sshPutBytes cap (sshPutU32 cap b (UInt32.ofNat p.length)) p

def sshPutCstr (cap : ℕ) (b : Option (List UInt8)) (s : String) : Option (List UInt8) :=
  sshPutString cap b (ascii s)

def sshPutMpint (cap : ℕ) (b : Option (List UInt8)) (be : List UInt8) : Option (List UInt8) :=
  -- Leading zeros are stripped, and a first byte with its top bit set gets a zero before it.
  match be.dropWhile (· == 0) with
  | [] => sshPutU32 cap b 0
  | x :: rest =>
    if x &&& 0x80 ≠ 0 then
      sshPutBytes cap (sshPutByte cap (sshPutU32 cap b (UInt32.ofNat (rest.length + 2))) 0)
        (x :: rest)
    else sshPutBytes cap (sshPutU32 cap b (UInt32.ofNat (rest.length + 1))) (x :: rest)

variable {cap off off' : ℕ} {b : Option (List UInt8)} {p r pl : List UInt8}

theorem putBytes_some (h : sshPutBytes cap b p = some r) :
    ∃ b', b = some b' ∧ r = b' ++ p ∧ r.length ≤ cap := by
  obtain ⟨b', hb, hr⟩ := bind_eq_some_iff.mp h
  split_ifs at hr with hfits
  obtain ⟨⟩ := hr
  exact ⟨b', hb, rfl, by simpa using hfits⟩

theorem length_of_putBytes (h : sshPutBytes cap b p = some r) : r.length ≤ cap := by
  obtain ⟨_, _, _, hfits⟩ := putBytes_some h
  exact hfits

def sshRdU32 (pl : List UInt8) (off : ℕ) : Option (UInt32 × ℕ) :=
  if pl.length < off ∨ pl.length - off < 4 then none else some (be32 (pl.drop off), off + 4)

def sshRdByte (pl : List UInt8) (off : ℕ) : Option (UInt8 × ℕ) := pl[off]?.map fun v => (v, off + 1)

def sshRdStr (pl : List UInt8) (off : ℕ) : Option (List UInt8 × ℕ) :=
  (sshRdU32 pl off).bind fun r =>
    if pl.length - r.2 < r.1.toNat then none
    else some ((pl.drop r.2).take r.1.toNat, r.2 + r.1.toNat)

theorem rdU32_off {v : UInt32} (h : sshRdU32 pl off = some (v, off')) : off' = off + 4 := by
  unfold sshRdU32 at h
  split_ifs at h
  exact (Prod.mk.inj (some.inj h)).2.symm

theorem rdStr_bounds {body : List UInt8} (h : sshRdStr pl off = some (body, off')) :
    off + 4 + body.length = off' ∧ off' ≤ pl.length := by
  obtain ⟨⟨n, o⟩, hn, hbody⟩ := bind_eq_some_iff.mp h
  unfold sshRdU32 at hn
  split_ifs at hn with hroom
  simp only [some.injEq, Prod.mk.injEq] at hn
  obtain ⟨rfl, rfl⟩ := hn
  split_ifs at hbody with hlong
  simp only [some.injEq, Prod.mk.injEq] at hbody
  obtain ⟨rfl, rfl⟩ := hbody
  dsimp only at hlong ⊢
  rw [List.length_take, List.length_drop]
  omega

def nameList (s : List UInt8) : List (List UInt8) := s.splitOn 44

def listHas (s : List UInt8) (tok : String) : Bool := (nameList s).contains (ascii tok)

def allows (room : Option ℕ) (n : ℕ) : Bool := room.all fun r => decide (n ≤ r)

@[simp] theorem allows_none (n : ℕ) : allows none n = true := rfl

def padTo (block n : ℕ) : ℕ :=
  let pad := (block - n % block) % block
  if pad < 4 then pad + block else pad

/-- `padlen` of `ssh_pkt_frame`, which counts a full block where nothing is missing. -/
def framePad (plen : ℕ) : ℕ :=
  let pad := 8 - (plen + 5) % 8
  if pad < 4 then pad + 8 else pad

def packetBody (payload padding : List UInt8) : List UInt8 :=
  UInt8.ofNat padding.length :: (payload ++ padding)

@[simp] theorem packetBody_length {payload padding : List UInt8} :
    (packetBody payload padding).length = 1 + payload.length + padding.length := by
  simp [packetBody]
  omega

def sshPktFrame (room : Option ℕ) (payload : List UInt8) : Option (List UInt8) :=
  let body := packetBody payload (List.replicate (framePad payload.length) 0)
  if allows room (4 + body.length) then some (u32Bytes (UInt32.ofNat body.length) ++ body) else none

end SotOs.Synth
