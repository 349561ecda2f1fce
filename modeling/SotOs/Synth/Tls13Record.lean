import SotOs.Synth.Tls13

/-! Sealed records opened again: the header has sixteen bits for the length of the ciphertext. -/

namespace SotOs.Synth.Tls13
open List

structure IdealPrims extends Prims where
  open_seal : ∀ a k n d m, aeadOpen a k n d (aeadSeal a k n d m) = some m
  open_other : ∀ a k n n' d m, n.length = 12 → n'.length = 12 → n' ≠ n →
    aeadOpen a k n' d (aeadSeal a k n d m) = none

structure RoundTrip (P : Prims) (suite : Suite) (k : TrafficKey) (seq : UInt64) (inner : UInt8)
    (pt rec : List UInt8) : Prop where
  opens : ∀ cap, pt.length < cap → recordOpen P suite k seq rec cap = some (inner, pt)
  header : (rd16 (rec.getD 3 0) (rec.getD 4 0)).toNat = (rec.drop 5).length
  other : ∀ seq' cap, seq' ≠ seq → recordOpen P suite k seq' rec cap = none

theorem rd16_wr16 (v : UInt16) : rd16 (v >>> 8).toUInt8 v.toUInt8 = v := by
  apply UInt16.toNat_inj.mp
  have h := v.toNat_lt
  have hor := Nat.shiftLeft_add_eq_or_of_lt (Nat.mod_lt v.toNat (show 2 ^ 8 > 0 by decide))
    (v.toNat / 2 ^ 8)
  simp only [rd16, UInt16.toNat_or, UInt16.toNat_shiftLeft, UInt8.toNat_toUInt16,
    UInt16.toNat_toUInt8, UInt16.toNat_shiftRight, UInt16.reduceToNat, Nat.reduceMod,
    Nat.shiftRight_eq_div_pow]
  rw [Nat.mod_eq_of_lt (show v.toNat / 2 ^ 8 < 2 ^ 8 by omega), Nat.shiftLeft_eq,
    Nat.mod_eq_of_lt (show v.toNat / 2 ^ 8 * 2 ^ 8 < 2 ^ 16 by omega), ← Nat.shiftLeft_eq, ← hor,
    Nat.shiftLeft_eq]
  omega

theorem mkNonce_injective (iv : Fin 12 → UInt8) :
    Function.Injective (mkNonce (ofFn iv)) := by
  intro seq seq' h
  simp [mkNonce, ofFn_succ] at h
  apply UInt64.toNat_inj.mp
  have := seq.toNat_lt
  have := seq'.toNat_lt
  simp [← UInt8.toNat_inj, Nat.shiftRight_eq_div_pow] at h
  omega

theorem mkNonce_length (iv : Fin 12 → UInt8) (seq : UInt64) :
    (mkNonce (ofFn iv) seq).length = 12 := by
  simp [mkNonce]

variable {P : IdealPrims} {suite : Suite} {key : List UInt8} {iv : Fin 12 → UInt8} {seq : UInt64}
  {inner : UInt8} {pt rec : List UInt8} {room : ℕ}

theorem open_sealed (hinner : inner ≠ 0)
    (h : recordSeal P.toPrims suite ⟨key, ofFn iv⟩ seq inner pt room = some rec)
    (seq' : UInt64) (cap : ℕ) :
    recordOpen P.toPrims suite ⟨key, ofFn iv⟩ seq' rec cap =
      if pt.length + 17 < 2 ^ 16 ∧ pt.length < cap ∧ seq' = seq then some (inner, pt) else none := by
  unfold recordSeal at h
  split_ifs at h
  obtain ⟨⟩ := h
  simp only [recordHeader, wr16, cons_append, nil_append, recordOpen, rd16_wr16,
    P.seal_length, length_append, length_singleton, UInt16.toNat_ofNat', ne_eq,
    not_true_eq_false, false_or]
  by_cases hfits : pt.length + 17 < 2 ^ 16 ∧ pt.length < cap
  · rw [if_neg (by omega)]
    by_cases hseq : seq' = seq
    · rw [if_pos ⟨hfits.1, hfits.2, hseq⟩, hseq, P.open_seal]
      simp [hinner]
    · rw [if_neg fun hall => hseq hall.2.2, P.open_other _ _ _ _ _ _ (mkNonce_length iv seq)
        (mkNonce_length iv seq') ((mkNonce_injective iv).ne hseq)]
      rfl
  · rw [if_pos (by omega), if_neg fun hall => hfits ⟨hall.1, hall.2.1⟩]

/-- A sealed record opens again, and only under its number, exactly if its ciphertext has less than
`2 ^ 16` bytes. -/
theorem roundTrip_iff (P : IdealPrims) (suite : Suite) (key : List UInt8) (iv : Fin 12 → UInt8)
    (seq : UInt64) (inner : UInt8) (hinner : inner ≠ 0) (pt : List UInt8) (room : ℕ)
    (rec : List UInt8)
    (h : recordSeal P.toPrims suite ⟨key, List.ofFn iv⟩ seq inner pt room = some rec) :
    RoundTrip P.toPrims suite ⟨key, List.ofFn iv⟩ seq inner pt rec ↔ pt.length + 17 < 2 ^ 16 := by
  have hopen := open_sealed hinner h
  constructor
  · rintro ⟨hopens, -, -⟩
    have hsame := hopens (pt.length + 1) (Nat.lt_succ_self _)
    rw [hopen] at hsame
    split_ifs at hsame with hall
    exact hall.1
  · intro hlen
    refine ⟨fun cap hcap => ?_, ?_, fun seq' cap hne => ?_⟩
    · rw [hopen, if_pos ⟨hlen, hcap, rfl⟩]
    · unfold recordSeal at h
      split_ifs at h
      obtain ⟨⟩ := h
      refine (congrArg UInt16.toNat (rd16_wr16 _)).trans ?_
      rw [UInt16.toNat_ofNat', Nat.mod_eq_of_lt hlen]
      simp [recordHeader, wr16, P.seal_length]
    · rw [hopen, if_neg fun hall => hne hall.2.2]

def nonceTag (n : List UInt8) : List UInt8 := (n ++ List.replicate 16 0).take 16

theorem hash_zeros (h : Hash) (_ : List UInt8) : (replicate h.size (0 : UInt8)).length = h.size :=
  length_replicate

theorem hmac_zeros (h : Hash) (_ _ : List UInt8) : (replicate h.size (0 : UInt8)).length = h.size :=
  length_replicate

def taggedPrims : IdealPrims where
  hash h _ := List.replicate h.size 0
  hmac h _ _ := List.replicate h.size 0
  aeadSeal _ _ n _ m := m ++ nonceTag n
  aeadOpen _ _ n _ c :=
    if 16 ≤ c.length ∧ c.drop (c.length - 16) = nonceTag n then some (c.take (c.length - 16))
    else none
  keygen _ _ := none
  mulgen _ _ := []
  mul _ _ _ := none
  sign _ _ _ := none
  chain := []
  random _ := 0
  hash_length := hash_zeros
  hmac_length := hmac_zeros
  seal_length _ _ _ _ _ := by simp [nonceTag]
  open_length _ _ _ _ c m h := by
    obtain ⟨hc, h⟩ := Option.ite_none_right_eq_some.mp h
    rw [← Option.some.inj h, List.length_take, Nat.min_eq_left (Nat.sub_le _ _)]
    exact Nat.sub_add_cancel hc.1
  open_seal _ _ _ _ _ := by simp [nonceTag]
  open_other _ _ n n' _ m hn hn' hne := by
    have hback : ∀ {n}, n.length = 12 → (nonceTag n).take 12 = n := fun hn =>
      (List.take_take ..).trans (List.take_left' hn)
    rw [if_neg]
    rintro ⟨-, htag⟩
    rw [List.length_append, show (nonceTag n).length = 16 by simp [nonceTag], Nat.add_sub_cancel,
      List.drop_left] at htag
    exact hne (by rw [← hback hn', ← htag, hback hn])

def zeroKey : TrafficKey := ⟨[], List.ofFn fun _ : Fin 12 => 0⟩

theorem roundTrip_one :
    ∃ rec, recordSeal taggedPrims.toPrims aes128GcmSha256 zeroKey 5 23 [0, 0] 100 = some rec ∧
      RoundTrip taggedPrims.toPrims aes128GcmSha256 zeroKey 5 23 [0, 0] rec :=
  ⟨_, rfl, (roundTrip_iff taggedPrims _ _ _ _ _ (by decide) _ 100 _ rfl).mpr (by decide)⟩

theorem long_record_lost : ∃ rec, recordSeal taggedPrims.toPrims aes128GcmSha256 zeroKey 5 23
      (List.replicate 65519 0) 65541 = some rec ∧
    ¬ RoundTrip taggedPrims.toPrims aes128GcmSha256 zeroKey 5 23 (List.replicate 65519 0) rec := by
  have hlen : (replicate 65519 (0 : UInt8)).length = 65519 := length_replicate
  generalize replicate 65519 (0 : UInt8) = pt at hlen
  obtain ⟨rec, hseal⟩ : ∃ rec, recordSeal taggedPrims.toPrims aes128GcmSha256 zeroKey 5 23 pt 65541
      = some rec := ⟨_, if_neg (by omega)⟩
  refine ⟨rec, hseal, fun hround => ?_⟩
  have hsame := (open_sealed (by decide) hseal 5 65520).symm.trans (hround.opens _ (by omega))
  rw [if_neg (by omega)] at hsame
  cases hsame

end SotOs.Synth.Tls13
