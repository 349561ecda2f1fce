import SotOs.Sto.Invariant

/-! The life of a wrapped capability, told from the requests and replies alone, and the proof that
`INVOKE` agrees with it through every reuse of pool and transaction slots. -/

namespace SotOs.Sto

open Function Slots List

def BegunBy (h : List Exchange) (badge t : UInt64) : Prop :=
  t ≠ 0 ∧ ∃ e ∈ h, e.input = ⟨badge, .begin⟩ ∧ e.reply = .txId t

def CommitReplied (h : List Exchange) (t : UInt64) (s : Status) : Prop :=
  ∃ e ∈ h, e.input.req = .commit t ∧ e.reply = .status s

def RolledBack (h : List Exchange) (t : UInt64) : Prop :=
  ∃ h₁ e h₂, h = h₁ ++ e :: h₂ ∧ e.input.req = .rollback t ∧ BegunBy h₁ e.input.badge t

def Ended (h : List Exchange) (t : UInt64) : Prop :=
  CommitReplied h t .ok ∨ CommitReplied h t .conflict ∨ RolledBack h t

def Wrapped (h : List Exchange) (t w : UInt64) (mode : CapMode) : Prop :=
  ∃ e ∈ h, ∃ o mw, e.input.req = .wrap t o mw ∧ capModeOfWord mw = some mode ∧ e.reply = .wrapped w

variable {h : List Exchange} {e : Exchange} {t w b : UInt64} {mode : CapMode}

theorem begunBy_append : BegunBy (h ++ [e]) b t ↔
    BegunBy h b t ∨ t ≠ 0 ∧ e.input = ⟨b, .begin⟩ ∧ e.reply = .txId t := by
  simp only [BegunBy, mem_append, mem_singleton, or_and_right, exists_or,
    exists_eq_left, and_or_left]

theorem commitReplied_append {s : Status} : CommitReplied (h ++ [e]) t s ↔
    CommitReplied h t s ∨ e.input.req = .commit t ∧ e.reply = .status s := by
  simp only [CommitReplied, mem_append, mem_singleton, or_and_right, exists_or,
    exists_eq_left]

theorem wrapped_append : Wrapped (h ++ [e]) t w mode ↔ Wrapped h t w mode ∨
    ∃ o mw, e.input.req = .wrap t o mw ∧ capModeOfWord mw = some mode ∧ e.reply = .wrapped w := by
  simp only [Wrapped, mem_append, mem_singleton, or_and_right, exists_or, exists_eq_left]

theorem rolledBack_append : RolledBack (h ++ [e]) t ↔
    RolledBack h t ∨ e.input.req = .rollback t ∧ BegunBy h e.input.badge t := by
  constructor
  · rintro ⟨h₁, e', h₂, heq, hreq, hbegun⟩
    rcases eq_nil_or_concat h₂ with rfl | ⟨h₃, x, rfl⟩
    · obtain ⟨rfl, hlast⟩ := append_inj' heq rfl
      obtain rfl := singleton_inj.mp hlast
      exact .inr ⟨hreq, hbegun⟩
    · rw [concat_eq_append, ← cons_append, ← append_assoc] at heq
      obtain ⟨rfl, -⟩ := append_inj' heq rfl
      exact .inl ⟨h₁, e', h₃, rfl, hreq, hbegun⟩
  · rintro (⟨h₁, e', h₂, rfl, hreq, hbegun⟩ | ⟨hreq, hbegun⟩)
    · exact ⟨h₁, e', h₂ ++ [e], by simp, hreq, hbegun⟩
    · exact ⟨h, e, [], rfl, hreq, hbegun⟩

def EndsNow (h : List Exchange) (e : Exchange) (t : UInt64) : Prop :=
  e.input.req = .commit t ∧ (e.reply = .status .ok ∨ e.reply = .status .conflict) ∨
    e.input.req = .rollback t ∧ BegunBy h e.input.badge t

theorem ended_append : Ended (h ++ [e]) t ↔ Ended h t ∨ EndsNow h e t := by
  simp only [Ended, EndsNow, commitReplied_append, rolledBack_append]
  tauto

structure Lifecycle (h : List Exchange) (r : Registry) : Prop extends Counted h r where
  begun_lt : ∀ b t, BegunBy h b t → t.toNat < r.nextTxId.toNat
  ended_lt : ∀ t, Ended h t → t.toNat < r.nextTxId.toNat
  open_slot : ∀ b t, BegunBy h b t → ¬Ended h t → ∃ i, (r.active i).phase = .active ∧
    (r.active i).txId = t ∧ (r.active i).ownerBadge = b
  slot_open : ∀ i, (r.active i).phase = .active →
    BegunBy h (r.active i).ownerBadge (r.active i).txId ∧ ¬Ended h (r.active i).txId
  slot_committed : ∀ i, (r.active i).phase = .committed → CommitReplied h (r.active i).txId .ok
  slot_phase : ∀ i, (r.active i).phase ≠ .aborted
  not_both : ∀ t, CommitReplied h t .conflict → ¬CommitReplied h t .ok
  cap_wrapped : ∀ j, (r.wrappedPool j).id ≠ 0 →
    Wrapped h (r.wrappedPool j).txId (r.wrappedPool j).id (r.wrappedPool j).mode
  wrapped_ne_zero : ∀ t w mode, Wrapped h t w mode → w ≠ 0
  wrapped_lt : ∀ t w mode, Wrapped h t w mode → w.toNat < r.nextWrappedId.toNat
  wrapped_inj : ∀ t t' w mode mode', Wrapped h t w mode → Wrapped h t' w mode' →
    t = t' ∧ mode = mode'
  wrapped_live : ∀ t w mode, Wrapped h t w mode →
    ¬Ended h t ∨ mode = .commitOnly ∧ CommitReplied h t .ok → ∃ j, (r.wrappedPool j).id = w ∧
      (r.wrappedPool j).txId = t ∧ (r.wrappedPool j).mode = mode

theorem lifecycle_init : Lifecycle [] registryInit where
  toCounted := ⟨inv_registryInit, rfl, rfl⟩
  begun_lt _ _ := by simp [BegunBy]
  ended_lt _ := by simp [Ended, CommitReplied, RolledBack]
  open_slot _ _ := by simp [BegunBy]
  slot_open i := by simp [registryInit, Transaction.zero]
  slot_committed i := by simp [registryInit, Transaction.zero]
  slot_phase i := by simp [registryInit, Transaction.zero]
  not_both _ := by simp [CommitReplied]
  cap_wrapped j := by simp [registryInit, WrappedCap.zero]
  wrapped_ne_zero _ _ _ := by simp [Wrapped]
  wrapped_lt _ _ _ := by simp [Wrapped]
  wrapped_inj _ _ _ _ _ := by simp [Wrapped]
  wrapped_live _ _ _ := by simp [Wrapped]

variable {r r' : Registry} {i : Fin maxTx} {j : Fin maxWrappedCaps}

theorem Lifecycle.quiet (hl : Lifecycle h r) (hc : Counted (h ++ [e]) r')
    (hphase : ∀ i, (r'.active i).phase = (r.active i).phase)
    (hid : ∀ i, (r'.active i).txId = (r.active i).txId)
    (howner : ∀ i, (r'.active i).ownerBadge = (r.active i).ownerBadge)
    (hpool : r'.wrappedPool = r.wrappedPool) (hnext : r'.nextTxId = r.nextTxId)
    (hwid : r'.nextWrappedId = r.nextWrappedId)
    (hbegun : ∀ b t, BegunBy (h ++ [e]) b t ↔ BegunBy h b t)
    (hended : ∀ t, Ended (h ++ [e]) t ↔ Ended h t)
    (hcommit : ∀ t, CommitReplied (h ++ [e]) t .ok ↔ CommitReplied h t .ok)
    (hconflict : ∀ t, CommitReplied (h ++ [e]) t .conflict ↔ CommitReplied h t .conflict)
    (hwrap : ∀ t w mode, Wrapped (h ++ [e]) t w mode ↔ Wrapped h t w mode) :
    Lifecycle (h ++ [e]) r' where
  toCounted := hc
  begun_lt b t := by simpa only [hbegun, hnext] using hl.begun_lt b t
  ended_lt t := by simpa only [hended, hnext] using hl.ended_lt t
  open_slot b t := by simpa only [hbegun, hended, hphase, hid, howner] using hl.open_slot b t
  slot_open i := by simpa only [hbegun, hended, hphase, hid, howner] using hl.slot_open i
  slot_committed i := by simpa only [hcommit, hphase, hid] using hl.slot_committed i
  slot_phase i := by simpa only [hphase] using hl.slot_phase i
  not_both t := by simpa only [hcommit, hconflict] using hl.not_both t
  cap_wrapped j := by simpa only [hwrap, hpool] using hl.cap_wrapped j
  wrapped_ne_zero t w mode := by simpa only [hwrap] using hl.wrapped_ne_zero t w mode
  wrapped_lt t w mode := by simpa only [hwrap, hwid] using hl.wrapped_lt t w mode
  wrapped_inj t t' w mode mode' := by
    simpa only [hwrap] using hl.wrapped_inj t t' w mode mode'
  wrapped_live t w mode := by
    simpa only [hwrap, hended, hcommit, hpool] using hl.wrapped_live t w mode

theorem Lifecycle.begun (hl : Lifecycle h r) (hfree : (r.active i).phase = .free)
    (hinput : e.input = ⟨b, .begin⟩) (hreply : e.reply = .txId r.nextTxId)
    (hc : Counted (h ++ [e]) (begunAt r i b)) : Lifecycle (h ++ [e]) (begunAt r i b) := by
  have hself : (begunAt r i b).active i =
      { Transaction.zero with txId := r.nextTxId, ownerBadge := b, phase := .active } :=
    update_self ..
  have hother : ∀ k, k ≠ i → (begunAt r i b).active k = r.active k :=
    fun k hk => update_of_ne hk ..
  have hlt : r.nextTxId.toNat < (begunAt r i b).nextTxId.toNat := by
    have hnew := hc.inv.txId_lt i
    rwa [hself] at hnew
  have hne : r.nextTxId ≠ 0 := by
    have hnz := hc.inv.txId_ne_zero i (by rw [hself]; simp)
    rwa [hself] at hnz
  have hbegun : ∀ b' t, BegunBy (h ++ [e]) b' t ↔ BegunBy h b' t ∨ b' = b ∧ t = r.nextTxId := by
    intro b' t
    rw [begunBy_append, hinput, hreply]
    constructor
    · rintro (hold | ⟨-, hb, ht⟩)
      · exact .inl hold
      · exact .inr ⟨(Msg.mk.inj hb).1.symm, (Reply.txId.inj ht).symm⟩
    · rintro (hold | ⟨rfl, rfl⟩)
      · exact .inl hold
      · exact .inr ⟨hne, rfl, rfl⟩
  have hended : ∀ t, Ended (h ++ [e]) t ↔ Ended h t := by
    intro t
    rw [ended_append, EndsNow, hinput]
    simp
  have hcommit : ∀ t s, CommitReplied (h ++ [e]) t s ↔ CommitReplied h t s := by
    intro t s
    rw [commitReplied_append, hinput]
    simp
  have hwrap : ∀ t w mode, Wrapped (h ++ [e]) t w mode ↔ Wrapped h t w mode := by
    intro t w mode
    rw [wrapped_append, hinput]
    simp
  have hfresh : ¬Ended h r.nextTxId := fun hend => lt_irrefl _ (hl.ended_lt _ hend)
  constructor
  case toCounted => exact hc
  case begun_lt =>
    intro b' t ht
    rcases (hbegun b' t).mp ht with hold | ⟨-, rfl⟩
    · exact (hl.begun_lt b' t hold).trans hlt
    · exact hlt
  case ended_lt => exact fun t ht => (hl.ended_lt t ((hended t).mp ht)).trans hlt
  case open_slot =>
    intro b' t ht hend
    rw [hended] at hend
    rcases (hbegun b' t).mp ht with hold | ⟨rfl, rfl⟩
    · obtain ⟨k, hk, hrest⟩ := hl.open_slot b' t hold hend
      have hki : k ≠ i := by
        rintro rfl
        simp [hfree] at hk
      exact ⟨k, by rw [hother k hki]; exact ⟨hk, hrest⟩⟩
    · exact ⟨i, by rw [hself]; exact ⟨rfl, rfl, rfl⟩⟩
  case slot_open =>
    intro k hk
    rw [hbegun, hended]
    by_cases hki : k = i
    · rw [hki, hself]
      exact ⟨.inr ⟨rfl, rfl⟩, hfresh⟩
    · rw [hother k hki] at hk ⊢
      exact ⟨.inl (hl.slot_open k hk).1, (hl.slot_open k hk).2⟩
  case slot_committed =>
    intro k hk
    rw [hcommit]
    by_cases hki : k = i
    · rw [hki, hself] at hk
      cases hk
    · rw [hother k hki] at hk ⊢
      exact hl.slot_committed k hk
  case slot_phase =>
    intro k
    by_cases hki : k = i
    · rw [hki, hself]
      simp
    · rw [hother k hki]
      exact hl.slot_phase k
  case not_both => simpa only [hcommit] using hl.not_both
  case cap_wrapped => exact fun j hj => (hwrap _ _ _).mpr (hl.cap_wrapped j hj)
  case wrapped_ne_zero => simpa only [hwrap] using hl.wrapped_ne_zero
  case wrapped_lt => exact fun t w mode hw => hl.wrapped_lt t w mode ((hwrap _ _ _).mp hw)
  case wrapped_inj => simpa only [hwrap] using hl.wrapped_inj
  case wrapped_live =>
    intro t w mode hw hcond
    rw [hended, hcommit] at hcond
    exact hl.wrapped_live t w mode ((hwrap _ _ _).mp hw) hcond

theorem Lifecycle.caps_left (hl : Lifecycle h r) {c : Prop} (hact : (r.active i).phase = .active)
    (hkeep : ∀ j, ((r.wrappedPool j).id ∈ (r.active i).wrappedCaps →
      c ∧ (r.wrappedPool j).mode = .commitOnly) → r'.wrappedPool j = r.wrappedPool j)
    (hw : Wrapped h t w mode)
    (hcond : ¬Ended h t ∧ t ≠ (r.active i).txId ∨
      mode = .commitOnly ∧ (CommitReplied h t .ok ∨ t = (r.active i).txId ∧ c)) :
    ∃ j, (r'.wrappedPool j).id = w ∧ (r'.wrappedPool j).txId = t ∧
      (r'.wrappedPool j).mode = mode := by
  have hopen := (hl.slot_open i hact).2
  by_cases ht : t = (r.active i).txId
  · -- the ending transaction: only a commit leaves its COMMIT_ONLY capabilities
    subst ht
    obtain ⟨j, hj, htx, hmode⟩ := hl.wrapped_live _ w mode hw (.inl hopen)
    have hcok : c ∧ mode = .commitOnly := by
      rcases hcond with ⟨-, hne⟩ | ⟨hm, hold | ⟨-, hcok⟩⟩
      · exact absurd rfl hne
      · exact absurd (.inl hold) hopen
      · exact ⟨hcok, hm⟩
    have hsame := hkeep j fun _ => ⟨hcok.1, hmode.trans hcok.2⟩
    exact ⟨j, by rw [hsame]; exact ⟨hj, htx, hmode⟩⟩
  · obtain ⟨j, hj, htx, hmode⟩ := hl.wrapped_live t w mode hw (by tauto)
    have hw0 := hl.wrapped_ne_zero t w mode hw
    obtain ⟨k, -, hktx, hmem, -⟩ := hl.inv.cap_parent j (hj ▸ hw0)
    have hsame := hkeep j fun hmem' => by
      have hki := hl.inv.listed_inj k i _ hmem hmem'
      exact absurd (htx.symm.trans (hktx.symm.trans (by rw [hki]))) ht
    exact ⟨j, by rw [hsame]; exact ⟨hj, htx, hmode⟩⟩

theorem Lifecycle.ended (hl : Lifecycle h r) {p : Phase} {c : Prop}
    (hact : (r.active i).phase = .active) (hc : Counted (h ++ [e]) r')
    (hslots : r'.active = update r.active i { r.active i with phase := p })
    (hp : p = .free ∨ p = .committed ∧ c) (hnext : r'.nextTxId = r.nextTxId)
    (hwid : r'.nextWrappedId = r.nextWrappedId)
    (hbegun : ∀ b t, BegunBy (h ++ [e]) b t ↔ BegunBy h b t)
    (hended : ∀ t, Ended (h ++ [e]) t ↔ Ended h t ∨ t = (r.active i).txId)
    (hcommit : ∀ t, CommitReplied (h ++ [e]) t .ok ↔
      CommitReplied h t .ok ∨ t = (r.active i).txId ∧ c)
    (hconflict : ∀ t, CommitReplied (h ++ [e]) t .conflict →
      CommitReplied h t .conflict ∨ t = (r.active i).txId ∧ ¬c)
    (hwrap : ∀ t w mode, Wrapped (h ++ [e]) t w mode ↔ Wrapped h t w mode)
    (hlive : ∀ j, (r'.wrappedPool j).id ≠ 0 → r'.wrappedPool j = r.wrappedPool j)
    (hkeep : ∀ j, ((r.wrappedPool j).id ∈ (r.active i).wrappedCaps →
      c ∧ (r.wrappedPool j).mode = .commitOnly) → r'.wrappedPool j = r.wrappedPool j) :
    Lifecycle (h ++ [e]) r' := by
  have hself : r'.active i = { r.active i with phase := p } := by
    rw [hslots, update_self]
  have hother : ∀ k, k ≠ i → r'.active k = r.active k := by
    intro k hk
    rw [hslots, update_of_ne hk]
  have hopen := (hl.slot_open i hact).2
  have hne : ∀ k, k ≠ i → (r.active k).phase ≠ .free → (r.active k).txId ≠ (r.active i).txId := by
    intro k hki hk heq
    exact hki (hl.inv.txId_inj k i heq (hl.inv.txId_ne_zero k hk))
  constructor
  case toCounted => exact hc
  case begun_lt => simpa only [hbegun, hnext] using hl.begun_lt
  case ended_lt =>
    intro t ht
    rw [hnext]
    rcases (hended t).mp ht with hold | rfl
    · exact hl.ended_lt t hold
    · exact hl.inv.txId_lt i
  case open_slot =>
    intro b t ht hend
    rw [hended, not_or] at hend
    obtain ⟨k, hk, htx, howner⟩ := hl.open_slot b t ((hbegun b t).mp ht) hend.1
    have hki : k ≠ i := by
      rintro rfl
      exact hend.2 htx.symm
    exact ⟨k, by rw [hother k hki]; exact ⟨hk, htx, howner⟩⟩
  case slot_open =>
    intro k hk
    by_cases hki : k = i
    · rw [hki, hself] at hk
      rcases hp with rfl | ⟨rfl, -⟩ <;> cases hk
    · rw [hother k hki] at hk ⊢
      rw [hbegun, hended, not_or]
      exact ⟨(hl.slot_open k hk).1, (hl.slot_open k hk).2, hne k hki (by simp [hk])⟩
  case slot_committed =>
    intro k hk
    rw [hcommit]
    by_cases hki : k = i
    · rw [hki, hself] at hk ⊢
      rcases hp with rfl | ⟨-, hcok⟩
      · cases hk
      · exact .inr ⟨rfl, hcok⟩
    · rw [hother k hki] at hk ⊢
      exact .inl (hl.slot_committed k hk)
  case slot_phase =>
    intro k
    by_cases hki : k = i
    · rw [hki, hself]
      rcases hp with rfl | ⟨rfl, -⟩ <;> simp
    · rw [hother k hki]
      exact hl.slot_phase k
  case not_both =>
    intro t hno hok
    rw [hcommit] at hok
    rcases hconflict t hno with hold | ⟨ht, hnc⟩ <;> rcases hok with hok | ⟨ht', hcok⟩
    · exact hl.not_both t hold hok
    · exact hopen (ht' ▸ .inr (.inl hold))
    · exact hopen (ht ▸ .inl hok)
    · exact hnc hcok
  case cap_wrapped =>
    intro j hj
    have hsame := hlive j hj
    rw [hsame] at hj ⊢
    exact (hwrap _ _ _).mpr (hl.cap_wrapped j hj)
  case wrapped_ne_zero => simpa only [hwrap] using hl.wrapped_ne_zero
  case wrapped_lt => simpa only [hwrap, hwid] using hl.wrapped_lt
  case wrapped_inj => simpa only [hwrap] using hl.wrapped_inj
  case wrapped_live =>
    intro t w mode hw hcond
    rw [hended, hcommit, not_or] at hcond
    exact hl.caps_left hact hkeep ((hwrap t w mode).mp hw) hcond

/-- A WRAP that was answered adds its own capability to those handed out. -/
theorem wrapped_wrap {o mw t₀ w₀ : UInt64} {m : CapMode} (hreq : e.input.req = .wrap t₀ o mw)
    (hmode : capModeOfWord mw = some mode) (hreply : e.reply = .wrapped w₀) :
    Wrapped (h ++ [e]) t w m ↔ Wrapped h t w m ∨ t = t₀ ∧ w = w₀ ∧ m = mode := by
  rw [wrapped_append, hreq, hreply]
  constructor
  · rintro (hold | ⟨o', mw', hreq', hm, hw⟩)
    · exact .inl hold
    · obtain ⟨ht, -, rfl⟩ := Request.wrap.inj hreq'
      rw [hmode] at hm
      exact .inr ⟨ht.symm, (Reply.wrapped.inj hw).symm, (Option.some.inj hm).symm⟩
  · rintro (hold | ⟨rfl, rfl, rfl⟩)
    · exact .inl hold
    · exact .inr ⟨o, mw, rfl, hmode, rfl⟩

theorem Lifecycle.wrapped (hl : Lifecycle h r) {o mw : UInt64} (hslot : (r.wrappedPool j).id = 0)
    (hreq : e.input.req = .wrap (r.active i).txId o mw) (hmode : capModeOfWord mw = some mode)
    (hreply : e.reply = .wrapped r.nextWrappedId) (hc : Counted (h ++ [e]) (wrappedAt r i j o mode)) :
    Lifecycle (h ++ [e]) (wrappedAt r i j o mode) := by
  set r' := wrappedAt r i j o mode
  have hslots : ∀ k, (r'.active k).phase = (r.active k).phase ∧
      (r'.active k).txId = (r.active k).txId ∧
        (r'.active k).ownerBadge = (r.active k).ownerBadge := by
    intro k
    obtain ⟨caps, hk⟩ : ∃ caps, r'.active k = { r.active k with wrappedCaps := caps } := by
      by_cases hki : k = i
      · subst hki
        exact ⟨_, update_self ..⟩
      · exact ⟨_, update_of_ne hki ..⟩
    rw [hk]
    exact ⟨rfl, rfl, rfl⟩
  have hphase := fun k => (hslots k).1
  have hid := fun k => (hslots k).2.1
  have howner := fun k => (hslots k).2.2
  have hpself : r'.wrappedPool j = ⟨r.nextWrappedId, o, (r.active i).txId, mode, false⟩ :=
    update_self ..
  have hpother : ∀ k, k ≠ j → r'.wrappedPool k = r.wrappedPool k :=
    fun k hk => update_of_ne hk ..
  have hlt : r.nextWrappedId.toNat < r'.nextWrappedId.toNat := by
    have hnew := hc.inv.cap_lt j
    rwa [hpself] at hnew
  have hbegun : ∀ b t, BegunBy (h ++ [e]) b t ↔ BegunBy h b t := by
    intro b t
    rw [begunBy_append, hreply]
    simp
  have hended : ∀ t, Ended (h ++ [e]) t ↔ Ended h t := by
    intro t
    rw [ended_append, EndsNow, hreq]
    simp
  have hcommit : ∀ t s, CommitReplied (h ++ [e]) t s ↔ CommitReplied h t s := by
    intro t s
    rw [commitReplied_append, hreq]
    simp
  have hwrap := fun t w m => wrapped_wrap (h := h) (t := t) (w := w) (m := m) hreq hmode hreply
  constructor
  case toCounted => exact hc
  case begun_lt => exact fun b t ht => hl.begun_lt b t ((hbegun b t).mp ht)
  case ended_lt => exact fun t ht => hl.ended_lt t ((hended t).mp ht)
  case open_slot => simpa only [hbegun, hended, hphase, hid, howner] using hl.open_slot
  case slot_open => simpa only [hbegun, hended, hphase, hid, howner] using hl.slot_open
  case slot_committed => simpa only [hcommit, hphase, hid] using hl.slot_committed
  case slot_phase => simpa only [hphase] using hl.slot_phase
  case not_both => simpa only [hcommit] using hl.not_both
  case cap_wrapped =>
    intro k hk
    rw [hwrap]
    by_cases hkj : k = j
    · rw [hkj, hpself]
      exact .inr ⟨rfl, rfl, rfl⟩
    · rw [hpother k hkj] at hk ⊢
      exact .inl (hl.cap_wrapped k hk)
  case wrapped_ne_zero =>
    intro t w m hw
    rcases (hwrap t w m).mp hw with hold | ⟨-, rfl, -⟩
    · exact hl.wrapped_ne_zero t w m hold
    · exact hl.ne_zero
  case wrapped_lt =>
    intro t w m hw
    rcases (hwrap t w m).mp hw with hold | ⟨-, rfl, -⟩
    · exact (hl.wrapped_lt t w m hold).trans hlt
    · exact hlt
  case wrapped_inj =>
    intro t t' w m m' hw hw'
    rcases (hwrap t w m).mp hw with hold | ⟨rfl, hnew, rfl⟩ <;>
      rcases (hwrap t' w m').mp hw' with hold' | ⟨rfl, hnew', rfl⟩
    · exact hl.wrapped_inj t t' w m m' hold hold'
    · exact absurd hnew' (ne_of_toNat_lt (hl.wrapped_lt t w m hold) rfl)
    · exact absurd hnew (ne_of_toNat_lt (hl.wrapped_lt t' w m' hold') rfl)
    · exact ⟨rfl, rfl⟩
  case wrapped_live =>
    intro t w m hw hcond
    rw [hended, hcommit] at hcond
    rcases (hwrap t w m).mp hw with hold | ⟨rfl, rfl, rfl⟩
    · obtain ⟨k, hk, hrest⟩ := hl.wrapped_live t w m hold hcond
      have hkj : k ≠ j := by
        rintro rfl
        exact hl.wrapped_ne_zero t w m hold (hk ▸ hslot)
      exact ⟨k, by rw [hpother k hkj]; exact ⟨hk, hrest⟩⟩
    · exact ⟨j, by rw [hpself]; exact ⟨rfl, rfl, rfl⟩⟩

theorem Lifecycle.registryFind_isSome (hl : Lifecycle h r) (hbegun : BegunBy h b t)
    (hopen : ¬Ended h t) : ∃ i, registryFind r t b = some i := by
  obtain ⟨i, hact, htx, howner⟩ := hl.open_slot b t hbegun hopen
  have hlt := hl.inv.lt_activeCount i (by simp [hact])
  exact first_isSome (j := i) (by simp [hlt, hact, htx, howner])

variable {m : Msg} {reply : Reply}

theorem Lifecycle.same (hl : Lifecycle h r) (hc : Counted (h ++ [⟨r, m, reply⟩]) r)
    (hcommit : ∀ t, m.req = .commit t → reply ≠ .status .ok ∧ reply ≠ .status .conflict)
    (hrollback : ∀ t, m.req = .rollback t → registryFind r t m.badge = none)
    (hwrap : ∀ w, reply ≠ .wrapped w) (htx : ∀ id, reply = .txId id → id = 0) :
    Lifecycle (h ++ [⟨r, m, reply⟩]) r := by
  refine hl.quiet hc (fun _ => rfl) (fun _ => rfl) (fun _ => rfl) rfl rfl rfl ?_ ?_ ?_ ?_ ?_
  · intro b t
    rw [begunBy_append, or_iff_left]
    rintro ⟨hne, -, hreply⟩
    exact hne (htx t hreply)
  · intro t
    rw [ended_append, or_iff_left_of_imp]
    -- a COMMIT that changed nothing ended nothing, a lookup that failed had nothing to end
    rintro (⟨hreq, hreply⟩ | ⟨hreq, hbegun⟩)
    · obtain ⟨hok, hconflict⟩ := hcommit t hreq
      exact absurd hreply (not_or.mpr ⟨hok, hconflict⟩)
    · by_contra hopen
      obtain ⟨i, hi⟩ := hl.registryFind_isSome hbegun hopen
      simp [hrollback t hreq] at hi
  · intro t
    rw [commitReplied_append, or_iff_left]
    rintro ⟨hreq, hreply⟩
    exact (hcommit t hreq).1 hreply
  · intro t
    rw [commitReplied_append, or_iff_left]
    rintro ⟨hreq, hreply⟩
    exact (hcommit t hreq).2 hreply
  · intro t w mode
    rw [wrapped_append, or_iff_left]
    rintro ⟨o, mw, -, -, hreply⟩
    exact hwrap w hreply

theorem Lifecycle.touched (hl : Lifecycle h r) {s : Status} {rs ws : ObjSet}
    (hreq : (∃ o, m.req = .read t o) ∨ ∃ o, m.req = .stage t o)
    (hc : Counted (h ++ [⟨r, m, .status s⟩])
      (r.setTx i { r.active i with readSet := rs, writeSet := ws })) :
    Lifecycle (h ++ [⟨r, m, .status s⟩])
      (r.setTx i { r.active i with readSet := rs, writeSet := ws }) := by
  have hreq' : ∀ u, m.req ≠ .commit u ∧ m.req ≠ .rollback u := by
    intro u
    rcases hreq with ⟨o, ho⟩ | ⟨o, ho⟩ <;> simp [ho]
  refine hl.quiet hc ?_ ?_ ?_ rfl rfl rfl ?_ ?_ ?_ ?_ ?_
  iterate 3
    intro k
    by_cases hki : k = i <;> simp [hki]
  · intro b t
    rw [begunBy_append]
    simp
  · intro u
    rw [ended_append, EndsNow]
    simp [hreq' u]
  iterate 2
    intro u
    rw [commitReplied_append]
    simp [hreq' u]
  · intro t w mode
    rw [wrapped_append]
    simp

theorem Lifecycle.committed (hl : Lifecycle h r) (hreq : m.req = .commit t)
    (hfind : registryFind r t m.badge = some i)
    (hc : Counted (h ++ [⟨r, m, .status .ok⟩]) (committedAt r i)) :
    Lifecycle (h ++ [⟨r, m, .status .ok⟩]) (committedAt r i) := by
  obtain ⟨-, hact, rfl, -⟩ := registryFind_some hfind
  refine hl.ended (p := if hasLiveCommitOnly (committing r i) i then .committed else .free)
    (c := True) hact hc rfl ?_ rfl rfl ?_ ?_ ?_ ?_ ?_ ?_ ?_
  · split_ifs <;> simp
  · intro b t
    rw [begunBy_append]
    simp
  · intro u
    rw [ended_append, EndsNow, hreq]
    simp [eq_comm]
  · intro u
    rw [commitReplied_append, hreq]
    simp [eq_comm]
  · intro u
    rw [commitReplied_append]
    simp
  · intro t w mode
    rw [wrapped_append]
    simp
  · exact fun j hj => (committing_live hj).1
  · intro j hj
    change (committing r i).wrappedPool j = _
    rw [committing, registrySweepWrappedByMode, sweepWrappedIf_pool, if_neg]
    · rfl
    · rintro ⟨hmem, hm⟩
      simp [loggedAt, (hj hmem).2] at hm

theorem Lifecycle.aborted (hl : Lifecycle h r) (hfind : registryFind r t m.badge = some i)
    (hreq : m.req = .commit t ∧ reply = .status .conflict ∧ registryCanCommit r i = false ∨
      m.req = .rollback t ∧ reply = .none)
    (hc : Counted (h ++ [⟨r, m, reply⟩]) (registryAbort r i)) :
    Lifecycle (h ++ [⟨r, m, reply⟩]) (registryAbort r i) := by
  obtain ⟨-, hact, rfl, howner⟩ := registryFind_some hfind
  have hbegun := howner ▸ (hl.slot_open i hact).1
  refine hl.ended (p := .free) (c := False) hact hc rfl (.inl rfl) rfl rfl ?_ ?_ ?_ ?_ ?_ ?_ ?_
  · intro b t
    rw [begunBy_append]
    rcases hreq with ⟨-, rfl, -⟩ | ⟨-, rfl⟩ <;> simp
  · intro u
    rw [ended_append, EndsNow]
    rcases hreq with ⟨hreq, rfl, -⟩ | ⟨hreq, rfl⟩
    · simp [hreq, eq_comm]
    simp only [hreq]
    constructor
    · rintro (hold | ⟨hreq', -⟩ | ⟨hreq', -⟩)
      · exact .inl hold
      · cases hreq'
      · exact .inr (Request.rollback.inj hreq').symm
    · rintro (hold | rfl)
      · exact .inl hold
      · exact .inr (.inr ⟨rfl, hbegun⟩)
  · intro u
    rw [commitReplied_append]
    rcases hreq with ⟨-, rfl, -⟩ | ⟨-, rfl⟩ <;> simp
  · intro u
    rw [commitReplied_append]
    rcases hreq with ⟨hreq, -, -⟩ | ⟨hreq, -⟩
    · simp only [hreq, Request.commit.injEq, not_false_eq_true, and_true]
      exact Or.imp_right fun hu => hu.1.symm
    · simp only [hreq, reduceCtorEq, false_and, or_false]
      exact .inl
  · intro t w mode
    rw [wrapped_append]
    rcases hreq with ⟨-, rfl, -⟩ | ⟨-, rfl⟩ <;> simp
  · exact fun j hj => (sweepWrappedIf_live hj).1
  · intro j hj
    change (sweepWrappedIf _ r i).wrappedPool j = _
    rw [sweepWrappedIf_pool, if_neg]
    rintro ⟨hmem, -⟩
    exact (hj hmem).1

theorem effect_lifecycle (heff : Effect r m r' reply)
    (hl : Lifecycle h r) (hw : NotWrapped (h ++ [⟨r, m, reply⟩])) :
    Lifecycle (h ++ [⟨r, m, reply⟩]) r' := by
  have hc := effect_counted heff hl.toCounted hw
  cases heff with
  | same _ _ hcommit hrollback hwrap htx => exact hl.same hc hcommit hrollback hwrap htx
  | begun i hreq hslot =>
    obtain ⟨badge, req⟩ := m
    obtain rfl : req = .begin := hreq
    exact hl.begun (by simpa using first_some hslot) rfl rfl hc
  | touched i t _ hreq => exact hl.touched hreq hc
  | committed i t hreq hfind => exact hl.committed hreq hfind hc
  | aborted i t _ hreq hfind => exact hl.aborted hfind hreq hc
  | wrapped i j t o mw mode hreq hmode hfind hfull hslot _ hreply =>
    obtain ⟨-, -, rfl, -⟩ := registryFind_some hfind
    rw [if_neg hl.ne_zero] at hreply
    exact hl.wrapped (by simpa using first_some hslot) hreq hmode hreply hc

theorem registryAfter_lifecycle {msgs : List Msg} (hw : NotWrapped (history msgs)) :
    Lifecycle (history msgs) (registryAfter msgs) := by
  refine Machine.trace_induction serve (P := fun h r => NotWrapped h → Lifecycle h r) ?_ ?_ msgs hw
  · exact fun _ => lifecycle_init
  · intro h r m ih hw
    exact effect_lifecycle (serve_effect r m) (ih hw.of_append) hw

theorem findTxById_eq (hinv : Inv r) (hi : (r.active i).phase ≠ .free) :
    findTxById r (r.active i).txId = some i := by
  apply first_eq_of_unique
  · simp [hinv.lt_activeCount i hi]
  · intro k hk
    have hk' : (r.active k).txId = (r.active i).txId := by
      simpa using (Bool.and_eq_true_iff.mp hk).2
    exact hinv.txId_inj k i hk' (hk' ▸ hinv.txId_ne_zero i hi)

theorem handleInvoke_ok_iff : (handleInvoke r w).2 = .status .ok ↔
    ∃ j, registryWrappedFind r w = some j ∧ registryWrappedInvocable r (r.wrappedPool j) = true := by
  unfold handleInvoke
  cases hf : registryWrappedFind r w with
  | none => simp
  | some j => cases hi : registryWrappedInvocable r (r.wrappedPool j) <;> simp [hi]

theorem Lifecycle.invocable_iff (hl : Lifecycle h r) (hj : (r.wrappedPool j).id ≠ 0) :
    registryWrappedInvocable r (r.wrappedPool j) = true ↔
      (r.wrappedPool j).mode = .activeOk ∧ ¬Ended h (r.wrappedPool j).txId ∨
      (r.wrappedPool j).mode = .commitOnly ∧ CommitReplied h (r.wrappedPool j).txId .ok := by
  obtain ⟨i, hi, htx, -, hmode⟩ := hl.inv.cap_parent j hj
  have hfind := findTxById_eq hl.inv hi
  rw [htx] at hfind
  have hlive := hl.inv.cap_live j hj
  rw [← htx]
  cases hp : (r.active i).phase with
  | free => exact absurd hp hi
  | aborted => exact absurd hp (hl.slot_phase i)
  | active =>
    have hopen := (hl.slot_open i hp).2
    have hnot : ¬CommitReplied h (r.active i).txId .ok := fun hok => hopen (.inl hok)
    cases hm : (r.wrappedPool j).mode <;>
      simp [registryWrappedInvocable, hlive, hfind, hm, hp, hopen, hnot]
  | committed =>
    have hok := hl.slot_committed i hp
    simp [registryWrappedInvocable, hlive, hfind, hmode hp, hp, hok]

theorem Lifecycle.invoke_ok (hl : Lifecycle h r) : (handleInvoke r w).2 = .status .ok ↔
    ∃ t mode, Wrapped h t w mode ∧
      (mode = .activeOk ∧ ¬Ended h t ∨ mode = .commitOnly ∧ CommitReplied h t .ok) := by
  rw [handleInvoke_ok_iff]
  constructor
  · rintro ⟨j, hfind, hinv⟩
    obtain ⟨hw0, rfl, -⟩ := registryWrappedFind_some hfind
    exact ⟨_, _, hl.cap_wrapped j hw0, (hl.invocable_iff hw0).mp hinv⟩
  · rintro ⟨t, mode, hwrap, hcond⟩
    have hw0 := hl.wrapped_ne_zero t w mode hwrap
    obtain ⟨j, rfl, rfl, rfl⟩ := hl.wrapped_live t w mode hwrap (hcond.imp And.right id)
    exact ⟨j, registryWrappedFind_eq hl.inv.cap_inj hw0 (hl.inv.cap_live j hw0),
      (hl.invocable_iff hw0).mpr hcond⟩

/-- `INVOKE` succeeds exactly on the capabilities that the exchanges so far leave usable. -/
theorem invoke_ok_iff_usable (msgs : List Msg) (hw : NotWrapped (history msgs))
    (badge w payload : UInt64) :
    ((serve (registryAfter msgs) ⟨badge, .invoke w payload⟩).2 = .status .ok ↔
      ∃ t mode, Wrapped (history msgs) t w mode ∧ (mode = .activeOk ∧ ¬Ended (history msgs) t ∨
          mode = .commitOnly ∧ CommitReplied (history msgs) t .ok)) ∧
    ∀ t mode, Wrapped (history msgs) t w mode → CommitReplied (history msgs) t .conflict ∨
        RolledBack (history msgs) t ∧ ¬CommitReplied (history msgs) t .ok →
      (serve (registryAfter msgs) ⟨badge, .invoke w payload⟩).2 ≠ .status .ok := by
  have hl := registryAfter_lifecycle hw
  refine ⟨hl.invoke_ok, ?_⟩
  intro t mode hwrap hgone hok
  obtain ⟨t', mode', hwrap', hcond⟩ := hl.invoke_ok.mp hok
  obtain ⟨rfl, -⟩ := hl.wrapped_inj _ _ _ _ _ hwrap hwrap'
  rcases hcond with ⟨-, hopen⟩ | ⟨-, hcommit⟩
  · exact hopen (hgone.elim (fun hno => .inr (.inl hno)) fun hback => .inr (.inr hback.1))
  · exact hgone.elim (fun hno => hl.not_both t hno hcommit) fun hback => hback.2 hcommit

def wrapRun : List Msg := [⟨1, .begin⟩, ⟨1, .wrap 1 9 0⟩, ⟨1, .wrap 1 9 1⟩, ⟨1, .commit 1⟩]

theorem invoke_ok_iff_usable_wrapRun : NotWrapped (history wrapRun) ∧
      (serve (registryAfter wrapRun) ⟨2, .invoke 1 0⟩).2 = .status .ok := by
  have hw : NotWrapped (history wrapRun) := by decide +kernel
  have hwrap : Wrapped (history wrapRun) 1 1 .commitOnly :=
    ⟨_, mem_of_getElem? (i := 1) rfl, 9, 0, rfl, rfl, by decide +kernel⟩
  have hcommit : CommitReplied (history wrapRun) 1 .ok :=
    ⟨_, mem_of_getElem? (i := 3) rfl, rfl, by decide +kernel⟩
  exact ⟨hw, (invoke_ok_iff_usable wrapRun hw 2 1 0).1.mpr
    ⟨1, .commitOnly, hwrap, .inr ⟨rfl, hcommit⟩⟩⟩

/-- Open transactions are the active slots, one each. -/
theorem open_iff_slot (msgs : List Msg) (hw : NotWrapped (history msgs)) :
    BegunBy (history msgs) b t ∧ ¬Ended (history msgs) t ↔
      ∃! i, let tx := (registryAfter msgs).active i
        tx.phase = .active ∧ tx.txId = t ∧ tx.ownerBadge = b := by
  have hl := registryAfter_lifecycle hw
  constructor
  · rintro ⟨hbegun, hopen⟩
    obtain ⟨i, hact, rfl, hown⟩ := hl.open_slot b t hbegun hopen
    refine ⟨i, ⟨hact, rfl, hown⟩, fun k hk => ?_⟩
    exact hl.inv.txId_inj k i hk.2.1 (hk.2.1 ▸ hbegun.1)
  · rintro ⟨i, ⟨hact, rfl, rfl⟩, -⟩
    exact hl.slot_open i hact

/-- The second client's ROLLBACK of the first's transaction ends nothing. -/
def twoClients : List Msg :=
  [⟨1, .begin⟩, ⟨2, .begin⟩, ⟨2, .rollback 1⟩, ⟨2, .commit 2⟩, ⟨2, .begin⟩]

theorem open_iff_slot_twoClients :
    BegunBy (history twoClients) 1 1 ∧ ¬Ended (history twoClients) 1 :=
  (open_iff_slot twoClients (by decide +kernel)).mpr ⟨0, by decide +kernel, by decide +kernel⟩

end SotOs.Sto
