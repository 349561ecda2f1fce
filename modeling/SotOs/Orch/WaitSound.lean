import SotOs.Lib.History
import SotOs.Orch.Wait

/-! Whom `wait4` may tell about which exit: a process of its own children only, of each once and
with its exit code. -/

namespace SotOs.Orch.Wait
open History Machine Function Slots List

def HasChild (past : List Event) (serial : ℕ) : Prop :=
  ∃ child pid, .born child (some serial) pid ∈ past ∧ ((∀ code, .ended child code ∉ past) ∨
      ∀ waiter pid' wstatus, .handed waiter child pid' wstatus ∉ past)

def Event.ends (child : ℕ) : Event → Bool
  | .ended serial _ => serial = child
  | _ => false

def Event.tells (child : ℕ) : Event → Bool
  | .handed _ serial _ _ => serial = child
  | _ => false

def Event.startsChild (past : List Event) (serial : ℕ) : Event → Bool
  | .born child parent _ =>
    decide (parent = some serial) && !(past.any (Event.ends child) && past.any (Event.tells child))
  | _ => false

variable {child serial : ℕ} {t t' : Table} {i : Slot} {b : Box} {pid : ℤ} {k : Grave} {z : Zombie}
  {past : List Event}

theorem any_false {p : Event → Bool} {q : Event → Prop}
    (hpq : ∀ e, p e = true ↔ q e) : past.any p = false ↔ ∀ e, q e → e ∉ past := by
  rw [any_eq_false]
  exact forall_congr' fun e => by rw [hpq e, imp_not_comm]

theorem any_ends :
    past.any (Event.ends child) = false ↔ ∀ code, .ended child code ∉ past := by
  rw [any_false (q := fun e => ∃ code, e = .ended child code) fun e => by
    cases e <;> simp [Event.ends]]
  simp

theorem any_tells : past.any (Event.tells child) = false ↔
      ∀ waiter pid wstatus, .handed waiter child pid wstatus ∉ past := by
  rw [any_false (q := fun e => ∃ waiter pid wstatus, e = .handed waiter child pid wstatus)
    fun e => by cases e <;> simp [Event.tells]]
  constructor
  · exact fun h waiter pid wstatus => h _ ⟨waiter, pid, wstatus, rfl⟩
  · rintro h _ ⟨waiter, pid, wstatus, rfl⟩
    exact h waiter pid wstatus

theorem any_startsChild :
    past.any (Event.startsChild past serial) = true ↔ HasChild past serial := by
  rw [any_eq_true]
  constructor
  · rintro ⟨e, he, hstarts⟩
    cases e with
    | born child parent pid =>
      simp only [Event.startsChild, Bool.and_eq_true, decide_eq_true_eq, Bool.not_eq_true',
        Bool.and_eq_false_iff, any_ends, any_tells] at hstarts
      exact ⟨child, pid, hstarts.1 ▸ he, hstarts.2⟩
    | ended serial' code => cases hstarts
    | handed waiter child pid wstatus => cases hstarts
    | answered waiter answer => cases hstarts
  · rintro ⟨child, pid, hborn, huntold⟩
    refine ⟨_, hborn, ?_⟩
    simpa only [Event.startsChild, decide_true, Bool.true_and, Bool.not_eq_true',
      Bool.and_eq_false_iff, any_ends, any_tells] using huntold

instance (past : List Event) (serial : ℕ) : Decidable (HasChild past serial) :=
  decidable_of_iff _ any_startsChild

/-- What is handed over is the exit of a child of the waiter that nobody was told of, and who has no
child is refused. -/
def Right (past : List Event) : Event → Prop
  | .handed waiter child pid wstatus =>
    .born child (some waiter) pid ∈ past ∧
      (∃ code, .ended child code ∈ past ∧ wstatus = wstatusOf code) ∧
      ∀ waiter' pid' wstatus', .handed waiter' child pid' wstatus' ∉ past
  | .answered waiter answer => answer ≠ .echild → HasChild past waiter
  | _ => True

/-- The slot for a new sotbox is not that of the parent of a sotbox or of a zombie. -/
def Unnamed (t : Table) : Prop :=
  ∀ i ∈ sotboxAllocSlot t, (∀ j, ∀ c ∈ t.slots j, c.parentSlot ≠ some i) ∧
    ∀ k, ∀ z ∈ t.zombies k, z.parentPid ≠ toId i

instance (t : Table) : Decidable (Unnamed t) :=
  inferInstanceAs (Decidable (∀ i ∈ sotboxAllocSlot t, _ ∧ _))

/-- Only from the slot of its parent is `b` waited for by its pid, and if it has no parent nobody
waits for any child. -/
def AwaitedByParent (t : Table) (i : Slot) (b : Box) : Prop :=
  ∀ j, ∀ w ∈ t.slots j, (w.waitingFor = some (toId i) → b.parentSlot = some j) ∧
    (b.parentSlot = none → w.waitingFor ≠ some (-1))

instance (t : Table) (i : Slot) (b : Box) : Decidable (AwaitedByParent t i b) :=
  inferInstanceAs (Decidable (∀ j, ∀ w ∈ t.slots j, _ ∧ _))

/-- No zombie that is asked for has an unknown parent, and those of children of this slot stand for
exits that woke nobody and left no other zombie. -/
def ZombiesSound (t : Table) (i : Slot) (pid : ℤ) : Prop :=
  ∀ k, ∀ z ∈ t.zombies k, pid = -1 ∨ z.pid = pid →
    z.parentPid ≠ 0 ∧ (z.parentPid = toId i → z.extra = false)

instance (t : Table) (i : Slot) (pid : ℤ) : Decidable (ZombiesSound t i pid) :=
  inferInstanceAs (Decidable (∀ k, ∀ z ∈ t.zombies k, _ → _ ∧ _))

def Solitary (t : Table) (i : Slot) : Prop :=
  (∀ k, t.zombies k = none) ∧ ∀ j, j ≠ i → t.slots j = none

instance (t : Table) (i : Slot) : Decidable (Solitary t i) :=
  decidable_of_iff ((∀ k, (t.zombies k).isNone) ∧ ∀ j, j ≠ i → (t.slots j).isNone) <| by
    simp [Solitary]

def OfBox (t : Table) (i : Slot) (P : Box → Prop) : Prop := ∀ b ∈ t.slots i, P b

instance (t : Table) (i : Slot) (P : Box → Prop) [DecidablePred P] : Decidable (OfBox t i P) :=
  inferInstanceAs (Decidable (∀ b ∈ t.slots i, P b))

/-- The condition on a request, in terms of the parents, the slots and the earlier exits. -/
def Kin (past : List Event) (t : Table) : Input → Prop
  | .spawn => Unnamed t
  | .fork _ _ => Unnamed t
  | .exitGroup i _ => OfBox t i fun b => AwaitedByParent t i b
  | .kill _ i signo => isTerminating signo = true → OfBox t i fun b => AwaitedByParent t i b
  | .wait4 i pid _ synth _ _ => OfBox t i fun b => ZombiesSound t i pid ∧
      (HasChild past b.serial ∨ synth = false ∧ Solitary t i)
  | _ => True

instance (past : List Event) (t : Table) : (i : Input) → Decidable (Kin past t i)
  | .spawn => inferInstanceAs (Decidable (Unnamed t))
  | .fork _ _ => inferInstanceAs (Decidable (Unnamed t))
  | .exitGroup i _ => inferInstanceAs (Decidable (OfBox t i fun b => AwaitedByParent t i b))
  | .kill _ i signo => inferInstanceAs
      (Decidable (isTerminating signo = true → OfBox t i fun b => AwaitedByParent t i b))
  | .wait4 i pid _ synth _ _ => inferInstanceAs (Decidable (OfBox t i fun b =>
      ZombiesSound t i pid ∧ (HasChild past b.serial ∨ synth = false ∧ Solitary t i)))
  | .fatal _ _ => .isTrue trivial
  | .teardown _ _ => .isTrue trivial
  | .drop _ => .isTrue trivial

structure Inv (past : List Event) (t : Table) : Prop where
  box_born : ∀ i b, t.slots i = some b → .born b.serial b.parent (toId i) ∈ past
  box_alive : ∀ i b, t.slots i = some b → ∀ code, .ended b.serial code ∉ past
  box_one : ∀ i j b b', t.slots i = some b → t.slots j = some b' → b.serial = b'.serial → i = j
  box_parent : ∀ i j b c, t.slots j = some c → c.parentSlot = some i → t.slots i = some b →
    c.parent = some b.serial
  zombie_parent : ∀ i k b z, t.zombies k = some z → z.parentPid = toId i → t.slots i = some b →
    z.parent = some b.serial
  zombie_born : ∀ k z, t.zombies k = some z → .born z.serial z.parent z.pid ∈ past
  zombie_ended : ∀ k z, t.zombies k = some z → .ended z.serial z.exitCode ∈ past
  zombie_untold : ∀ k z, t.zombies k = some z → z.extra = false →
    ∀ waiter pid wstatus, .handed waiter z.serial pid wstatus ∉ past
  zombie_one : ∀ k l z z', t.zombies k = some z → t.zombies l = some z' →
    z.extra = false → z'.extra = false → z.serial = z'.serial → k = l
  handed_ended : ∀ waiter child pid wstatus, .handed waiter child pid wstatus ∈ past →
    ∃ code, .ended child code ∈ past
  ended_fresh : ∀ serial code, .ended serial code ∈ past → serial < t.nextSerial
  born_fresh : ∀ serial parent pid, .born serial parent pid ∈ past → serial < t.nextSerial

theorem inv_start : Inv [] Table.start := by
  constructor <;> simp [Table.start]

structure Within (t' t : Table) : Prop where
  slots : ∀ i b', t'.slots i = some b' →
    ∃ b, t.slots i = some b ∧ b'.serial = b.serial ∧ b'.parent = b.parent ∧
      b'.parentSlot = b.parentSlot
  zombies : ∀ k z, t'.zombies k = some z → t.zombies k = some z
  nextSerial : t'.nextSerial = t.nextSerial

theorem Inv.within (h : Inv past t) (hw : Within t' t) : Inv past t' where
  box_born i b' hb' := by
    obtain ⟨b, hb, hs, hp, -⟩ := hw.slots i b' hb'
    rw [hs, hp]
    exact h.box_born i b hb
  box_alive i b' hb' := by
    obtain ⟨b, hb, hs, -⟩ := hw.slots i b' hb'
    rw [hs]
    exact h.box_alive i b hb
  box_one i j b₁ b₂ h₁ h₂ heq := by
    obtain ⟨b, hb, hs, -⟩ := hw.slots i b₁ h₁
    obtain ⟨b', hb', hs', -⟩ := hw.slots j b₂ h₂
    exact h.box_one i j b b' hb hb' (by rw [← hs, ← hs', heq])
  box_parent i j b₁ c₁ hc hslot hb := by
    obtain ⟨c, hc, -, hp, hps⟩ := hw.slots j c₁ hc
    obtain ⟨b, hb, hs, -⟩ := hw.slots i b₁ hb
    rw [hp, hs]
    exact h.box_parent i j b c hc (hps ▸ hslot) hb
  zombie_parent i k b₁ z hz hpid hb := by
    obtain ⟨b, hb, hs, -⟩ := hw.slots i b₁ hb
    rw [hs]
    exact h.zombie_parent i k b z (hw.zombies k z hz) hpid hb
  zombie_born k z hz := h.zombie_born k z (hw.zombies k z hz)
  zombie_ended k z hz := h.zombie_ended k z (hw.zombies k z hz)
  zombie_untold k z hz := h.zombie_untold k z (hw.zombies k z hz)
  zombie_one k l z z' hz hz' := h.zombie_one k l z z' (hw.zombies k z hz) (hw.zombies l z' hz')
  handed_ended := h.handed_ended
  ended_fresh := by
    rw [hw.nextSerial]
    exact h.ended_fresh
  born_fresh := by
    rw [hw.nextSerial]
    exact h.born_fresh

theorem Inv.place (h : Inv past t) (hfree : t.slots i = none)
    (hboxes : ∀ j, ∀ c ∈ t.slots j, c.parentSlot ≠ some i)
    (hzombies : ∀ k, ∀ z ∈ t.zombies k, z.parentPid ≠ toId i)
    {parentSlot : Option Slot} {parent : Option ℕ}
    (hparent : ∀ p ∈ parentSlot, ∃ b, t.slots p = some b ∧ parent = some b.serial) :
    Inv (past ++ (Wait.place t i parentSlot parent).2) (Wait.place t i parentSlot parent).1 where
  box_born j b hb := by
    by_cases hj : j = i
    · subst hj
      simp only [Wait.place, update_self, Option.some.injEq] at hb
      subst hb
      simp [Wait.place]
    · simp only [Wait.place, update_of_ne hj] at hb
      exact mem_append_left _ (h.box_born j b hb)
  box_alive j b hb code := by
    by_cases hj : j = i
    · subst hj
      simp only [Wait.place, update_self, Option.some.injEq] at hb
      subst hb
      intro hmem
      have hmem : Event.ended t.nextSerial code ∈ past := by simpa [Wait.place] using hmem
      exact absurd (h.ended_fresh _ _ hmem) (lt_irrefl _)
    · simp only [Wait.place, update_of_ne hj] at hb
      simpa [Wait.place] using h.box_alive j b hb code
  box_one j k b b' hb hb' heq := by
    have hnew : ∀ l c, t.slots l = some c → c.serial ≠ t.nextSerial := fun l c hc =>
      (h.born_fresh _ _ _ (h.box_born l c hc)).ne
    by_cases hj : j = i <;> by_cases hk : k = i
    · rw [hj, hk]
    · subst hj
      simp only [Wait.place, update_self, Option.some.injEq] at hb
      simp only [Wait.place, update_of_ne hk] at hb'
      subst hb
      exact absurd heq.symm (hnew k b' hb')
    · subst hk
      simp only [Wait.place, update_self, Option.some.injEq] at hb'
      simp only [Wait.place, update_of_ne hj] at hb
      subst hb'
      exact absurd heq (hnew j b hb)
    · simp only [Wait.place, update_of_ne hj] at hb
      simp only [Wait.place, update_of_ne hk] at hb'
      exact h.box_one j k b b' hb hb' heq
  box_parent p j b c hc hslot hb := by
    have hold : p ≠ i → t.slots p = some b := fun hp => by
      simpa only [Wait.place, update_of_ne hp] using hb
    by_cases hj : j = i
    · subst hj
      simp only [Wait.place, update_self, Option.some.injEq] at hc
      subst hc
      obtain ⟨b', hb', hserial⟩ := hparent p hslot
      have hp : p ≠ j := fun hp => by simp [hp, hfree] at hb'
      rw [← Option.some.inj (hb'.symm.trans (hold hp))]
      exact hserial
    · simp only [Wait.place, update_of_ne hj] at hc
      have hp : p ≠ i := fun hp => hboxes j c hc (hp ▸ hslot)
      exact h.box_parent p j b c hc hslot (hold hp)
  zombie_parent p k b z hz hpid hb := by
    have hp : p ≠ i := fun hp => hzombies k z hz (hp ▸ hpid)
    exact h.zombie_parent p k b z hz hpid
      (by simpa only [Wait.place, update_of_ne hp] using hb)
  zombie_born k z hz := mem_append_left _ (h.zombie_born k z hz)
  zombie_ended k z hz := mem_append_left _ (h.zombie_ended k z hz)
  zombie_untold k z hz hx w p s := by simpa [Wait.place] using h.zombie_untold k z hz hx w p s
  zombie_one := h.zombie_one
  handed_ended w c p s hmem := by
    obtain ⟨code, hcode⟩ := h.handed_ended w c p s (by simpa [Wait.place] using hmem)
    exact ⟨code, mem_append_left _ hcode⟩
  ended_fresh s code hmem :=
    Nat.lt_succ_of_lt (h.ended_fresh s code (by simpa [Wait.place] using hmem))
  born_fresh s p pid hmem := by
    rcases mem_append.mp hmem with hold | hnew
    · exact Nat.lt_succ_of_lt (h.born_fresh s p pid hold)
    · simp only [Wait.place, mem_singleton, Event.born.injEq] at hnew
      rw [hnew.1]
      exact Nat.lt_succ_self _

theorem Inv.finish (h : Inv past t) (hb : t.slots i = some b) (code : UInt32) :
    Inv (past ++ [.ended b.serial code]) (sotboxFreeSlot t i) := by
  have hkept : ∀ {j c}, (sotboxFreeSlot t i).slots j = some c → j ≠ i ∧ t.slots j = some c := by
    intro j c hc
    by_cases hj : j = i
    · subst hj
      simp [sotboxFreeSlot] at hc
    · exact ⟨hj, by simpa [sotboxFreeSlot, hj] using hc⟩
  constructor
  case box_born => exact fun j c hc => mem_append_left _ (h.box_born j c (hkept hc).2)
  case box_alive =>
    intro j c hc code' hmem
    obtain ⟨hj, hc⟩ := hkept hc
    rcases mem_append.mp hmem with hold | hnew
    · exact h.box_alive j c hc code' hold
    · simp only [mem_singleton, Event.ended.injEq] at hnew
      exact hj (h.box_one j i c b hc hb hnew.1)
  case box_one =>
    exact fun j k c c' hc hc' => h.box_one j k c c' (hkept hc).2 (hkept hc').2
  case box_parent =>
    exact fun p j c d hd hslot hc => h.box_parent p j c d (hkept hd).2 hslot (hkept hc).2
  case zombie_parent =>
    exact fun p k c z hz hpid hc => h.zombie_parent p k c z hz hpid (hkept hc).2
  case zombie_born => exact fun k z hz => mem_append_left _ (h.zombie_born k z hz)
  case zombie_ended => exact fun k z hz => mem_append_left _ (h.zombie_ended k z hz)
  case zombie_untold =>
    intro k z hz hx w p s
    simpa using h.zombie_untold k z hz hx w p s
  case zombie_one => exact h.zombie_one
  case handed_ended =>
    intro w c p s hmem
    obtain ⟨code', hcode⟩ := h.handed_ended w c p s (by simpa using hmem)
    exact ⟨code', mem_append_left _ hcode⟩
  case ended_fresh =>
    intro serial code' hmem
    rcases mem_append.mp hmem with hold | hnew
    · exact h.ended_fresh serial code' hold
    · simp only [mem_singleton, Event.ended.injEq] at hnew
      rw [hnew.1]
      exact h.born_fresh _ _ _ (h.box_born i b hb)
  case born_fresh => exact fun serial q pid hmem => h.born_fresh serial q pid (by simpa using hmem)

def Unmarked (t : Table) (serial : ℕ) : Prop :=
  ∀ k z, t.zombies k = some z → z.extra = false → z.serial ≠ serial

theorem Inv.record (h : Inv past t) {code : UInt32} (parentPid : ℤ)
    {extra : Bool} (hborn : .born b.serial b.parent pid ∈ past)
    (hended : .ended b.serial code ∈ past)
    (hparent : ∀ p c, parentPid = toId p → t.slots p = some c → b.parent = some c.serial)
    (hfirst : extra = false → Unmarked t b.serial ∧
      ∀ waiter pid' wstatus, .handed waiter b.serial pid' wstatus ∉ past) :
    Inv past (sotboxRecordExitP t b pid code parentPid extra) := by
  have hcase : ∀ {k z}, (sotboxRecordExitP t b pid code parentPid extra).zombies k = some z →
      (k = recordPlace t ∧ z = ⟨pid, code, parentPid, t.zombieSeq + 1, b.serial, b.parent, extra⟩) ∨
        t.zombies k = some z := by
    intro k z hz
    by_cases hk : k = recordPlace t
    · subst hk
      simp only [sotboxRecordExitP, update_self, Option.some.injEq] at hz
      exact .inl ⟨rfl, hz.symm⟩
    · exact .inr (by simpa [sotboxRecordExitP, hk] using hz)
  constructor
  case box_born => exact h.box_born
  case box_alive => exact h.box_alive
  case box_one => exact h.box_one
  case box_parent => exact h.box_parent
  case zombie_parent =>
    intro p k c z hz hpid hc
    rcases hcase hz with ⟨-, rfl⟩ | hz
    · exact hparent p c hpid hc
    · exact h.zombie_parent p k c z hz hpid hc
  case zombie_born =>
    intro k z hz
    rcases hcase hz with ⟨-, rfl⟩ | hz
    · exact hborn
    · exact h.zombie_born k z hz
  case zombie_ended =>
    intro k z hz
    rcases hcase hz with ⟨-, rfl⟩ | hz
    · exact hended
    · exact h.zombie_ended k z hz
  case zombie_untold =>
    intro k z hz hx
    rcases hcase hz with ⟨-, rfl⟩ | hz
    · exact (hfirst hx).2
    · exact h.zombie_untold k z hz hx
  case zombie_one =>
    intro k l z z' hz hz' hx hx' heq
    rcases hcase hz with ⟨hk, rfl⟩ | hz <;> rcases hcase hz' with ⟨hl, rfl⟩ | hz'
    · rw [hk, hl]
    · exact absurd heq.symm ((hfirst hx).1 l z' hz' hx')
    · exact absurd heq ((hfirst hx').1 k z hz hx)
    · exact h.zombie_one k l z z' hz hz' hx hx' heq
  case handed_ended => exact h.handed_ended
  case ended_fresh => exact h.ended_fresh
  case born_fresh => exact h.born_fresh

theorem Inv.hand (h : Inv past t) (hnone : Unmarked t child) {code : UInt32}
    (hended : .ended child code ∈ past) (waiter : ℕ) (pid : ℤ) (wstatus : UInt32) :
    Inv (past ++ [.handed waiter child pid wstatus]) t where
  box_born i b hb := List.mem_append_left _ (h.box_born i b hb)
  box_alive i b hb code := by simpa using h.box_alive i b hb code
  box_one := h.box_one
  box_parent := h.box_parent
  zombie_parent := h.zombie_parent
  zombie_born k z hz := List.mem_append_left _ (h.zombie_born k z hz)
  zombie_ended k z hz := List.mem_append_left _ (h.zombie_ended k z hz)
  zombie_untold k z hz hx w p s hmem := by
    rcases mem_append.mp hmem with hold | hnew
    · exact h.zombie_untold k z hz hx w p s hold
    · simp only [mem_singleton, Event.handed.injEq] at hnew
      exact hnone k z hz hx hnew.2.1
  zombie_one := h.zombie_one
  handed_ended w c p s hmem := by
    rcases mem_append.mp hmem with hold | hnew
    · obtain ⟨code', hcode⟩ := h.handed_ended w c p s hold
      exact ⟨code', mem_append_left _ hcode⟩
    · simp only [mem_singleton, Event.handed.injEq] at hnew
      exact ⟨code, by simp [hnew.2.1, hended]⟩
  ended_fresh s code hmem := h.ended_fresh s code (by simpa using hmem)
  born_fresh s q p hmem := h.born_fresh s q p (by simpa using hmem)

theorem Inv.answer (h : Inv past t) (waiter : ℕ) (a : Answer) :
    Inv (past ++ [.answered waiter a]) t where
  box_born i b hb := List.mem_append_left _ (h.box_born i b hb)
  box_alive i b hb code := by simpa using h.box_alive i b hb code
  box_one := h.box_one
  box_parent := h.box_parent
  zombie_parent := h.zombie_parent
  zombie_born k z hz := List.mem_append_left _ (h.zombie_born k z hz)
  zombie_ended k z hz := List.mem_append_left _ (h.zombie_ended k z hz)
  zombie_untold k z hz hx w p s := by simpa using h.zombie_untold k z hz hx w p s
  zombie_one := h.zombie_one
  handed_ended w c p s hmem := by
    obtain ⟨code', hcode⟩ := h.handed_ended w c p s (by simpa using hmem)
    exact ⟨code', mem_append_left _ hcode⟩
  ended_fresh s code hmem := h.ended_fresh s code (by simpa using hmem)
  born_fresh s q p hmem := h.born_fresh s q p (by simpa using hmem)

variable {w : Option Slot}

@[simp] theorem resume_zombies : (t.resume w).zombies = t.zombies := by
  cases w <;> rfl

theorem resume_within (t : Table) (w : Option Slot) : Within (t.resume w) t where
  slots i b' hb' := by
    rcases w with _ | j
    · exact ⟨b', hb', rfl, rfl, rfl⟩
    by_cases hi : i = j
    · subst hi
      simp only [Table.resume, update_self, Option.map_eq_some_iff] at hb'
      obtain ⟨b, hb, rfl⟩ := hb'
      exact ⟨b, hb, rfl, rfl, rfl⟩
    · simp only [Table.resume, update_of_ne hi] at hb'
      exact ⟨b', hb', rfl, rfl, rfl⟩
  zombies k z hz := by rwa [resume_zombies] at hz
  nextSerial := by cases w <;> rfl

theorem Within.free (h : Within t' t) (i : Slot) :
    Within (sotboxFreeSlot t' i) (sotboxFreeSlot t i) where
  slots j b' hb' := by
    by_cases hj : j = i
    · subst hj
      simp [sotboxFreeSlot] at hb'
    · simp only [sotboxFreeSlot, update_of_ne hj] at hb' ⊢
      exact h.slots j b' hb'
  zombies := h.zombies
  nextSerial := h.nextSerial

theorem Inv.unmarked (h : Inv past t) (hb : t.slots i = some b) :
    Unmarked t b.serial := by
  intro k z hz _ heq
  exact h.box_alive i b hb z.exitCode (heq ▸ h.zombie_ended k z hz)

variable {code : UInt32} {parentPid : ℤ}

theorem Inv.untold (h : Inv past t) (hb : t.slots i = some b) {waiter : ℕ}
    {wstatus : UInt32} : .handed waiter b.serial pid wstatus ∉ past := by
  intro hmem
  obtain ⟨code, hcode⟩ := h.handed_ended _ _ _ _ hmem
  exact h.box_alive i b hb code hcode

theorem Unmarked.record (h : Unmarked t serial) (b : Box) (pid : ℤ) (code : UInt32)
    (parentPid : ℤ) :
    Unmarked (sotboxRecordExitP t b pid code parentPid true) serial := by
  intro k z hz hx
  by_cases hk : k = recordPlace t
  · subst hk
    simp only [sotboxRecordExitP, update_self, Option.some.injEq] at hz
    subst hz
    cases hx
  · exact h k z (by simpa [sotboxRecordExitP, hk] using hz) hx

theorem ppid_eq {p : Slot} (h : b.ppid = toId p) : b.parentSlot = some p := by
  unfold Box.ppid at h
  rcases hslot : b.parentSlot with _ | q
  · rw [hslot] at h
    exact absurd h toId_pos.ne
  · rw [hslot] at h
    exact congrArg some (toId_injective h)

theorem Inv.parent_left (h : Inv past t) (hb : t.slots i = some b)
    (hpid : parentPid = b.ppid ∨ parentPid = 0) (p : Slot) (c : Box) (hp : parentPid = toId p)
    (hc : (sotboxFreeSlot (t.resume w) i).slots p = some c) : b.parent = some c.serial := by
  obtain ⟨c', hc', hserial, -⟩ := ((resume_within t w).free i).slots p c hc
  rcases hpid with hpid | hpid
  · rw [hserial]
    refine h.box_parent p i c' b hb (ppid_eq (hpid ▸ hp)) ?_
    by_cases hpi : p = i
    · simp [sotboxFreeSlot, hpi] at hc'
    · simpa [sotboxFreeSlot, hpi] using hc'
  · exact absurd (hpid.symm.trans hp) toId_pos.ne

theorem Inv.buried (h : Inv past t) (hb : t.slots i = some b) (code : UInt32)
    (w : Option Slot) (extra : Bool) (hpid : parentPid = b.ppid ∨ parentPid = 0) :
    Inv (past ++ [.ended b.serial code])
      (sotboxRecordExitP (sotboxFreeSlot (t.resume w) i) b (toId i) code parentPid extra) := by
  have hfree := (h.finish hb code).within ((resume_within t w).free i)
  apply hfree.record
  · exact mem_append_left _ (h.box_born i b hb)
  · simp
  · exact h.parent_left hb hpid
  · intro _
    refine ⟨fun k z hz => ?_, fun waiter pid wstatus => ?_⟩
    · exact h.unmarked hb k z (by simpa [sotboxFreeSlot] using hz)
    · simpa using h.untold hb

theorem Inv.buried_unmarked (h : Inv past t) (hb : t.slots i = some b) :
    Unmarked (sotboxRecordExitP (sotboxFreeSlot (t.resume w) i) b (toId i) code parentPid true)
      b.serial := by
  apply Unmarked.record
  intro k z hz
  exact h.unmarked hb k z (by simpa [sotboxFreeSlot] using hz)

def Kept (past : List Event) (r : Table × List Event) : Prop :=
  Along Right past r.2 ∧ Inv (past ++ r.2) r.1

theorem Inv.wakes_parent (h : Inv past t) (hb : t.slots i = some b)
    (hawait : AwaitedByParent t i b) {c : Box}
    (hc : (waiterFor t (toId i) b.ppid).bind t.slots = some c) : b.parent = some c.serial := by
  obtain ⟨j, hj, hslot⟩ := Option.bind_eq_some_iff.mp hc
  refine h.box_parent j i c b hb ?_ hslot
  obtain ⟨hexact, hany⟩ := hawait j c hslot
  rcases Option.or_eq_some_iff.mp hj with hfirst | ⟨-, hfirst⟩
  · have hwaits := first_some hfirst
    rw [hslot, Option.any_some, decide_eq_true_eq] at hwaits
    exact hexact hwaits
  -- a sotbox that waits for any child is asked for its pid, unless the parent is unknown
  · have hwaits := first_some hfirst
    rw [hslot, Option.any_some, decide_eq_true_eq] at hwaits
    obtain ⟨hwaits, hzero | hpid⟩ := hwaits
    · refine absurd hwaits (hany ?_)
      rcases hp : b.parentSlot with _ | p
      · rfl
      · rw [Box.ppid, hp] at hzero
        exact absurd hzero.symm toId_pos.ne
    · exact ppid_eq hpid.symm

theorem Inv.exit (h : Inv past t) (hb : t.slots i = some b)
    (hawait : AwaitedByParent t i b) {code : UInt32} (h' : Inv (past ++ [.ended b.serial code]) t')
    (hnone : (waiterFor t (toId i) b.ppid).isSome → Unmarked t' b.serial) :
    Kept past (t', .ended b.serial code ::
      told t (waiterFor t (toId i) b.ppid) b (toId i) code) := by
  have hwake := fun c => h.wakes_parent hb hawait (c := c)
  unfold told
  generalize waiterFor t (toId i) b.ppid = waiter at hwake hnone ⊢
  rcases hw : waiter.bind t.slots with _ | w
  · exact ⟨⟨trivial, trivial⟩, h'⟩
  have hparent := hwake w hw
  have hsome : waiter.isSome := by
    cases waiter with
    | none => cases hw
    | some j => rfl
  have hborn := h.box_born i b hb
  rw [hparent] at hborn
  refine ⟨⟨trivial, ⟨mem_append_left _ hborn, ⟨code, by simp, rfl⟩, ?_⟩, trivial⟩, ?_⟩
  · intro waiter' pid' wstatus'
    simpa using h.untold hb
  · have hended : .ended b.serial code ∈ past ++ [Event.ended b.serial code] := by simp
    have hhand := h'.hand (hnone hsome) hended w.serial (toId i) (wstatusOf code)
    rwa [append_assoc] at hhand

theorem exitGroup_kept (h : Inv past t) (hb : t.slots i = some b)
    (hawait : AwaitedByParent t i b) : Kept past (exitGroup t i b code) := by
  apply h.exit hb hawait (h.buried hb code _ _ (.inl rfl))
  intro hsome
  rw [hsome]
  exact h.buried_unmarked hb

theorem resume_record {extra : Bool} : (sotboxRecordExitP t b pid code parentPid extra).resume w =
      sotboxRecordExitP (t.resume w) b pid code parentPid extra := by
  cases w <;> rfl

theorem lucasSysKill_kept (h : Inv past t) (hb : t.slots i = some b)
    {caller : Slot} {signo : UInt32}
    (hawait : isTerminating signo = true → AwaitedByParent t i b) :
    Kept past (lucasSysKill t caller i b signo) := by
  unfold lucasSysKill
  by_cases hterm : isTerminating signo = true
  · simp only [if_pos hterm, resume_record]
    have hone := h.buried hb (128 + signo) (waiterFor t (toId i) b.ppid)
      (waiterFor t (toId i) b.ppid).isSome (.inl rfl)
    have hmark : (waiterFor t (toId i) b.ppid).isSome →
        Unmarked (sotboxRecordExitP (sotboxFreeSlot (t.resume (waiterFor t (toId i) b.ppid)) i)
          b (toId i) (128 + signo) b.ppid (waiterFor t (toId i) b.ppid).isSome)
          b.serial := by
      intro hsome
      rw [hsome]
      exact h.buried_unmarked hb
    by_cases hself : caller = i
    · simp only [if_pos hself]
      refine h.exit hb (hawait hterm) ?_ fun hsome => (hmark hsome).record b _ _ _
      exact hone.record b.ppid (mem_append_left _ (h.box_born i b hb)) (by simp)
        (h.parent_left hb (.inl rfl)) nofun
    · simp only [if_neg hself]
      exact h.exit hb (hawait hterm) hone hmark
  · rw [if_neg hterm]
    exact ⟨trivial, by simpa using h⟩

theorem recorded_kept (h : Inv past t) (hb : t.slots i = some b)
    (hpid : parentPid = b.ppid ∨ parentPid = 0) :
    Kept past (sotboxFreeSlot (sotboxRecordExitP t b (toId i) code parentPid false) i,
      [.ended b.serial code]) :=
  ⟨⟨trivial, trivial⟩, h.buried hb code none false hpid⟩

theorem sotboxAllocSlot_free (h : sotboxAllocSlot t = some i) : t.slots i = none := by
  simpa using first_some h

theorem clearZombie_within (t : Table) (pid : ℤ) : Within (sotboxClearZombie t pid) t where
  slots _ b hb := ⟨b, hb, rfl, rfl, rfl⟩
  zombies _ _ hz := (Option.filter_eq_some_iff.mp hz).1
  nextSerial := rfl

theorem sotboxSpawn_kept (h : Inv past t) (hun : Unnamed t) : Kept past (sotboxSpawn t) := by
  unfold sotboxSpawn
  cases halloc : sotboxAllocSlot t with
  | none => exact ⟨trivial, by simpa using h⟩
  | some i =>
    obtain ⟨hboxes, hzombies⟩ := hun i halloc
    exact ⟨⟨trivial, trivial⟩, h.place (sotboxAllocSlot_free halloc) hboxes hzombies nofun⟩

theorem sotboxFork_kept (h : Inv past t) (hun : Unnamed t) {p : Slot} {parent : Box}
    (hp : t.slots p = some parent) (ok : Bool) :
    Kept past (sotboxFork t p parent ok) := by
  unfold sotboxFork
  rcases halloc : sotboxAllocSlot t with _ | i
  · exact ⟨trivial, by simpa using h⟩
  have hclear := h.within (clearZombie_within t (toId i))
  cases ok with
  | true =>
    obtain ⟨hboxes, hzombies⟩ := hun i halloc
    refine ⟨⟨trivial, trivial⟩, hclear.place (sotboxAllocSlot_free halloc) hboxes ?_ ?_⟩
    · exact fun k z hz => hzombies k z ((clearZombie_within t (toId i)).zombies k z hz)
    · intro q hq
      obtain rfl := Option.some.inj hq
      exact ⟨parent, hp, rfl⟩
  | false => exact ⟨trivial, by simpa using hclear⟩

theorem foundZombie_some (h : foundZombie t i pid = some (k, z)) :
    t.zombies k = some z ∧ (pid = -1 ∨ z.pid = pid) ∧
      (z.parentPid = 0 ∨ z.parentPid = toId i) := by
  obtain ⟨k', hfirst, hk'⟩ := Option.bind_eq_some_iff.mp h
  obtain ⟨z', hz', heq⟩ := Option.map_eq_some_iff.mp hk'
  obtain ⟨rfl, rfl⟩ := Prod.mk.inj heq
  have hreap := first_some hfirst
  rw [hz', Option.any_some, Zombie.reapable, decide_eq_true_eq] at hreap
  exact ⟨hz', hreap.1, hreap.2.resolve_left toId_pos.ne'⟩

theorem Inv.finds_own (h : Inv past t) (hb : t.slots i = some b) (hsound : ZombiesSound t i pid)
    (hfound : foundZombie t i pid = some (k, z)) :
    t.zombies k = some z ∧ z.parent = some b.serial ∧ z.extra = false := by
  obtain ⟨hz, hpid, hparent⟩ := foundZombie_some hfound
  obtain ⟨hknown, hextra⟩ := hsound k z hz hpid
  have hown := hparent.resolve_left hknown
  exact ⟨hz, h.zombie_parent i k b z hz hown hb, hextra hown⟩

theorem Inv.hasChild (h : Inv past t) (hz : t.zombies k = some z)
    (hp : z.parent = some serial) (hx : z.extra = false) : HasChild past serial :=
  ⟨z.serial, z.pid, hp ▸ h.zombie_born k z hz, .inr (h.zombie_untold k z hz hx)⟩

theorem buryZombie_within (t : Table) (k : Grave) :
    Within { t with zombies := update t.zombies k none } t where
  slots _ b hb := ⟨b, hb, rfl, rfl, rfl⟩
  zombies l z hz := by
    by_cases hl : l = k
    · subst hl
      simp at hz
    · simpa [hl] using hz
  nextSerial := rfl

theorem park_within (hb : t.slots i = some b) :
    Within { t with slots := update t.slots i (some { b with waitingFor := some pid }) }
      t where
  slots j b' hb' := by
    by_cases hj : j = i
    · subst hj
      simp only [update_self, Option.some.injEq] at hb'
      subst hb'
      exact ⟨b, hb, rfl, rfl, rfl⟩
    · simp only [update_of_ne hj] at hb'
      exact ⟨b', hb', rfl, rfl, rfl⟩
  zombies _ _ hz := hz
  nextSerial := rfl

theorem waitForExit_within (hb : t.slots i = some b) (pid : ℤ) (nohang cspaceOk : Bool) :
    Within (waitForExit t i b pid nohang cspaceOk).1 t := by
  have hrefl : Within t t := ⟨fun _ b hb => ⟨b, hb, rfl, rfl, rfl⟩, fun _ _ hz => hz, rfl⟩
  unfold waitForExit
  split_ifs <;> first | exact hrefl | exact park_within hb

theorem waitForExit_echild {nohang cspaceOk : Bool} (h : ¬ sotboxHasChildren t i) :
    (waitForExit t i b pid nohang cspaceOk).2 = .echild := by
  rw [waitForExit, if_pos h]

theorem Solitary.no_children (h : Solitary t i) : ¬ sotboxHasChildren t i := by
  rintro (⟨k, hk⟩ | ⟨j, hj, hsome⟩)
  · simp [h.1 k] at hk
  · simp [h.2 j hj] at hsome

theorem lucasSysWait4_kept (h : Inv past t) (hb : t.slots i = some b)
    {synth : Bool} (hsound : ZombiesSound t i pid)
    (hchild : HasChild past b.serial ∨ synth = false ∧ Solitary t i)
    (nohang copyOk cspaceOk : Bool) :
    Kept past (lucasSysWait4 t i b pid nohang synth copyOk cspaceOk) := by
  unfold lucasSysWait4
  by_cases hsynth : synthWait t pid synth
  · rw [if_pos hsynth]
    have hhas := hchild.resolve_right fun hno => by simp [synthWait, hno.1] at hsynth
    exact ⟨⟨fun _ => hhas, trivial⟩, h.answer _ _⟩
  rw [if_neg hsynth]
  rcases hfound : foundZombie t i pid with _ | ⟨k, z⟩
  · exact ⟨⟨fun hne => hchild.resolve_right fun hno =>
      hne (waitForExit_echild hno.2.no_children), trivial⟩,
      (h.within (waitForExit_within hb pid nohang cspaceOk)).answer _ _⟩
  obtain ⟨hz, hparent, hextra⟩ := h.finds_own hb hsound hfound
  have hbury := h.within (buryZombie_within t k)
  cases copyOk with
  | false => exact ⟨⟨fun _ => h.hasChild hz hparent hextra, trivial⟩, hbury.answer _ _⟩
  | true =>
    refine ⟨⟨⟨hparent ▸ h.zombie_born k z hz, ⟨z.exitCode, h.zombie_ended k z hz, rfl⟩,
      h.zombie_untold k z hz hextra⟩, trivial⟩, ?_⟩
    refine hbury.hand (fun l z' hz' hx' heq => ?_) (h.zombie_ended k z hz) _ _ _
    -- the only other zombie of this exit that may be handed over is the one taken out
    have hold := (buryZombie_within t k).zombies l z' hz'
    have hl : l = k := h.zombie_one l k z' z hold hz hx' hextra heq
    subst hl
    simp at hz'

abbrev Exchange := Entry Table Input (List Event)

def logOf (es : List Exchange) : List Event := es.flatMap fun e => e.reply

theorem step_kept (h : Inv past t) {i : Input} (hkin : Kin past t i) :
    Kept past (step t i) := by
  have hbox : ∀ (s : Slot) (f : Box → Table × List Event),
      (∀ b, t.slots s = some b → Kept past (f b)) → Kept past (onBox t s f) := by
    intro s f hf
    unfold onBox
    cases hs : t.slots s with
    | none => exact ⟨trivial, by simpa using h⟩
    | some b => exact hf b hs
  cases i with
  | spawn => exact sotboxSpawn_kept h hkin
  | fork p ok => exact hbox p _ fun b hb => sotboxFork_kept h hkin hb ok
  | exitGroup s code => exact hbox s _ fun b hb => exitGroup_kept h hb (hkin b hb)
  | fatal s code => exact hbox s _ fun b hb => recorded_kept h hb (.inl rfl)
  | kill caller s signo =>
    exact hbox s _ fun b hb => lucasSysKill_kept h hb fun hterm => hkin hterm b hb
  | teardown s code => exact hbox s _ fun b hb => recorded_kept h hb (.inr rfl)
  | drop s => exact hbox s _ fun b hb => ⟨⟨trivial, trivial⟩, h.finish hb 0⟩
  | wait4 s pid nohang synth copyOk cspaceOk =>
    exact hbox s _ fun b hb =>
      lucasSysWait4_kept h hb (hkin b hb).1 (hkin b hb).2 nohang copyOk cspaceOk

def KinSo (past : List Exchange) (e : Exchange) : Prop := Kin (logOf past) e.pre e.input

instance (past : List Exchange) (e : Exchange) : Decidable (KinSo past e) :=
  inferInstanceAs (Decidable (Kin _ _ _))

theorem Inv.right {inputs : List Input} {past : List Exchange} (h : Inv (logOf past) t)
    (hkin : Along KinSo past (trace step t inputs)) :
    Along Right (logOf past) (logOf (trace step t inputs)) := by
  induction inputs generalizing past t with
  | nil => exact trivial
  | cons i inputs ih =>
    obtain ⟨hi, hrest⟩ := hkin
    obtain ⟨hnow, hinv⟩ := step_kept h hi
    have hlog : logOf (past ++ [entry step t i]) = logOf past ++ (step t i).2 := by
      simp [logOf, entry]
    have hlater := ih (hlog ▸ hinv) hrest
    rw [hlog] at hlater
    exact along_append.mpr ⟨hnow, hlater⟩

/-- In every run clear of the cases above a process is told of its own children only, once each and
with the exit code, and is refused when it has none. -/
theorem waits_right (inputs : List Input)
    (hkin : Along KinSo [] (trace step Table.start inputs)) :
    Along Right [] (logOf (trace step Table.start inputs)) := by
  have hstart : Inv (logOf []) Table.start := inv_start
  exact hstart.right hkin

def plainWaits : List Input :=
  [.spawn, .spawn, .fork 0 true, .fork 1 true, .wait4 0 (-1) false false true true,
    .wait4 1 (-1) false false true true, .exitGroup 3 7, .exitGroup 2 3, .fork 0 true,
    .exitGroup 2 4, .wait4 0 3 false false true true]

theorem plain_waits_right : Along Right [] (logOf (trace step Table.start plainWaits)) ∧
      logOf (trace step Table.start plainWaits) =
        [.born 0 none 1, .born 1 none 2, .born 2 (some 0) 3, .born 3 (some 1) 4,
          .answered 0 .parked, .answered 1 .parked, .ended 3 7, .handed 1 3 4 0x700, .ended 2 3,
          .handed 0 2 3 0x300, .born 4 (some 0) 3, .ended 4 4, .handed 0 4 3 0x400] :=
  ⟨waits_right plainWaits (by decide +kernel), by decide +kernel⟩

def waitsAgain : List Input :=
  [.spawn, .fork 0 true, .wait4 0 (-1) false false true true, .exitGroup 1 3,
    .wait4 0 (-1) false false true true]

theorem child_reported_twice : ¬ Along Right [] (logOf (trace step Table.start waitsAgain)) := by
  have hlog : logOf (trace step Table.start waitsAgain) =
      [.born 0 none 1, .born 1 (some 0) 2, .answered 0 .parked, .ended 1 3, .handed 0 1 2 768,
        .handed 0 1 2 768] := by
    decide +kernel
  rw [hlog]
  rintro ⟨-, -, -, -, -, hagain, -⟩
  exact hagain.2.2 0 2 768 (by decide)

end SotOs.Orch.Wait
