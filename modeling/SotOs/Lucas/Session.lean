import SotOs.Sotfs.Graph

/-! The side tables of an SSH session: who owns an inode and what the session has been charged
(`src/lucas/sotfs_session.c`), and the overlay that takes its writes to files it does not own
(`src/lucas/cow_overlay.c`). -/

namespace SotOs.Lucas
open Sotfs Function Slots Option

def sessMax : ℕ := 16
def sessCapBytes : ℕ := 192 * 1024 * 1024

structure Account where
  session : UInt32
  bytes : ℕ

/-- The owner of each inode slot, `0` for the base, and the charges. The owner of a slot outlives
the inode in it. -/
structure Sessions where
  owner : Fin maxInodes → UInt32
  acct : Fin sessMax → Option Account

def sessionInit : Sessions := ⟨fun _ => 0, fun _ => none⟩

def sessionOwner (s : Sessions) (inodeId : ℤ) : UInt32 :=
  match ofId maxInodes inodeId with
  | none => 0
  | some i => s.owner i

def sessionTag (s : Sessions) (inodeId : ℤ) (session : UInt32) : Sessions :=
  match ofId maxInodes inodeId with
  | none => s
  | some i => { s with owner := update s.owner i session }

def sessionVisible (s : Sessions) (inodeId : ℤ) (caller : UInt32) : Bool :=
  let owner := sessionOwner s inodeId
  owner == 0 || (caller != 0 && owner == caller)

def sessionClear (s : Sessions) (session : UInt32) : Sessions :=
  if session = 0 then s
  else
    { owner := fun i => if s.owner i = session then 0 else s.owner i
      acct := fun k => (s.acct k).filter fun a => a.session != session }

def acctFind (s : Sessions) (session : UInt32) : Option (Fin sessMax) :=
  first fun k => (s.acct k).any fun a => a.session == session

def acctOpen (s : Sessions) (session : UInt32) : Option (Fin sessMax × ℕ) :=
  match acctFind s session with
  | some k => some (k, ((s.acct k).map Account.bytes).getD 0)
  | none => (first fun k => (s.acct k).isNone).map fun k => (k, 0)

def sessionCharge (s : Sessions) (session : UInt32) (bytes : ℕ) : Sessions × ℤ :=
  if session = 0 then (s, 0)
  else match acctOpen s session with
    | none => (s, -28)
    | some (k, charged) =>
      -- the account stays open even when the charge is refused
      if sessCapBytes < bytes ∨ sessCapBytes - bytes < charged then
        ({ s with acct := update s.acct k (some ⟨session, charged⟩) }, -28)
      else ({ s with acct := update s.acct k (some ⟨session, charged + bytes⟩) }, 0)

def sessionUncharge (s : Sessions) (session : UInt32) (bytes : ℕ) : Sessions :=
  match acctFind s session with
  | none => s
  | some k =>
    let refund := (s.acct k).map fun a => { a with bytes := a.bytes - bytes }
    { s with acct := update s.acct k refund }

def sessionBytes (s : Sessions) (session : UInt32) : ℕ :=
  match acctFind s session with
  | none => 0
  | some k => ((s.acct k).map Account.bytes).getD 0

def cowMaxEntries : ℕ := 16
def cowMaxPath : ℕ := 96
def cowMaxBytes : ℕ := 64 * 1024

structure CowEntry where
  session : UInt32
  path : List UInt8
  data : List UInt8

abbrev Cow := Fin cowMaxEntries → Option CowEntry

def cowFind (c : Cow) (session : UInt32) (path : List UInt8) : Option (Fin cowMaxEntries) :=
  first fun i => (c i).any fun e => e.session == session && e.path == path

def cowRead (c : Cow) (session : UInt32) (path : List UInt8) : Option (List UInt8) :=
  (cowFind c session path).bind fun i => (c i).map CowEntry.data

def cowWrite (c : Cow) (session : UInt32) (path data : List UInt8) : Cow × ℤ :=
  if cowMaxBytes < data.length then (c, -28)
  else
    let slot := match cowFind c session path with
      | some i => some i
      | none => first fun i => (c i).isNone
    match slot with
    | none => (c, -28)
    | some i => (update c i (some ⟨session, path.take (cowMaxPath - 1), data⟩), 0)

def cowTruncate (c : Cow) (session : UInt32) (path : List UInt8) (newlen : ℕ) : Cow × ℤ :=
  match cowFind c session path with
  | none => (c, 0)
  | some i =>
    if cowMaxBytes < newlen then (c, -28)
    else
      (update c i ((c i).map fun e =>
        { e with data := e.data.take newlen ++ List.replicate (newlen - e.data.length) 0 }), 0)

variable {s : Sessions} {session : UInt32} {id : ℤ}

theorem sessionOwner_tag {i : Fin maxInodes} : sessionOwner (sessionTag s (toId i) session) id =
      if id = toId i then session else sessionOwner s id := by
  unfold sessionTag sessionOwner
  rw [ofId_toId]
  cases hk : ofId maxInodes id with
  | none =>
    have hne : id ≠ toId i := by
      rintro rfl
      rw [ofId_toId] at hk
      cases hk
    rw [if_neg hne]
  | some k =>
    obtain rfl := ofId_eq_some hk
    by_cases hki : k = i
    · rw [hki, if_pos rfl]
      exact update_self ..
    · rw [if_neg fun h => hki (toId_injective h)]
      exact update_of_ne hki ..

variable {bytes : ℕ}

@[simp] theorem sessionOwner_charge :
    sessionOwner (sessionCharge s session bytes).1 id = sessionOwner s id := by
  unfold sessionCharge
  split_ifs
  · rfl
  · cases acctOpen s session with
    | none => rfl
    | some kb =>
      simp only
      split_ifs <;> rfl

@[simp] theorem sessionOwner_uncharge :
    sessionOwner (sessionUncharge s session bytes) id = sessionOwner s id := by
  unfold sessionUncharge
  cases acctFind s session <;> rfl

theorem sessionBytes_clear {session : UInt32} (hsession : session ≠ 0) {t : UInt32} :
    sessionBytes (sessionClear s session) t = if t = session then 0 else sessionBytes s t := by
  unfold sessionClear
  rw [if_neg hsession]
  split_ifs with ht
  · have hnone : acctFind
        ⟨fun i => if s.owner i = session then 0 else s.owner i,
          fun k => (s.acct k).filter fun a => a.session != session⟩ t = none := by
      apply first_eq_none
      intro k
      simp only
      cases s.acct k with
      | none => rfl
      | some a => by_cases ha : a.session = session <;> simp [filter_some, ha, ht]
    rw [sessionBytes, hnone]
  · have hslot : ∀ k, ((s.acct k).filter fun a => a.session != session).any
        (fun a => a.session == t) = (s.acct k).any fun a => a.session == t := by
      intro k
      rcases hk : s.acct k with _ | a
      · rfl
      by_cases ha : a.session = session
      · simp [filter_some, ha, Ne.symm ht]
      · simp [filter_some, ha]
    have hfind : acctFind
        ⟨fun i => if s.owner i = session then 0 else s.owner i,
          fun k => (s.acct k).filter fun a => a.session != session⟩ t = acctFind s t :=
      first_congr hslot
    unfold sessionBytes
    rw [hfind]
    rcases hk : acctFind s t with _ | k
    · rfl
    have hmine : (s.acct k).any (fun a => a.session == t) = true := first_some hk
    cases ha : s.acct k with
    | none => simp [ha] at hmine
    | some a =>
      have hat : a.session = t := by simpa [ha] using hmine
      have hkeep : ((some a).filter fun a : Account => a.session != session) = some a :=
        filter_some_pos (by simpa [hat] using ht)
      simp only [ha, hkeep]

end SotOs.Lucas
