import SotOs.Lucas.Reap

/-! What a session is charged; an unlink looks up the number of the directory entry, and not that of
the file behind it. -/

namespace SotOs.Lucas
open Sotfs Machine Function Slots Option

variable {s : Sessions} {k : Fin sessMax} {root : ℤ} {path : List UInt8} {env : Env}

theorem acctFind_some {session : UInt32} (h : acctFind s session = some k) :
    ∃ a, s.acct k = some a ∧ a.session = session := by
  have hk := first_some h
  cases ha : s.acct k with
  | none => simp [ha] at hk
  | some a => exact ⟨a, rfl, by simpa [ha] using hk⟩

variable {bytes : ℕ} {t : UInt32}

theorem sessionBytes_update {session : UInt32}
    (hk : acctFind s session = some k ∨ acctFind s session = none ∧ s.acct k = none) :
    sessionBytes { s with acct := update s.acct k (some ⟨session, bytes⟩) } t =
      if t = session then bytes else sessionBytes s t := by
  set s' : Sessions := { s with acct := update s.acct k (some ⟨session, bytes⟩) } with hs'
  have hself : s'.acct k = some ⟨session, bytes⟩ := update_self ..
  have hother : ∀ j, j ≠ k → s'.acct j = s.acct j := fun j hj => update_of_ne hj ..
  split_ifs with ht
  · have hfind : acctFind s' t = some k := by
      rw [ht]
      apply first_eq_of_min
      · simp [hself]
      · intro j hj
        rw [hother j (ne_of_lt hj)]
        rcases hk with hk | ⟨hk, -⟩
        · exact first_min hk hj
        · exact first_none hk j
    rw [sessionBytes, hfind]
    simp [hself]
  · have hmiss : (s.acct k).any (fun a => a.session == t) = false := by
      rcases hk with hk | ⟨-, hk⟩
      · obtain ⟨a, ha, rfl⟩ := acctFind_some hk
        simpa [ha] using Ne.symm ht
      · rw [hk]
        rfl
    have hfind : acctFind s' t = acctFind s t := by
      apply first_congr
      intro j
      by_cases hj : j = k
      · rw [hj, hself, hmiss]
        simpa using Ne.symm ht
      · rw [hother j hj]
    rw [sessionBytes, sessionBytes, hfind]
    rcases hj : acctFind s t with _ | j
    · rfl
    have hjk : j ≠ k := by
      rintro rfl
      rw [first_some hj] at hmiss
      cases hmiss
    simp only [hother j hjk]

theorem sessionBytes_uncharge {session : UInt32} :
    sessionBytes (sessionUncharge s session bytes) t =
      if t = session then sessionBytes s session - bytes else sessionBytes s t := by
  unfold sessionUncharge
  rcases hk : acctFind s session with _ | k
  · split_ifs with ht
    · rw [ht, sessionBytes, hk, Nat.zero_sub]
    · rfl
  obtain ⟨a, ha, rfl⟩ := acctFind_some hk
  have hcharged : sessionBytes s a.session = a.bytes := by
    rw [sessionBytes, hk]
    simp only [ha, map_some, getD_some]
  simp only [ha, map_some]
  rw [sessionBytes_update (.inl hk), hcharged]

/-- The path names a file: the entry in place `k` of the directory `p` leads to the inode in slot
`c`. -/
structure FileAt (g : Graph) (root : ℤ) (path : List UInt8) where
  p : ℤ
  leaf : Name
  k : Fin maxEdges
  c : Fin maxInodes
  n : Inode
  named : named g root path = some (p, leaf)
  dir : checkDir g p = none
  found : findEdge g p leaf = some k
  edge : g.edges k = some ⟨p, toId c, leaf⟩
  inode : g.inodes c = some n
  file : n.kind = .file

structure UnlinkContained (session : UInt32) {root : ℤ} {path : List UInt8} {s : Fs}
    (f : FileAt s.graph root path) (s' : Fs) (r : Reply) : Prop where
  owned : sessionOwner s.sessions (toId f.c) = session → s'.graph.edges f.k = none ∧
    sessionBytes s.sessions session = sessionBytes s'.sessions session + f.n.size
  other : sessionOwner s.sessions (toId f.c) ≠ session →
    r = .code 0 ∧ s'.graph = s.graph ∧ s'.sessions = s.sessions

theorem FileAt.unlink_eq {g : Graph} (f : FileAt g root path) :
    unlink g f.p f.leaf = (dropLink (g.setEdge f.k none) f.c, .ok ()) := by
  have hlookup : lookupChild g f.p f.leaf = .ok (f.k, f.c) := by
    unfold lookupChild
    rw [f.dir, f.found]
    simp only [f.edge, ofId_toId]
  have hkind : (g.inodes f.c).map (·.kind) ≠ some .dir := by
    rw [f.inode, map_some, f.file]
    decide
  rw [unlink, if_neg (named_ne_nil f.named), hlookup]
  simp only [if_neg hkind]

theorem unlinkRoot_contained (hiso : env.isolated = true) (hsession : env.session ≠ 0) {s : Fs}
    {f : FileAt s.graph root path} : (sessionOwner s.sessions (toId f.k) ≠ env.session ∧
      unlinkRoot env root path s = (s, .code 0)) ∨
    (sessionOwner s.sessions (toId f.k) = env.session ∧
      (unlinkRoot env root path s).1.graph.edges f.k = none ∧
      (∀ t, sessionBytes (unlinkRoot env root path s).1.sessions t = if t = env.session then
        sessionBytes s.sessions env.session - sizeAt s.graph (toId f.k)
        else sessionBytes s.sessions t)) := by
  obtain ⟨⟨parent, leaf⟩, hsplit, hres⟩ := bind_eq_some_iff.mp f.named
  obtain ⟨p, hres, heq⟩ := map_eq_some_iff.mp hres
  obtain ⟨rfl, rfl⟩ := Prod.mk.inj heq
  have hcontained : (env.isolated && env.session != 0) = true := by simp [hiso, hsession]
  have hdropped : (env.isolated && env.session == 0) = false := by simp [hsession]
  unfold unlinkRoot
  rw [hdropped, hsplit]
  simp only [Bool.false_eq_true, if_false, hres, hcontained, Bool.true_and, f.found,
    isNone_some, map_some, getD_some, if_true]
  by_cases hmine : sessionOwner s.sessions (toId f.k) = env.session
  · refine .inr ⟨hmine, ?_⟩
    simp only [hmine, bne_self_eq_false, Bool.false_eq_true, if_false, f.unlink_eq,
      logUnlessSession_graph, logUnlessSession_sessions]
    refine ⟨?_, fun t => ?_⟩
    · rw [dropLink_edges]
      exact update_self ..
    · split_ifs with hcredit ht ht
      · rw [sessionBytes_uncharge, if_pos ht]
      · rw [sessionBytes_uncharge, if_neg ht]
      · rw [ht, not_not.mp hcredit, Nat.sub_zero]
      · rfl
  · refine .inl ⟨hmine, ?_⟩
    rw [if_pos (by simpa using hmine)]

theorem unlinkRoot_missed (hiso : env.isolated = true) (hsession : env.session ≠ 0) {s : Fs}
    (f : FileAt s.graph root path) (howned : sessionOwner s.sessions (toId f.c) = env.session)
    (hmiss : sessionOwner s.sessions (toId f.k) ≠ env.session) :
    unlinkRoot env root path s = (s, .code 0) ∧
      ¬UnlinkContained env.session f (unlinkRoot env root path s).1 (unlinkRoot env root path s).2 := by
  have heq := ((unlinkRoot_contained hiso hsession).resolve_right fun h => hmiss h.1).2
  refine ⟨heq, fun h => ?_⟩
  have hgone := (h.owned howned).1
  rw [heq, f.edge] at hgone
  cases hgone

/-- A session's unlink is as it should be exactly if the inode numbered like the directory entry has
the file's owner, as far as this session goes, and the file's size is refunded. -/
theorem session_unlink_iff {env : Env} (hiso : env.isolated = true) (hsession : env.session ≠ 0)
    {root : ℤ} {path : List UInt8} {s : Fs} (f : FileAt s.graph root path) :
    UnlinkContained env.session f (unlinkRoot env root path s).1 (unlinkRoot env root path s).2 ↔
      (sessionOwner s.sessions (toId f.k) = env.session ↔
        sessionOwner s.sessions (toId f.c) = env.session) ∧
      (sessionOwner s.sessions (toId f.c) = env.session →
        min (sessionBytes s.sessions env.session) (sizeAt s.graph (toId f.k)) = f.n.size) := by
  rcases unlinkRoot_contained hiso hsession with ⟨hmiss, heq⟩ | ⟨hmine, hgone, hbytes⟩
  · constructor
    · intro h
      have hother : sessionOwner s.sessions (toId f.c) ≠ env.session := fun howned =>
        (unlinkRoot_missed hiso hsession f howned hmiss).2 h
      exact ⟨iff_of_false hmiss hother, fun howned => absurd howned hother⟩
    · rintro ⟨hsame, -⟩
      rw [heq]
      exact ⟨fun howned => absurd (hsame.mpr howned) hmiss, fun _ => ⟨rfl, rfl, rfl⟩⟩
  · have hrefund := hbytes env.session
    rw [if_pos rfl] at hrefund
    constructor
    · intro h
      have howned : sessionOwner s.sessions (toId f.c) = env.session := by
        by_contra hother
        rw [(h.other hother).2.1, f.edge] at hgone
        cases hgone
      have hexact := (h.owned howned).2
      refine ⟨iff_of_true hmine howned, fun _ => ?_⟩
      omega
    · rintro ⟨hsame, hsize⟩
      have howned := hsame.mp hmine
      refine ⟨fun _ => ⟨hgone, ?_⟩, fun hother => absurd howned hother⟩
      have := hsize howned
      omega

def ownFiles : List (Env × FsOp) :=
  [(sshEnv, .open 0 pathA oCreat 0), (sshEnv, .open 0 pathB oCreat 0)]

theorem one_lt_handlePool : 1 < handlePool := by
  decide

def ownTables : Fs :=
  exec fsStep blankFs (ownFiles ++
    [(sshEnv, .write ⟨0, Nat.zero_lt_of_lt one_lt_handlePool⟩ [1, 2] 0),
      (sshEnv, .write ⟨1, one_lt_handlePool⟩ [3, 4] 0)])

def firstFile : FileAt (exec fsStep (freshFs blankImage 0) ownFiles).graph 1 pathA.bytes where
  p := 1
  leaf := [97]
  k := 0
  c := 1
  n := ((exec fsStep (freshFs blankImage 0) ownFiles).graph.inodes 1).get (by decide +kernel)
  named := by decide +kernel
  dir := by decide +kernel
  found := by decide +kernel
  edge := by decide +kernel
  inode := (Option.some_get _).symm
  file := by decide +kernel

def secondFile : FileAt ownTables.graph 1 pathB.bytes where
  p := 1
  leaf := [98]
  k := 1
  c := 2
  n := (ownTables.graph.inodes 2).get (by decide +kernel)
  named := by decide +kernel
  dir := by decide +kernel
  found := by decide +kernel
  edge := by decide +kernel
  inode := (Option.some_get _).symm
  file := by decide +kernel

theorem session_unlink_iff_refunded :
    UnlinkContained sshEnv.session secondFile (unlinkRoot sshEnv 1 pathB.bytes ownTables).1
        (unlinkRoot sshEnv 1 pathB.bytes ownTables).2 ∧
      sessionBytes ownTables.sessions sshEnv.session = 4 ∧
      sessionBytes (unlinkRoot sshEnv 1 pathB.bytes ownTables).1.sessions sshEnv.session = 2 := by
  refine ⟨(session_unlink_iff (by decide) (by decide) secondFile).mpr ⟨?_, fun _ => ?_⟩, ?_⟩
  · exact iff_of_true (by decide +kernel) (by decide +kernel)
  · decide +kernel
  · decide +kernel

theorem own_file_stays : ∃ s : Fs, s = exec fsStep (lazyInit blankImage 0) ownFiles ∧
      ∃ f : FileAt s.graph 1 pathA.bytes, sessionOwner s.sessions (toId f.c) = sshEnv.session ∧
        unlinkRoot sshEnv 1 pathA.bytes s = (s, .code 0) ∧
        ¬UnlinkContained sshEnv.session f (unlinkRoot sshEnv 1 pathA.bytes s).1
          (unlinkRoot sshEnv 1 pathA.bytes s).2 := by
  refine ⟨_, rfl, ?_⟩
  rw [boot_eq]
  have howner : sessionOwner (exec fsStep (freshFs blankImage 0) ownFiles).sessions
      (toId firstFile.c) = sshEnv.session := by decide +kernel
  have hmiss : sessionOwner (exec fsStep (freshFs blankImage 0) ownFiles).sessions
      (toId firstFile.k) ≠ sshEnv.session := by decide +kernel
  exact ⟨firstFile, howner, unlinkRoot_missed (by decide) (by decide) firstFile howner hmiss⟩

end SotOs.Lucas
