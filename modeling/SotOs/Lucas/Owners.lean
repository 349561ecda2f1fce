import SotOs.Lucas.Lifetime
import SotOs.Lucas.Reach

/-! Who owns an inode slot and who filled it. The owner map is written where a session creates and
cleared where it is reaped; the other ways to free an inode leave its owner behind. -/

namespace SotOs.Lucas
open Sotfs Machine Slots Option

def Fs.live (s : Fs) (i : Fin maxInodes) : Bool := (s.graph.inodes i).isSome

structure History where
  fs : Fs
  creator : Fin maxInodes → UInt32

def History.next (t : History) (session : UInt32) (s : Fs) : History :=
  ⟨s, fun i => if !t.fs.live i && s.live i then session else t.creator i⟩

def historyStep (t : History) (call : Env × FsOp) : History × Reply :=
  (t.next call.1.session (fsStep t.fs call).1, (fsStep t.fs call).2)

structure OwnersFresh (t : History) : Prop where
  owner : ∀ i, t.fs.sessions.owner i ≠ 0 →
    t.fs.live i = true ∧ t.creator i = t.fs.sessions.owner i
  base : ∀ i, t.fs.live i = true → t.creator i = 0 → t.fs.sessions.owner i = 0 ∧
    (∀ caller, sessionVisible t.fs.sessions (toId i) caller = true) ∧
    ∀ session, (sessionReap session t.fs).graph.inodes i = t.fs.graph.inodes i

variable {s s' : Fs} {i : Fin maxInodes} {t : History} {freed : Fin maxInodes → Prop} {env : Env}
  {path : CStr} {mountRoot : ℤ}

theorem sessionReap_inode (h : s.sessions.owner i = 0) (session : UInt32) :
    (sessionReap session s).graph.inodes i = s.graph.inodes i := by
  by_cases hsession : session = 0
  · rw [sessionReap, if_pos hsession]
  · rw [(sessionReap_reaped s hsession).inodes, if_neg]
    rw [mem_ownedSlots, h]
    exact Ne.symm hsession

theorem ownersFresh_iff : OwnersFresh t ↔ ∀ i, t.fs.sessions.owner i ≠ 0 →
    t.fs.live i = true ∧ t.creator i = t.fs.sessions.owner i := by
  refine ⟨OwnersFresh.owner, fun h => ⟨h, fun i _ hcreator => ?_⟩⟩
  have howner : t.fs.sessions.owner i = 0 := by
    by_contra hne
    exact hne ((h i hne).2.symm.trans hcreator)
  refine ⟨howner, fun caller => ?_, sessionReap_inode howner⟩
  unfold sessionVisible
  rw [sessionOwner_toId, howner]
  rfl

structure Grown (session : UInt32) (s s' : Fs) : Prop where
  live : ∀ i, s.live i = true → s'.live i = true
  owner : ∀ i, s'.sessions.owner i =
    if s.live i = false ∧ s'.live i = true ∧ session ≠ 0 then session else s.sessions.owner i

theorem Grown.of_live {session : UInt32} (hlive : ∀ i, s'.live i = s.live i)
    (howner : s'.sessions.owner = s.sessions.owner) : Grown session s s' := by
  refine ⟨fun i hi => (hlive i).trans hi, fun i => ?_⟩
  rw [howner, if_neg]
  rintro ⟨hdead, halive, -⟩
  rw [hlive, hdead] at halive
  cases halive

theorem Grown.trans {session : UInt32} {s'' : Fs} (h : Grown session s s')
    (h' : Grown session s' s'') : Grown session s s'' := by
  refine ⟨fun i hi => h'.live i (h.live i hi), fun i => ?_⟩
  rw [h'.owner, h.owner]
  have hmono := h.live i
  have hmono' := h'.live i
  cases hs : s.live i <;> cases hs' : s'.live i <;> cases hs'' : s''.live i <;> simp_all

theorem Drops.live (h : Drops freed s s') (i : Fin maxInodes) :
    s'.live i = true ↔ s.live i = true ∧ ¬freed i := by
  unfold Fs.live
  by_cases hi : freed i
  · simp [h.graph.gone i hi, hi]
  · have hstays := congrArg isSome (h.graph.stays i hi)
    rw [isSome_map, isSome_map] at hstays
    simp [hstays, hi]

theorem Quiet.grown (h : Quiet s s') (session : UInt32) : Grown session s s' := by
  apply Grown.of_live
  · intro i
    have hlive := h.live i
    simp only [not_false_eq_true, and_true] at hlive
    exact Bool.eq_iff_iff.mpr hlive
  · exact h.owner

theorem Made.grown (h : Made env i s s') : Grown env.session s s' := by
  have hdead : s.live i = false := by
    rw [Fs.live, h.dead]
    rfl
  have halive : s'.live i = true := by
    obtain ⟨n, hn, -⟩ := h.inode
    rw [Fs.live, hn]
    rfl
  have hother : ∀ k, k ≠ i → s'.live k = s.live k := by
    intro k hk
    rw [Fs.live, h.others k hk, Fs.live]
  refine ⟨?_, ?_⟩
  · intro k hk
    by_cases hki : k = i
    · rw [hki, halive]
    · rw [hother k hki, hk]
  · intro k
    rw [h.owner]
    by_cases hsession : env.session = 0
    · simp [hsession]
    · by_cases hki : k = i
      · subst hki
        simp [hsession, hdead, halive]
      · have hsame := hother k hki
        simp only [hsession, if_false, Function.update_of_ne hki, hsame]
        cases s.live k <;> simp

theorem NodeSteps.grown (h : NodeSteps env s s') : Grown env.session s s' := by
  induction h with
  | refl => exact (Quiet.refl s).grown env.session
  | tail _ hstep ih =>
    rcases hstep.quiet_or_made with hquiet | ⟨i, hmade⟩
    · exact ih.trans (hquiet.grown env.session)
    · exact ih.trans hmade.grown

theorem openAt_live (s : Fs) (path : List UInt8) (id : ℤ) (h : Fin handlePool) (i : Fin maxInodes) :
    (s.openAt path id h).live i = s.live i := by
  unfold Fs.live Fs.openAt inodeOpen
  rw [modifyInode_inodes, isSome_map]

theorem OpenDone.grown {path : List UInt8} (hd : OpenDone env path s s') :
    Grown env.session s s' := by
  cases hd with
  | steps h => exact h.grown
  | handle h id i => exact h.grown.trans (.of_live (openAt_live _ path id i) rfl)

theorem opDupHandle_grown (h : Fin handlePool) (s : Fs) (session : UInt32) :
    Grown session s (opDupHandle h s).1 := by
  unfold opDupHandle
  split
  · exact (Quiet.refl s).grown session
  split
  · exact (Quiet.refl s).grown session
  · refine .of_live (fun i => ?_) rfl
    unfold Fs.live inodeOpen
    rw [modifyInode_inodes, isSome_map]

theorem Grown.fresh {session : UInt32} (h : Grown session t.fs s) (ht : OwnersFresh t) :
    OwnersFresh (t.next session s) := by
  refine ownersFresh_iff.mpr fun i hi => ?_
  have howner := h.owner i
  have hmono := h.live i
  have hold := ht.owner i
  simp only [History.next] at hi ⊢
  rw [howner] at hi ⊢
  cases hs : t.fs.live i <;> cases hs' : s.live i <;> simp_all

inductive FreesInode (s : Fs) : Env × FsOp → Fin maxInodes → Prop
  | unlink {env mountRoot path pl i}
      (hplace : unlinkPlace env (backendRoot s.graph mountRoot) path.bytes s = some pl)
      (hfrees : Frees s.graph (.unlink pl.1 pl.2) (toId i)) :
      FreesInode s (env, .unlink mountRoot path) i
  | rmdir {env mountRoot path pl i}
      (hplace : rmdirPlace env (backendRoot s.graph mountRoot) path.bytes s = some pl)
      (hfrees : FreesDir s.graph pl.1 pl.2 i) : FreesInode s (env, .rmdir mountRoot path) i
  | rename {env mountRoot oldpath newpath pl i}
      (hplace : renamePlace env (backendRoot s.graph mountRoot) oldpath.bytes newpath.bytes s =
        some pl)
      (hfrees : Frees s.graph (.unlink pl.1 pl.2) (toId i)) :
      FreesInode s (env, .rename mountRoot oldpath newpath) i
  | close {env h i} (huse : (s.handles h).inUse = true)
      (hfrees : Frees s.graph (.inodeClose (s.handles h).inodeId) (toId i)) :
      FreesInode s (env, .close h) i

theorem freesInode_unlink : FreesInode s (env, .unlink mountRoot path) i ↔
      ∃ pl, unlinkPlace env (backendRoot s.graph mountRoot) path.bytes s = some pl ∧
        Frees s.graph (.unlink pl.1 pl.2) (toId i) := by
  constructor
  · rintro ⟨⟩
    exact ⟨_, ‹_›, ‹_›⟩
  · rintro ⟨pl, hplace, hfrees⟩
    exact .unlink hplace hfrees

theorem freesInode_rmdir : FreesInode s (env, .rmdir mountRoot path) i ↔
      ∃ pl, rmdirPlace env (backendRoot s.graph mountRoot) path.bytes s = some pl ∧
        FreesDir s.graph pl.1 pl.2 i := by
  constructor
  · rintro ⟨⟩
    exact ⟨_, ‹_›, ‹_›⟩
  · rintro ⟨pl, hplace, hfrees⟩
    exact .rmdir hplace hfrees

theorem freesInode_rename {oldpath newpath : CStr} :
    FreesInode s (env, .rename mountRoot oldpath newpath) i ↔
      ∃ pl, renamePlace env (backendRoot s.graph mountRoot) oldpath.bytes newpath.bytes s = some pl ∧
        Frees s.graph (.unlink pl.1 pl.2) (toId i) := by
  constructor
  · rintro ⟨⟩
    exact ⟨_, ‹_›, ‹_›⟩
  · rintro ⟨pl, hplace, hfrees⟩
    exact .rename hplace hfrees

theorem fresh_iff_of_live {session : UInt32} (ht : OwnersFresh t)
    (hlive : ∀ i, s.live i = true ↔ t.fs.live i = true ∧ ¬freed i)
    (howner : s.sessions.owner = t.fs.sessions.owner) :
    OwnersFresh (t.next session s) ↔ ∀ i, freed i → t.fs.sessions.owner i = 0 := by
  rw [ownersFresh_iff]
  simp only [History.next, howner]
  constructor
  · intro h i hi
    by_contra hne
    exact ((hlive i).mp (h i hne).1).2 hi
  · intro h i hi
    obtain ⟨halive, hcreator⟩ := ht.owner i hi
    have hstay : s.live i = true := (hlive i).mpr ⟨halive, fun hfreed => hi (h i hfreed)⟩
    refine ⟨hstay, ?_⟩
    rw [halive, hcreator]
    rfl

theorem opClose_live {h : Fin handlePool} (env : Env) (i : Fin maxInodes) :
    (opClose h s).1.live i = true ↔ s.live i = true ∧ ¬FreesInode s (env, .close h) i := by
  have hclose := inodeClose_inodes s.graph (s.handles h).inodeId i
  unfold opClose
  split_ifs with huse
  · have hfrees : FreesInode s (env, .close h) i ↔
        Frees s.graph (.inodeClose (s.handles h).inodeId) (toId i) := by
      refine ⟨fun hf => ?_, .close huse⟩
      cases hf with
      | close _ hfrees => exact hfrees
    rw [hfrees]
    unfold Fs.live
    by_cases hf : Frees s.graph (.inodeClose (s.handles h).inodeId) (toId i)
    · simp [hclose.1 hf, hf]
    · rw [hclose.2 hf, isSome_map]
      simp [hf]
  · refine ⟨fun hi => ⟨hi, fun hf => ?_⟩, fun hi => hi.1⟩
    cases hf with
    | close huse' => exact huse huse'

theorem opClose_owner (h : Fin handlePool) (s : Fs) :
    (opClose h s).1.sessions.owner = s.sessions.owner := by
  unfold opClose
  split_ifs <;> rfl

theorem sessionReap_fresh (ht : OwnersFresh t) (session caller : UInt32) :
    OwnersFresh (t.next caller (sessionReap session t.fs)) := by
  by_cases hsession : session = 0
  · have hsame : sessionReap session t.fs = t.fs := by rw [sessionReap, if_pos hsession]
    rw [hsame]
    exact Grown.fresh (.of_live (fun _ => rfl) rfl) ht
  refine ownersFresh_iff.mpr fun i hi => ?_
  simp only [History.next] at hi ⊢
  rw [sessionReap_owner hsession] at hi ⊢
  have hother : t.fs.sessions.owner i ≠ session := fun h => hi (if_pos h)
  rw [if_neg hother] at hi ⊢
  obtain ⟨halive, hcreator⟩ := ht.owner i hi
  have hstay : (sessionReap session t.fs).live i = true := by
    unfold Fs.live
    rw [(sessionReap_reaped t.fs hsession).inodes, if_neg (mem_ownedSlots.not.mpr hother)]
    exact halive
  refine ⟨hstay, ?_⟩
  rw [halive, hcreator]
  rfl

def FsOp.isInstall : FsOp → Bool
  | .install .. => true
  | _ => false

theorem historyStep_fresh_iff (ht : OwnersFresh t) {call : Env × FsOp}
    (hcall : call.2.isInstall = false) : OwnersFresh (historyStep t call).1 ↔
      ∀ i, FreesInode t.fs call i → t.fs.sessions.owner i = 0 := by
  obtain ⟨env, op⟩ := call
  have hkeep : ∀ {s}, Grown env.session t.fs s → (∀ i, ¬FreesInode t.fs (env, op) i) →
      (OwnersFresh (t.next env.session s) ↔
        ∀ i, FreesInode t.fs (env, op) i → t.fs.sessions.owner i = 0) := by
    intro s hgrown hnone
    exact iff_of_true (hgrown.fresh ht) fun i hi => absurd hi (hnone i)
  have hdrop : ∀ {freed s}, Drops freed t.fs s → (∀ i, freed i ↔ FreesInode t.fs (env, op) i) →
      (OwnersFresh (t.next env.session s) ↔
        ∀ i, FreesInode t.fs (env, op) i → t.fs.sessions.owner i = 0) := by
    intro freed s hdrops hfreed
    rw [fresh_iff_of_live ht hdrops.live hdrops.owner]
    exact forall_congr' fun i => imp_congr_left (hfreed i)
  unfold historyStep
  cases op with
  | «open» mountRoot path flags mode =>
    exact hkeep (opOpen_done env mountRoot path.noNul flags mode t.fs).grown fun i hi => by cases hi
  | close h => exact fresh_iff_of_live ht (opClose_live env) (opClose_owner h t.fs)
  | dupHandle h => exact hkeep (opDupHandle_grown h t.fs _) fun i hi => by cases hi
  | read h count cursor =>
    exact hkeep ((opRead_quiet env h count cursor t.fs).grown _) fun i hi => by cases hi
  | write h buf cursor =>
    exact hkeep ((opWrite_done env h buf cursor t.fs).quiet.grown _) fun i hi => by cases hi
  | truncate h newlen =>
    obtain ⟨cow, hcow⟩ := opTruncate_done env h newlen t.fs
    refine hkeep (.of_live (fun i => ?_) ?_) fun i hi => by cases hi
    · simp only [fsStep, hcow]
      rfl
    · simp only [fsStep, hcow]
  | mkdir mountRoot path mode =>
    exact hkeep (mkdirRoot_steps env _ path.noNul mode t.fs).grown fun i hi => by cases hi
  | unlink mountRoot path =>
    exact hdrop (unlinkRoot_drops env _ path.bytes t.fs) fun i => freesInode_unlink.symm
  | rmdir mountRoot path =>
    exact hdrop (rmdirRoot_drops env _ path.bytes t.fs) fun i => freesInode_rmdir.symm
  | rename mountRoot oldpath newpath =>
    exact hdrop (renameRoot_drops env _ oldpath.bytes newpath.bytes t.fs) fun i =>
      freesInode_rename.symm
  | install path content => cases hcall
  | reap session =>
    exact iff_of_true (sessionReap_fresh ht session _) fun i hi => by cases hi

def History.start (s : Fs) : History := ⟨{ s with sessions := sessionInit }, fun _ => 0⟩

/-- The owner map is fresh throughout a run exactly as long as every inode that is freed other than
by a reap has no owner. -/
theorem owners_fresh_iff (s : Fs) (calls : List (Env × FsOp))
    (hcalls : ∀ call ∈ calls, call.2.isInstall = false) :
    (∀ k, OwnersFresh (exec historyStep (.start s) (calls.take k))) ↔
      ∀ e ∈ trace historyStep (.start s) calls, ∀ i, FreesInode e.pre.fs e.input i →
        e.pre.fs.sessions.owner i = 0 := by
  apply always_iff_of historyStep (R := fun e => e.input.2.isInstall = false)
    (P := OwnersFresh)
  · exact fun t call hcall ht => historyStep_fresh_iff ht hcall
  · exact ownersFresh_iff.mpr fun i hi => absurd rfl hi
  · exact fun e he => hcalls e.input (mem_trace_input historyStep he)

def reapedCalls : List (Env × FsOp) :=
  [(sshEnv, .open 0 pathA oCreat 0), (bootEnv, .mkdir 0 pathB 0), (sshEnv, .reap 7)]

theorem reapedCalls_frees {e : Entry History (Env × FsOp) Reply} (he : e.input ∈ reapedCalls) :
    ¬FreesInode e.pre.fs e.input i := by
  intro hfrees
  generalize e.input = call at he hfrees
  simp only [reapedCalls, List.mem_cons, List.not_mem_nil, or_false] at he
  rcases he with rfl | rfl | rfl <;> nomatch hfrees

theorem reapedCalls_fresh : OwnersFresh (exec historyStep (.start blankFs) (reapedCalls.take 3)) ∧
      (exec historyStep (.start blankFs) (reapedCalls.take 2)).fs.sessions.owner 1 = 7 ∧
      (exec historyStep (.start blankFs) (reapedCalls.take 2)).fs.sessions.owner 2 = 0 ∧
      (exec historyStep (.start blankFs) (reapedCalls.take 2)).fs.live 2 = true := by
  refine ⟨?_, by decide +kernel, by decide +kernel, by decide +kernel⟩
  refine (owners_fresh_iff blankFs reapedCalls (by decide)).mpr (fun e he i hfrees => ?_) 3
  exact absurd hfrees (reapedCalls_frees (mem_trace_input historyStep he))

def staleCalls : List (Env × FsOp) := [(sshEnv, .mkdir 0 pathA 0), (bootEnv, .rmdir 0 pathA)]

theorem owner_outlives_inode : ¬OwnersFresh (exec historyStep (.start blankFs) staleCalls) := by
  intro h
  have howner : (exec historyStep (.start blankFs) staleCalls).fs.sessions.owner 1 = 7 := by
    decide +kernel
  have hdead : (exec historyStep (.start blankFs) staleCalls).fs.live 1 = false := by
    decide +kernel
  have hlive := (h.owner 1 (by rw [howner]; decide)).1
  rw [hdead] at hlive
  cases hlive

end SotOs.Lucas
