import SotOs.Lucas.Reach

/-! Session containment: what the calls of SSH sessions leave of the base, the nodes that no session
owns. -/

namespace SotOs.Lucas
open Sotfs Machine Slots List Option

structure NodeView where
  kind : Kind
  mode : UInt32
  size : ℕ
  links : Set (ℤ × Name)
  bytes : Except Err (List UInt8)

def nodeView (s : Fs) (id : ℤ) : Option NodeView :=
  (s.graph.inode id).map fun n =>
    { kind := n.kind
      mode := n.mode
      size := n.size
      links := {l | ∃ i, s.graph.edges i = some ⟨l.1, id, l.2⟩}
      bytes := (fileRead s.graph s.dev id 0 n.size).2 }

def baseView (s : Fs) (id : ℤ) : Option NodeView :=
  if sessionOwner s.sessions id = 0 then nodeView s id else none

variable {s s' s₀ : Fs} {env : Env} {path : List UInt8} {root : ℤ} {call : Env × FsOp}

theorem NodeKept.view {id : ℤ} (h : NodeKept s s' id) (hs : FsInv s) (hs' : FsInv s') :
    nodeView s' id = nodeView s id := by
  have hlinks : {l : ℤ × Name | ∃ i, s'.graph.edges i = some ⟨l.1, id, l.2⟩} =
      {l | ∃ i, s.graph.edges i = some ⟨l.1, id, l.2⟩} := by
    ext l
    exact exists_congr fun i => h.edges i _ rfl
  have hbytes : ∀ len, (fileRead s'.graph s'.dev id 0 len).2 =
      (fileRead s.graph s.dev id 0 len).2 := by
    intro len
    apply fileRead_congr hs.store.healthy hs'.store.healthy _ h.pages
    have hpart := congrArg (Option.map fun f : Kind × UInt32 × ℕ => (f.1, f.2.2)) h.inode
    rw [Option.map_map, Option.map_map] at hpart
    exact hpart
  have hface := h.inode
  unfold nodeView
  rw [hlinks]
  simp only [hbytes]
  rcases hn' : s'.graph.inode id with _ | n'
  · rw [hn'] at hface
    rw [map_eq_none_iff.mp hface.symm]
  rw [hn'] at hface
  obtain ⟨n, hn, heq⟩ := map_eq_some_iff.mp hface.symm
  obtain ⟨hkind, hmode, hsize⟩ : n.kind = n'.kind ∧ n.mode = n'.mode ∧ n.size = n'.size := by
    simpa only [Inode.face, Prod.mk.injEq] using heq
  simp only [hn, map_some, hkind, hmode, hsize]

structure Contained (session : UInt32) (s s' : Fs) : Prop where
  inv : FsInv s'
  owner : ∀ id, sessionOwner s'.sessions id ≠ session →
    sessionOwner s'.sessions id = sessionOwner s.sessions id
  fresh : ∀ id, sessionOwner s'.sessions id = session → sessionOwner s.sessions id ≠ session →
    s.graph.inode id = none
  kept : ∀ id, sessionOwner s'.sessions id ≠ session → NodeKept s s' id

theorem Contained.refl (h : FsInv s) (session : UInt32) : Contained session s s :=
  ⟨h, fun _ _ => rfl, fun _ hown hne => absurd hown hne, fun id _ => .refl s id⟩

variable {session : UInt32}

theorem Contained.trans {s₁ s₂ s₃ : Fs} (h : Contained session s₁ s₂)
    (h' : Contained session s₂ s₃) : Contained session s₁ s₃ := by
  have hback : ∀ id, sessionOwner s₃.sessions id ≠ session →
      sessionOwner s₂.sessions id ≠ session := by
    intro id hid
    rwa [← h'.owner id hid]
  refine ⟨h'.inv, ?_, ?_, ?_⟩
  · intro id hid
    exact (h'.owner id hid).trans (h.owner id (hback id hid))
  · intro id hown hne
    by_cases hmid : sessionOwner s₂.sessions id = session
    · exact h.fresh id hmid hne
    have hnone := h'.fresh id hown hmid
    have hface := (h.kept id hmid).inode
    rw [hnone] at hface
    exact map_eq_none_iff.mp hface.symm
  · intro id hid
    exact (h.kept id (hback id hid)).trans (h'.kept id hid)

theorem Kept.contained {T : Set ℤ} (h : Kept T s s')
    (howner : ∀ id, sessionOwner s'.sessions id = sessionOwner s.sessions id)
    (hT : ∀ id ∈ T, sessionOwner s.sessions id = session) : Contained session s s' := by
  refine ⟨h.inv, fun id _ => howner id, ?_, ?_⟩
  · intro id hown hne
    exact absurd ((howner id).symm.trans hown) hne
  · intro id hid
    apply h.nodes
    intro hmem
    exact hid ((howner id).trans (hT id hmem))

theorem Contained.base (h : Contained session s s') (hs : FsInv s)
    (hsession : session ≠ 0) (id : ℤ) : baseView s' id = baseView s id := by
  unfold baseView
  by_cases hown : sessionOwner s'.sessions id = session
  · rw [if_neg (hown ▸ hsession)]
    by_cases hbefore : sessionOwner s.sessions id = session
    · rw [if_neg (hbefore ▸ hsession)]
    · -- a node made by the call was no node before it
      rw [nodeView, h.fresh id hown hbefore]
      simp
  · rw [h.owner id hown, (h.kept id hown).view hs h.inv]

theorem addNode_owner (hsession : env.session ≠ 0) {kind : Kind} {p : ℤ} {name : Name}
    {mode : UInt32} {g' : Graph} {i : Fin maxInodes} {id : ℤ} :
    sessionOwner (s.addNode env kind p name mode g' (toId i)).sessions id =
      if id = toId i then env.session else sessionOwner s.sessions id := by
  unfold Fs.addNode Fs.tag
  rw [if_neg hsession, ← sessionOwner_tag]
  simp [Fs.stampCreate]

theorem applyPendingHint_sessions {id : ℤ} : (s.applyPendingHint env id).sessions = s.sessions := by
  unfold Fs.applyPendingHint
  split_ifs <;> rfl

theorem NodeStep.contained (hstep : NodeStep env s s') (hroom : s'.wal.cursor ≤ walEnd)
    (h : FsInv s) (hsession : env.session ≠ 0) : Contained env.session s s' := by
  cases hstep with
  | made kind p name mode g' id _ _ hcreate =>
    obtain ⟨-, hnone, i, rfl⟩ := local_created hcreate
    have hkept := h.addNode hcreate hroom
    refine ⟨hkept.inv, ?_, ?_, ?_⟩
    · intro id hid
      rw [addNode_owner hsession] at hid ⊢
      split_ifs at hid ⊢ with heq
      · exact absurd rfl hid
      · rfl
    · intro id hown hne
      rw [addNode_owner hsession] at hown
      split_ifs at hown with heq
      · rw [heq]
        exact hnone
      · exact absurd hown hne
    · intro id hid
      apply hkept.nodes
      rintro rfl
      rw [addNode_owner hsession, if_pos rfl] at hid
      exact hid rfl
  | tried kind p name mode g' e hcreate =>
    exact (h.tried hcreate).contained (fun _ => rfl) nofun
  | hinted id =>
    exact (h.hinted env id).contained (fun _ => by rw [applyPendingHint_sessions]) nofun

theorem NodeSteps.contained (hsteps : NodeSteps env s s') (hroom : s'.wal.cursor ≤ walEnd)
    (h : FsInv s) (hsession : env.session ≠ 0) : Contained env.session s s' := by
  apply NodeSteps.induction (P := fun t => Contained env.session s t) hsteps hroom (.refl h _)
  intro s₁ s₂ hstep hlast hso
  exact hso.trans (hstep.contained hlast hso.inv hsession)

theorem OpenDone.contained (hd : OpenDone env path s s') (hroom : s'.wal.cursor ≤ walEnd)
    (h : FsInv s) (hsession : env.session ≠ 0) : Contained env.session s s' := by
  cases hd with
  | steps hsteps => exact NodeSteps.contained hsteps hroom h hsession
  | handle hsteps id i =>
    have hso := NodeSteps.contained hsteps hroom h hsession
    exact hso.trans ((hso.inv.opened path id i).contained (fun _ => rfl) nofun)

theorem WriteDone.in_session {hd : Fin handlePool} {buf : List UInt8} {cursor : ℤ}
    (hdone : WriteDone env hd buf cursor s s') (h : FsInv s) (hisolated : env.isolated = true) :
    Contained env.session s s' := by
  cases hdone with
  | aside sessions cow howner =>
    have htables : Kept ∅ s { s with sessions, cow } := h.tables rfl rfl
    exact htables.contained howner nofun
  | @contained i off sessions howner _ hmine g' d' rc hw s' hs' =>
    have hwritten : Kept {toId i} s { s with sessions, graph := g', dev := d' } :=
      h.written (by rw [hw]) (by rw [hw])
    have hown : ∀ id ∈ ({toId i} : Set ℤ), sessionOwner s.sessions id = env.session := by
      rintro id rfl
      exact hmine
    rcases hs' with rfl | rfl
    · exact hwritten.contained howner hown
    · exact (hwritten.then (hwritten.inv.stampedWrite env _)).contained howner hown
  | refused _ _ hiso _ => rw [hisolated] at hiso; cases hiso
  | logged _ _ hiso _ => rw [hisolated] at hiso; cases hiso

def FsOp.mutates : FsOp → Bool
  | .open .. | .write .. | .truncate .. | .mkdir .. | .unlink .. | .rmdir .. | .rename .. => true
  | .close .. | .dupHandle .. | .read .. | .install .. | .reap .. => false

def Fs.owned (s : Fs) (session : UInt32) : Set ℤ := {id | sessionOwner s.sessions id = session}

/-- The nodes that the call would take from the graph or move belong to the caller's session. -/
def TargetsOwned (s : Fs) : Env × FsOp → Prop
  | (env, .unlink mountRoot path) =>
    unlinkTargets env (backendRoot s.graph mountRoot) path.bytes s ⊆ s.owned env.session
  | (env, .rmdir mountRoot path) =>
    rmdirTargets (backendRoot s.graph mountRoot) path.bytes s ⊆ s.owned env.session
  | (env, .rename mountRoot oldpath newpath) =>
    let root := backendRoot s.graph mountRoot
    renameDstTargets root oldpath.bytes newpath.bytes s ⊆ s.owned env.session ∧
      renameSrcTargets root oldpath.bytes newpath.bytes s ⊆ s.owned env.session
  | _ => True

def LogRoom (s : Fs) : FsOp → Prop
  | .rmdir mountRoot path =>
    (rmdirTargets (backendRoot s.graph mountRoot) path.bytes s).Nonempty →
      s.wal.cursor + 848 ≤ walEnd
  | .rename mountRoot oldpath newpath =>
    let root := backendRoot s.graph mountRoot
    (renameSrcTargets root oldpath.bytes newpath.bytes s).Nonempty → s.wal.cursor + 848 ≤ walEnd ∧
        ((renameDstTargets root oldpath.bytes newpath.bytes s).Nonempty →
          s.wal.cursor + 896 + 848 ≤ walEnd)
  | _ => True

theorem logUnlessSession_session (hsession : env.session ≠ 0) {record : UInt64 → UInt64 → Record} :
    s.logUnlessSession env record = s := by
  rw [Fs.logUnlessSession, if_neg hsession]

theorem NodeStep.wal_eq (h : NodeStep env s s') (hsession : env.session ≠ 0) : s'.wal = s.wal := by
  cases h with
  | made => rw [Fs.addNode, tag_wal, logUnlessSession_session hsession, Fs.stampCreate]
  | tried => rfl
  | hinted id => exact applyPendingHint_wal

theorem NodeSteps.wal_eq (h : NodeSteps env s s') (hsession : env.session ≠ 0) :
    s'.wal = s.wal := by
  induction h with
  | refl => rfl
  | tail _ hlast ih => exact (hlast.wal_eq hsession).trans ih

theorem RmdirDone.room (hd : RmdirDone env root path s s') (hs : s.wal.cursor ≤ walEnd)
    (hlog : (rmdirTargets root path s).Nonempty → s.wal.cursor + 848 ≤ walEnd) :
    s'.wal.cursor ≤ walEnd := by
  cases hd with
  | same => exact hs
  | @removed p leaf g' hnamed hrmdir =>
    obtain ⟨c, hc, -⟩ := rmdir_target hnamed hrmdir
    exact log_cursor_room { s with graph := g' } env _ (hlog ⟨c, hc⟩)

theorem RenameDone.room {oldpath newpath : List UInt8}
    (hd : RenameDone env root oldpath newpath s s') (hs : s.wal.cursor ≤ walEnd)
    (hlog : (renameSrcTargets root oldpath newpath s).Nonempty → s.wal.cursor + 848 ≤ walEnd ∧
      ((renameDstTargets root oldpath newpath s).Nonempty → s.wal.cursor + 896 + 848 ≤ walEnd)) :
    s'.wal.cursor ≤ walEnd := by
  cases hd with
  | same => exact hs
  | @moved pSrc sleaf pDst dleaf g' hpaths hfree hren =>
    obtain ⟨c, hc, -⟩ := rename_src_target hpaths hfree hren
    exact log_cursor_room { s with graph := g' } env _ (hlog ⟨c, hc⟩).1
  | lost => exact hs
  | @replaced pSrc sleaf pDst dleaf g' g'' sessions hpaths hunlink hren _ =>
    obtain ⟨c, hc, -⟩ := rename_dst_target hpaths hunlink
    obtain ⟨c', hc', -⟩ := rename_over_target hpaths hunlink hren
    have hboth := (hlog ⟨c', hc'⟩).2 ⟨c, hc⟩
    let s₁ : Fs := { s with graph := g'' }
    let s₂ : Fs := s₁.log env fun tx now => unlinkRecord tx now pDst dleaf
    let s₃ : Fs := s₂.log env fun tx now => renameRecord tx now pSrc sleaf pDst dleaf
    have hfirst : s₂.wal.cursor ≤ s.wal.cursor + 896 := log_cursor_add s₁ env _
    have hsecond : s₃.wal.cursor ≤ walEnd := log_cursor_room s₂ env _ (by omega)
    exact hsecond

structure OwnCall (s : Fs) (call : Env × FsOp) : Prop where
  isolated : call.1.isolated = true
  session : call.1.session ≠ 0
  mutates : call.2.mutates = true
  targets : TargetsOwned s call
  room : LogRoom s call.2

theorem OwnCall.contained (hc : OwnCall s call) (h : FsInv s) (hs : s.wal.cursor ≤ walEnd) :
    Contained call.1.session s (fsStep s call).1 ∧ (fsStep s call).1.wal.cursor ≤ walEnd := by
  obtain ⟨env, op⟩ := call
  obtain ⟨hisolated, hsession, hmutates, htargets, hroom⟩ := hc
  cases op with
  | «open» mountRoot path flags mode =>
    have hd := opOpen_done env mountRoot path.noNul flags mode s
    have hwal : (opOpen env mountRoot path.bytes flags mode s).1.wal = s.wal := by
      generalize (opOpen env mountRoot path.bytes flags mode s).1 = s' at hd
      cases hd with
      | steps hsteps => exact NodeSteps.wal_eq hsteps hsession
      | @handle s₁ hsteps id i =>
        have heq : s₁.wal = s.wal := NodeSteps.wal_eq hsteps hsession
        exact heq
    have hend : (opOpen env mountRoot path.bytes flags mode s).1.wal.cursor ≤ walEnd := by
      rwa [hwal]
    exact ⟨hd.contained hend h hsession, hend⟩
  | write hd buf cursor =>
    have hdone := opWrite_done env hd buf cursor s
    refine ⟨hdone.in_session h hisolated, ?_⟩
    change (opWrite env hd buf cursor s).1.wal.cursor ≤ walEnd
    generalize (opWrite env hd buf cursor s).1 = s' at hdone
    cases hdone with
    | aside => exact hs
    | contained _ _ _ _ _ _ _ hs' => rcases hs' with rfl | rfl <;> exact hs
    | refused _ _ hiso _ => rw [hisolated] at hiso; cases hiso
    | logged _ _ hiso _ => rw [hisolated] at hiso; cases hiso
  | truncate hd newlen =>
    obtain ⟨cow, heq⟩ := opTruncate_done env hd newlen s
    change Contained env.session s (opTruncate env hd newlen s).1 ∧
      (opTruncate env hd newlen s).1.wal.cursor ≤ walEnd
    rw [heq]
    have htables : Kept ∅ s { s with cow } := h.tables rfl rfl
    exact ⟨htables.contained (fun _ => rfl) nofun, hs⟩
  | mkdir mountRoot path mode =>
    have hsteps := mkdirRoot_steps env (backendRoot s.graph mountRoot) path.noNul mode s
    have hend : (mkdirRoot env (backendRoot s.graph mountRoot) path.bytes mode s).1.wal.cursor ≤
        walEnd := by
      rwa [NodeSteps.wal_eq hsteps hsession]
    exact ⟨NodeSteps.contained hsteps hend h hsession, hend⟩
  | unlink mountRoot path =>
    have hdone := unlinkRoot_done env (backendRoot s.graph mountRoot) path.bytes s
    have hend : (unlinkRoot env (backendRoot s.graph mountRoot) path.bytes s).1.wal.cursor ≤
        walEnd := by
      generalize (unlinkRoot env (backendRoot s.graph mountRoot) path.bytes s).1 = s' at hdone
      cases hdone with
      | same => exact hs
      | unlinked => rwa [logUnlessSession_session hsession]
    obtain ⟨hkept, howner⟩ := hdone.kept h hend
    exact ⟨hkept.contained howner fun id hid => htargets hid, hend⟩
  | rmdir mountRoot path =>
    have hdone := rmdirRoot_done env (backendRoot s.graph mountRoot) path.bytes s
    have hend := hdone.room hs hroom
    obtain ⟨hkept, hsessions⟩ := hdone.kept h hend
    exact ⟨hkept.contained (fun _ => by rw [hsessions]) fun id hid => htargets hid, hend⟩
  | rename mountRoot oldpath newpath =>
    have hdone := renameRoot_done env (backendRoot s.graph mountRoot) oldpath.bytes newpath.bytes s
    have hend := hdone.room hs hroom
    obtain ⟨hkept, howner⟩ := hdone.kept h hend
    refine ⟨hkept.contained howner fun id hid => ?_, hend⟩
    rcases hid with hdst | hsrc
    · exact htargets.1 hdst
    · exact htargets.2 hsrc
  | close | dupHandle | read | install | reap => cases hmutates

structure BaseKept (s₀ : Fs) (h : List (Entry Fs (Env × FsOp) Reply)) (s : Fs) : Prop where
  inv : FsInv s
  cursor : s.wal.cursor ≤ walEnd
  base : ∀ id, baseView s id = baseView s₀ id
  contained : ∀ e ∈ h, Contained e.input.1.session e.pre (fsStep e.pre e.input).1

theorem BaseKept.step {h : List (Entry Fs (Env × FsOp) Reply)} (hk : BaseKept s₀ h s)
    (hown : OwnCall s call) :
    BaseKept s₀ (h ++ [entry fsStep s call]) (fsStep s call).1 := by
  obtain ⟨hstep, hend⟩ := hown.contained hk.inv hk.cursor
  refine ⟨hstep.inv, hend, ?_, ?_⟩
  · intro id
    exact (hstep.base hk.inv hown.session id).trans (hk.base id)
  · rw [forall_mem_append, forall_mem_singleton]
    exact ⟨hk.contained, hstep⟩

theorem run_baseKept (h : FsInv s₀) (hlog : s₀.wal.cursor ≤ walEnd) {calls : List (Env × FsOp)}
    (hcalls : ∀ e ∈ trace fsStep s₀ calls, OwnCall e.pre e.input) :
    BaseKept s₀ (trace fsStep s₀ calls) (exec fsStep s₀ calls) := by
  have hempty : BaseKept s₀ [] s₀ := ⟨h, hlog, fun _ => rfl, fun _ he => absurd he not_mem_nil⟩
  refine trace_induction_of fsStep (P := BaseKept s₀)
    (Q := fun e => OwnCall e.pre e.input) hempty ?_ calls hcalls
  intro h s call hown hk
  exact hk.step hown

def madeFs (env : Env) : Fs := (fsStep (freshFs blankImage 0) (env, .mkdir 0 pathA 0)).1

def ownCalls : List (Env × FsOp) := [(sshEnv, .mkdir 0 pathA 0), (sshEnv, .rmdir 0 pathA)]

theorem ownDir_target {c : ℤ} (hc : c ∈ rmdirTargets (backendRoot (madeFs sshEnv).graph 0)
    pathA.bytes (madeFs sshEnv)) : c = 2 := by
  obtain ⟨p, leaf, tgt, hnamed, hfind, hedge, -, -⟩ := hc
  have hname : named (madeFs sshEnv).graph (backendRoot (madeFs sshEnv).graph 0) pathA.bytes =
      some (1, [97]) := by decide +kernel
  rw [hname, some.injEq, Prod.mk.injEq] at hnamed
  obtain ⟨rfl, rfl⟩ := hnamed
  have hslot : findEdge (madeFs sshEnv).graph 1 [97] = some 0 := by decide +kernel
  rw [hslot, some.injEq] at hfind
  subst hfind
  have hchild : (madeFs sshEnv).graph.edges 0 = some ⟨1, 2, [97]⟩ := by decide +kernel
  rw [hchild, some.injEq, Edge.mk.injEq] at hedge
  exact hedge.2.1.symm

theorem ownCalls_own : ∀ e ∈ trace fsStep (lazyInit blankImage 0) ownCalls,
    OwnCall e.pre e.input := by
  intro e he
  simp only [boot_eq, ownCalls, trace, mem_cons, not_mem_nil, or_false] at he
  have hsession : sshEnv.session ≠ 0 := by decide
  rcases he with rfl | rfl
  · exact ⟨rfl, hsession, rfl, trivial, trivial⟩
  refine ⟨rfl, hsession, rfl, ?_, ?_⟩
  · intro c hc
    rw [ownDir_target hc]
    change sessionOwner (madeFs sshEnv).sessions 2 = 7
    decide +kernel
  · intro _
    change (madeFs sshEnv).wal.cursor + 848 ≤ walEnd
    decide +kernel

/-- In every run of session calls that only take and move their own nodes the base stays as it was,
and each call only makes and changes nodes of its own session. -/
theorem sessions_keep_base {st : Storage} (hsound : st.Sound) (hcap : imgTotalBytes ≤ st.capacity)
    (now : ℤ) (history calls : List (Env × FsOp)) {s₀ : Fs}
    (hs₀ : s₀ = exec fsStep (lazyInit st now) history) (hlog : s₀.wal.cursor ≤ walEnd)
    (hcalls : ∀ e ∈ trace fsStep s₀ calls, OwnCall e.pre e.input) :
    (∀ id, baseView (exec fsStep s₀ calls) id = baseView s₀ id) ∧ ∀ e ∈ trace fsStep s₀ calls,
        Contained e.input.1.session e.pre (fsStep e.pre e.input).1 := by
  have hstart : FsInv s₀ := by
    rw [hs₀] at hlog ⊢
    exact exec_inv (lazyInit_inv hsound hcap now) history hlog
  have hrun := run_baseKept hstart hlog hcalls
  exact ⟨hrun.base, hrun.contained⟩

theorem sessions_keep_base_ownDir :
    (∀ id, baseView (exec fsStep (lazyInit blankImage 0) ownCalls) id =
        baseView (lazyInit blankImage 0) id) ∧
      ∀ e ∈ trace fsStep (lazyInit blankImage 0) ownCalls,
        Contained e.input.1.session e.pre (fsStep e.pre e.input).1 := by
  have hsound : blankImage.Sound := rfl
  have hlog : (lazyInit blankImage 0).wal.cursor ≤ walEnd := by
    rw [boot_cursor]
    decide
  exact sessions_keep_base hsound (Nat.le_refl _) 0 [] ownCalls rfl hlog ownCalls_own

theorem session_removes_base : sessionOwner (exec fsStep (lazyInit blankImage 0)
        [(bootEnv, .mkdir 0 pathA 0)]).sessions 2 = 0 ∧
      (baseView (exec fsStep (lazyInit blankImage 0)
        [(bootEnv, .mkdir 0 pathA 0)]) 2).isSome = true ∧
      baseView (exec fsStep (exec fsStep (lazyInit blankImage 0)
        [(bootEnv, .mkdir 0 pathA 0)]) [(sshEnv, .rmdir 0 pathA)]) 2 = none := by
  simp only [exec, boot_eq]
  exact ⟨by decide +kernel, by decide +kernel, isNone_iff_eq_none.mp (by decide +kernel)⟩

end SotOs.Lucas
