import SotOs.Lucas.PathSpec
import SotOs.Sotfs.Contents
import SotOs.Sotfs.WalRegion

/-! What the backend's operations come to: a call of the log touches the log only, a path resolves
to the node just made for it, and each operation ends in one of a few explicit states. -/

namespace SotOs.Sotfs
open List

theorem AppendReq.limit_le (req : AppendReq) {st : Storage} (hcap : walEnd ≤ st.capacity) :
    req.limit st ≤ st.capacity := by
  cases req with
  | record r => exact Nat.le_refl _
  | payload p => exact hcap

variable {req : AppendReq} {s : Log} {out : Log × AppendReply}

theorem Appended.cursor_le (h : Appended req s out) : s.wal.cursor ≤ out.1.wal.cursor := by
  have hframe : ∀ {cap req w st out}, FrameOutcome cap req w st out → w.cursor ≤ out.1.cursor := by
    intro cap req w st out h
    rcases h.cursor with heq | ⟨heq, -⟩ <;> omega
  cases h with
  | uninit _ => exact Nat.le_refl _
  | failed h _ => exact hframe h
  | alone h _ hcursor _ => exact (hframe h).trans_eq hcursor.symm
  | checkpoint h _ hck _ hcursor _ _ hcursor' _ =>
    exact ((hframe h).trans_eq hcursor.symm).trans ((hframe hck).trans_eq hcursor'.symm)

theorem Appended.cursor_bound {r : Record} (h : Appended (.record r) s out) :
    out.1.wal.cursor ≤ s.wal.cursor + 896 ∧
      (s.wal.cursor + 848 ≤ walEnd → out.1.wal.cursor ≤ walEnd) := by
  have hrecord := record_frameLen r
  cases h with
  | uninit _ => exact ⟨Nat.le_add_right _ _, (Nat.le_add_right _ _).trans⟩
  | failed h _ => rcases h.cursor with heq | ⟨heq, -⟩ <;> simp only at heq ⊢ <;> omega
  | alone h _ hcursor _ =>
    rcases h.cursor with heq | ⟨heq, -⟩ <;> simp only at heq hcursor ⊢ <;> omega
  | @checkpoint w _ _ _ _ _ _ h _ hck _ hcursor _ _ hcursor' _ =>
    have hpayload := checkpoint_frameLen w.seq
    rcases h.cursor with heq | ⟨heq, -⟩ <;> rcases hck.cursor with hc | ⟨hc, hfit⟩ <;>
      simp only at heq hc hcursor hcursor' ⊢ <;> omega

theorem Appended.above (h : Appended req s out) (hs : s.st.Sound) (hcap : walEnd ≤ s.st.capacity)
    (hroom : out.1.wal.cursor ≤ walEnd) :
    out.1.st.Sound ∧ ∀ a, walEnd ≤ a → out.1.st.bytes a = s.st.bytes a := by
  have hlimit := req.limit_le hcap
  cases h with
  | uninit _ => exact ⟨hs, fun _ _ => rfl⟩
  | failed h hrc =>
    refine ⟨h.sound hs fun hfit => hfit.trans hlimit, fun a _ => ?_⟩
    apply h.bytes_outside
    intro hfit
    exact absurd (h.of_sound hs (hfit.trans hlimit) hfit) hrc
  | alone h _ hcursor _ =>
    refine ⟨h.sound hs fun hfit => hfit.trans hlimit, fun a ha => ?_⟩
    apply h.bytes_outside
    intro _
    have hmoved := h.written.cursor
    simp only at hroom
    omega
  | @checkpoint w wc w' w'' st st' rc h _ hck _ hcursor _ _ hcursor' _ =>
    have hsound := h.sound hs fun hfit => hfit.trans hlimit
    have hst : st.capacity = s.st.capacity := h.capacity
    have hmoved := h.written.cursor
    refine ⟨hck.sound hsound fun hfit => hfit.trans (hcap.trans_eq hst.symm), fun a ha => ?_⟩
    have hlater : wc.cursor ≤ w'.cursor := by
      rcases hck.cursor with heq | ⟨heq, -⟩ <;> simp only at heq <;> omega
    have hck' : st'.bytes a = st.bytes a := by
      apply hck.bytes_outside
      intro hfit
      exact .inr (hfit.trans ha)
    refine hck'.trans ?_
    apply h.bytes_outside
    intro _
    simp only at hroom
    omega

end SotOs.Sotfs

namespace SotOs.Lucas
open Sotfs List

section
variable (s : Fs) (env : Env) (record : UInt64 → UInt64 → Record)

theorem log_appended : ∃ tx now reply, Appended (.record (record tx now)) ⟨s.wal, s.dev.st⟩
      (⟨(s.log env record).wal, (s.log env record).dev.st⟩, reply) := by
  have h := logStep_appended ⟨s.wal, s.dev.st⟩
    (.record (record (env.stamp s.wal.seq).1 (env.stamp s.wal.seq).2))
  exact ⟨_, _, _, h⟩

@[simp] theorem log_graph : (s.log env record).graph = s.graph := rfl

@[simp] theorem log_handles : (s.log env record).handles = s.handles := rfl

@[simp] theorem log_sessions : (s.log env record).sessions = s.sessions := rfl

@[simp] theorem log_cow : (s.log env record).cow = s.cow := rfl

theorem log_dev : (s.log env record).dev = { s.dev with st := (s.log env record).dev.st } := rfl

theorem log_cursor_le : s.wal.cursor ≤ (s.log env record).wal.cursor := by
  obtain ⟨tx, now, reply, h⟩ := log_appended s env record
  exact h.cursor_le

theorem log_cursor_add : (s.log env record).wal.cursor ≤ s.wal.cursor + 896 := by
  obtain ⟨tx, now, reply, h⟩ := log_appended s env record
  exact h.cursor_bound.1

theorem log_cursor_room (hroom : s.wal.cursor + 848 ≤ walEnd) :
    (s.log env record).wal.cursor ≤ walEnd := by
  obtain ⟨tx, now, reply, h⟩ := log_appended s env record
  exact h.cursor_bound.2 hroom

@[simp] theorem logUnlessSession_graph : (s.logUnlessSession env record).graph = s.graph := by
  unfold Fs.logUnlessSession
  split_ifs <;> rfl

@[simp] theorem logUnlessSession_sessions :
    (s.logUnlessSession env record).sessions = s.sessions := by
  unfold Fs.logUnlessSession
  split_ifs <;> rfl

@[simp] theorem logUnlessSession_handles : (s.logUnlessSession env record).handles = s.handles := by
  unfold Fs.logUnlessSession
  split_ifs <;> rfl

theorem logUnlessSession_cursor_le : s.wal.cursor ≤ (s.logUnlessSession env record).wal.cursor := by
  unfold Fs.logUnlessSession
  split_ifs
  · exact log_cursor_le ..
  · exact Nat.le_refl _

end

structure InOrder (g : Graph) (d : Blkdev) : Prop where
  store : StoreInv g d
  heap : walEnd ≤ d.heapOff
  image : walEnd ≤ d.st.capacity

abbrev FsInv (s : Fs) : Prop := InOrder s.graph s.dev

theorem FsInv.log_stored {s : Fs} (h : FsInv s) (env : Env) (record : UInt64 → UInt64 → Record)
    (hroom : (s.log env record).wal.cursor ≤ walEnd) :
    Stored s.dev (s.log env record).dev s.dev.view := by
  obtain ⟨tx, now, reply, hlog⟩ := log_appended s env record
  obtain ⟨hsound, habove⟩ := hlog.above h.store.healthy.sound h.image hroom
  rw [log_dev]
  exact h.store.healthy.low_write hsound hlog.capacity fun a ha => habove a (h.heap.trans ha)

def nodeRecord (kind : Kind) (p : ℤ) (name : Name) (mode : UInt32) (tx now : UInt64) : Record :=
  if kind = .dir then mkdirRecord tx now p name mode else createFileRecord tx now p name mode

def Fs.addNode (s : Fs) (env : Env) (kind : Kind) (p : ℤ) (name : Name) (mode : UInt32) (g' : Graph)
    (id : ℤ) : Fs :=
  let s := ({ s with graph := g' } : Fs).logUnlessSession env (nodeRecord kind p name mode)
  (s.stampCreate env id).tag env id

inductive NodeStep (env : Env) : Fs → Fs → Prop
  | made (s : Fs) (kind : Kind) (p : ℤ) (name : Name) (mode : UInt32) (g' : Graph) (id : ℤ)
      (hkind : kind = .file ∨ kind = .dir) (hnul : 0 ∉ name)
      (h : createNode kind s.graph p name mode = (g', .ok id)) :
      NodeStep env s (s.addNode env kind p name mode g' id)
  | tried (s : Fs) (kind : Kind) (p : ℤ) (name : Name) (mode : UInt32) (g' : Graph) (e : Err)
      (h : createNode kind s.graph p name mode = (g', .error e)) :
      NodeStep env s { s with graph := g' }
  | hinted (s : Fs) (id : ℤ) : NodeStep env s (s.applyPendingHint env id)

abbrev NodeSteps (env : Env) : Fs → Fs → Prop := Relation.ReflTransGen (NodeStep env)

@[simp] theorem tag_graph (s : Fs) (env : Env) (id : ℤ) : (s.tag env id).graph = s.graph := by
  unfold Fs.tag
  split_ifs <;> rfl

variable {env : Env} {id : ℤ}

@[simp] theorem tag_dev {s : Fs} : (s.tag env id).dev = s.dev := by
  unfold Fs.tag
  split_ifs <;> rfl

@[simp] theorem tag_wal {s : Fs} : (s.tag env id).wal = s.wal := by
  unfold Fs.tag
  split_ifs <;> rfl

theorem addNode_graph (s : Fs) (env : Env) (kind : Kind) (p : ℤ) (name : Name) (mode : UInt32)
    (g' : Graph) (id : ℤ) :
    (s.addNode env kind p name mode g' id).graph = g'.modifyInode id fun n =>
      { n with mtime := env.now, ctime := env.now, atime := env.now } := by
  simp [Fs.addNode, Fs.stampCreate]

variable {g : Graph} {name : Name} {mode : UInt32} {root : ℤ} {path : List UInt8}

theorem walk_congr {g' : Graph} (h : g'.edges = g.edges) (cur : ℤ) (names : List Name) :
    walk g' cur names = walk g cur names := by
  have hfind : ∀ p name, findEdge g' p name = findEdge g p name := by
    intro p name
    unfold findEdge
    rw [h]
  induction names generalizing cur with
  | nil => rfl
  | cons name names ih =>
    rw [walk, walk, hfind, h]
    rcases findEdge g cur name with _ | i
    · rfl
    simp only
    cases g.edges i with
    | none => rfl
    | some e => exact ih e.childId

theorem createNode_rootId {kind : Kind} {g' : Graph} {p id : ℤ}
    (h : createNode kind g p name mode = (g', .ok id)) : g'.rootId = g.rootId := by
  have hcreated := createNode_created kind g p name mode
  rw [h] at hcreated
  cases hcreated with
  | created i j _ _ _ _ _ _ => rfl

theorem walk_addNode {s : Fs} {env : Env} {kind : Kind} {p id : ℤ} {g' : Graph}
    (hcreate : createNode kind s.graph p name mode = (g', .ok id)) {names : List Name}
    (hw : walk s.graph (backendRoot s.graph root) names = some p) :
    walk g' (backendRoot g' root) (names ++ [name]) = some id ∧
      walk (s.addNode env kind p name mode g' id).graph
        (backendRoot (s.addNode env kind p name mode g' id).graph root) (names ++ [name]) =
          some id := by
  have hroot := createNode_rootId hcreate
  have hnew : walk g' (backendRoot g' root) (names ++ [name]) = some id := by
    have hcreated := createNode_created kind s.graph p name mode
    rw [hcreate] at hcreated
    unfold backendRoot at hw ⊢
    rw [hroot]
    cases hcreated with
    | created i j _ _ _ hfind _ hj => exact walk_created hfind hj hw
  refine ⟨hnew, ?_⟩
  rw [addNode_graph, walk_congr (modifyInode_edges ..)]
  unfold backendRoot at hnew ⊢
  rwa [modifyInode_rootId]

theorem joinSegments_concat {names : List Name} {seg : Name} :
    joinSegments (names ++ [seg]) = joinSegments names ++ slash :: seg := by
  simp [joinSegments]

variable {env : Env}

theorem autoMkdir_steps {rest : List Name} (hrest : ∀ seg ∈ rest, slash ∉ seg ∧ 0 ∉ seg) :
    ∀ (s : Fs) (names : List Name) (curParent : ℤ),
    (∀ seg ∈ names, GoodSegment seg ∧ slash ∉ seg) →
    walk s.graph (backendRoot s.graph root) names = some curParent →
      NodeSteps env s (autoMkdir env root s (joinSegments names) curParent rest).1 ∧
      ∀ p, (autoMkdir env root s (joinSegments names) curParent rest).2 = .ok p →
        (∀ seg ∈ rest, GoodSegment seg) ∧
        walk (autoMkdir env root s (joinSegments names) curParent rest).1.graph
          (backendRoot (autoMkdir env root s (joinSegments names) curParent rest).1.graph root)
          (names ++ rest) = some p := by
  induction rest with
  | nil =>
    intro s names curParent _ hw
    refine ⟨.refl, fun p hp => ⟨by simp, ?_⟩⟩
    rw [append_nil, ← Except.ok.inj hp]
    exact hw
  | cons seg rest ih =>
    intro s names curParent hnames hw
    rw [forall_mem_cons] at hrest
    rw [autoMkdir]
    split_ifs with hbad hlong
    · exact ⟨.refl, by simp⟩
    · exact ⟨.refl, by simp⟩
    have hgood : GoodSegment seg := by
      rw [not_or] at hbad
      exact ⟨hbad.1, Nat.not_le.mp hbad.2⟩
    have hnext : ∀ name ∈ names ++ [seg], GoodSegment name ∧ slash ∉ name := by
      rw [forall_mem_append, forall_mem_singleton]
      exact ⟨hnames, hgood, hrest.1.1⟩
    obtain ⟨path, hpath, hcomp⟩ := components_join hnames seg hgood hrest.1.1
    have hresolve : ∀ g, resolvePathFrom g root (joinSegments names ++ slash :: seg) =
        walk g (backendRoot g root) (names ++ [seg]) := by
      intro g
      rw [hpath, resolvePathFrom_slash, hcomp]
    have happ : names ++ seg :: rest = (names ++ [seg]) ++ rest := by simp
    simp only [hresolve, happ]
    rw [← joinSegments_concat]
    cases hex : walk s.graph (backendRoot s.graph root) (names ++ [seg]) with
    | some existing =>
      obtain ⟨hsteps, hok⟩ := ih hrest.2 s (names ++ [seg]) existing hnext hex
      refine ⟨hsteps, fun p hp => ?_⟩
      obtain ⟨hsegs, hwalk⟩ := hok p hp
      exact ⟨by simpa using ⟨hgood, hsegs⟩, hwalk⟩
    | none =>
      simp only
      cases hmk : mkdir s.graph curParent seg 0o755 with
      | mk g' out =>
        rcases out with e | id
        · refine ⟨.single (.tried s .dir curParent seg 0o755 g' e hmk), ?_⟩
          intro p hp
          cases hp
        obtain ⟨hwalk, hwalk'⟩ := walk_addNode hmk hw
        simp only [logUnlessSession_graph, hwalk]
        have hstep : NodeStep env s (s.addNode env .dir curParent seg 0o755 g' id) :=
          .made s .dir curParent seg 0o755 g' id (.inr rfl) hrest.1.2 hmk
        obtain ⟨hsteps, hok⟩ := ih hrest.2 _ (names ++ [seg]) id hnext hwalk'
        refine ⟨.head hstep hsteps, fun p hp => ?_⟩
        obtain ⟨hsegs, hlast⟩ := hok p hp
        exact ⟨by simpa using ⟨hgood, hsegs⟩, hlast⟩

theorem openParent_steps (env : Env) (root : ℤ) {parentPath : List UInt8} {q : List UInt8}
    (hslash : parentPath = slash :: q) (hnul : 0 ∉ parentPath) (s : Fs) :
    NodeSteps env s (openParent env root parentPath s).1 ∧
      ∀ p, (openParent env root parentPath s).2 = .ok p →
        resolvePathFrom (openParent env root parentPath s).1.graph root parentPath = some p := by
  unfold openParent
  cases hres : resolvePathFrom s.graph root parentPath with
  | some p =>
    refine ⟨.refl, fun p' hp' => ?_⟩
    rw [← Except.ok.inj hp']
    exact hres
  | none =>
    have hhead : parentPath.head? = some slash := by rw [hslash, head?_cons]
    simp only [hhead, if_true]
    split_ifs
    · exact ⟨.refl, by simp⟩
    · exact ⟨.refl, by simp⟩
    have htail : parentPath.tail = q := by rw [hslash, tail_cons]
    have hsegs : ∀ seg ∈ segments [] q, slash ∉ seg ∧ 0 ∉ seg := by
      intro seg hseg
      have hno : ∀ b ∈ seg, b ∈ q ∧ b ≠ slash := by
        intro b hb
        rcases mem_segments hseg hb with hnil | hq
        · cases hnil
        · exact hq
      refine ⟨fun h => (hno slash h).2 rfl, fun h => hnul ?_⟩
      rw [hslash]
      exact mem_cons_of_mem _ (hno 0 h).1
    obtain ⟨hsteps, hok⟩ := autoMkdir_steps hsegs s []
      (backendRoot s.graph root) (by simp) rfl
    rw [htail]
    refine ⟨hsteps, fun p hp => ?_⟩
    obtain ⟨hgood, hwalk⟩ := hok p hp
    rw [hslash, resolvePathFrom_slash, components_eq_segments hgood]
    exact hwalk

theorem openCreate_steps (env : Env) (root : ℤ) (hnul : 0 ∉ path) (mode : UInt32) (s : Fs) :
    NodeSteps env s (openCreate env root path mode s).1 := by
  unfold openCreate
  split
  · exact .refl
  rcases hsplit : splitPath path with _ | pl
  · exact .refl
  obtain ⟨parentPath, leaf⟩ := pl
  obtain ⟨-, -, rest, q, -, hq, -⟩ := splitPath_some hsplit
  obtain ⟨hnulParent, hnulLeaf⟩ := splitPath_noNul hsplit hnul
  obtain ⟨hsteps, hok⟩ := openParent_steps env root hq hnulParent s
  simp only
  generalize openParent env root parentPath s = out at hsteps hok ⊢
  obtain ⟨s₁, _ | parentId⟩ := out
  · exact hsteps
  · have hparent := hok parentId rfl
    simp only at hsteps hparent ⊢
    generalize (if mode = 0 then (0o644 : UInt32) else mode) = mode'
    cases hcreate : createFile s₁.graph parentId leaf mode' with
    | mk g' out =>
      cases out with
      | error e => exact hsteps.tail (.tried s₁ .file parentId leaf mode' g' e hcreate)
      | ok id =>
        have hres : resolvePathFrom g' root path = some id := resolve_created hsplit hparent hcreate
        have hmade : NodeStep env s₁ (s₁.addNode env .file parentId leaf mode' g' id) :=
          .made s₁ .file parentId leaf mode' g' id (.inl rfl) hnulLeaf hcreate
        simp only [logUnlessSession_graph, hres]
        exact (hsteps.tail hmade).tail (.hinted _ id)

def Fs.openAt (s : Fs) (path : List UInt8) (id : ℤ) (i : Fin handlePool) : Fs :=
  { s with
    handles := Function.update s.handles i ⟨true, id, path.take (handlePathBytes - 1)⟩
    graph := inodeOpen s.graph id }

inductive OpenDone (env : Env) (path : List UInt8) (s : Fs) : Fs → Prop
  | steps {s₁} (h : NodeSteps env s s₁) : OpenDone env path s s₁
  | handle {s₁} (h : NodeSteps env s s₁) (id : ℤ) (i : Fin handlePool) :
      OpenDone env path s (s₁.openAt path id i)

theorem openHandle_done {env : Env} {s s₁ : Fs} (h : NodeSteps env s s₁) {id : ℤ} :
    OpenDone env path s (openHandle path s₁ id).1 := by
  unfold openHandle
  cases freeHandle s₁ with
  | none => exact .steps h
  | some i => exact .handle h id i

theorem opOpen_done (env : Env) (mountRoot : ℤ) (hnul : 0 ∉ path) (flags mode : UInt32) (s : Fs) :
    OpenDone env path s (opOpen env mountRoot path flags mode s).1 := by
  unfold opOpen
  simp only
  cases resolvePathFrom s.graph (backendRoot s.graph mountRoot) path with
  | some id => exact openHandle_done .refl
  | none =>
    simp only
    split_ifs
    · exact .steps .refl
    have hsteps := openCreate_steps env (backendRoot s.graph mountRoot) hnul mode s
    generalize openCreate env (backendRoot s.graph mountRoot) path mode s = out at hsteps ⊢
    obtain ⟨s₁, _ | id⟩ := out
    · exact .steps hsteps
    · exact openHandle_done hsteps

theorem mkdirRoot_steps (env : Env) (root : ℤ) (hnul : 0 ∉ path) (mode : UInt32) (s : Fs) :
    NodeSteps env s (mkdirRoot env root path mode s).1 := by
  unfold mkdirRoot
  split
  · exact .refl
  rcases hsplit : splitPath (stripTmpPrefix path) with _ | pl
  · exact .refl
  obtain ⟨parentPath, leaf⟩ := pl
  have hnulLeaf := (splitPath_noNul hsplit (stripTmpPrefix_noNul hnul)).2
  simp only
  cases resolvePathFrom s.graph root parentPath with
  | none => exact .refl
  | some parentId =>
    simp only
    split
    · exact .refl
    generalize (if mode = 0 then (0o755 : UInt32) else mode) = mode'
    cases hmk : mkdir s.graph parentId leaf mode' with
    | mk g' out =>
      cases out with
      | error e => exact .single (.tried s .dir parentId leaf mode' g' e hmk)
      | ok id => exact .single (.made s .dir parentId leaf mode' g' id (.inr rfl) hnulLeaf hmk)

def named (g : Graph) (root : ℤ) (path : List UInt8) : Option (ℤ × Name) :=
  (splitPath (stripTmpPrefix path)).bind fun pl =>
    (resolvePathFrom g root pl.1).map fun p => (p, pl.2)

theorem named_ne_nil {p : ℤ} {leaf : Name} (h : named g root path = some (p, leaf)) :
    leaf ≠ [] := by
  obtain ⟨⟨parent, leaf'⟩, hsplit, hres⟩ := Option.bind_eq_some_iff.mp h
  obtain ⟨p', -, heq⟩ := Option.map_eq_some_iff.mp hres
  rw [← (Prod.mk.inj heq).2]
  exact (splitPath_some hsplit).1

theorem named_noNul {p : ℤ} {leaf : Name} (h : named g root path = some (p, leaf)) (hnul : 0 ∉ path) :
    0 ∉ leaf := by
  obtain ⟨⟨parent, leaf'⟩, hsplit, hres⟩ := Option.bind_eq_some_iff.mp h
  obtain ⟨q, -, hq⟩ := Option.map_eq_some_iff.mp hres
  rw [← (Prod.mk.inj hq).2]
  exact (splitPath_noNul hsplit (stripTmpPrefix_noNul hnul)).2

theorem named_eq {parent : List UInt8} {leaf : Name} {p : ℤ}
    (hsplit : splitPath (stripTmpPrefix path) = some (parent, leaf))
    (hres : resolvePathFrom g root parent = some p) : named g root path = some (p, leaf) := by
  simp [named, hsplit, hres]

inductive UnlinkDone (env : Env) (root : ℤ) (path : List UInt8) (s : Fs) : Fs → Prop
  | same : UnlinkDone env root path s s
  | unlinked {p leaf g' sessions} (hnamed : named s.graph root path = some (p, leaf))
      (h : unlink s.graph p leaf = (g', .ok ()))
      (howner : ∀ id, sessionOwner sessions id = sessionOwner s.sessions id)
      (hcheck : env.isolated = true → env.session ≠ 0 → ∃ tgt, findEdge s.graph p leaf = some tgt ∧
          sessionOwner s.sessions (Slots.toId tgt) = env.session) :
      UnlinkDone env root path s
        (({ s with graph := g', sessions } : Fs).logUnlessSession env fun tx now =>
          unlinkRecord tx now p leaf)

theorem unlinkRoot_done (env : Env) (root : ℤ) (path : List UInt8) (s : Fs) :
    UnlinkDone env root path s (unlinkRoot env root path s).1 := by
  unfold unlinkRoot
  split
  · exact .same
  cases hsplit : splitPath (stripTmpPrefix path) with
  | none => exact .same
  | some pl =>
    obtain ⟨parentPath, leaf⟩ := pl
    simp only
    cases hres : resolvePathFrom s.graph root parentPath with
    | none => exact .same
    | some p =>
      simp only
      split
      · exact .same
      rename_i htgt
      split
      · exact .same
      rename_i howned
      cases hunlink : unlink s.graph p leaf with
      | mk g' out =>
        cases out with
        | error e =>
          rw [unlink_failed hunlink]
          exact .same
        | ok u =>
          refine .unlinked (named_eq hsplit hres) hunlink ?_ ?_
          · intro id
            split_ifs <;> first | exact sessionOwner_uncharge .. | rfl
          · intro hiso hsess
            have hcontained : (env.isolated && env.session != 0) = true := by simp [hiso, hsess]
            rw [hcontained, Bool.true_and] at htgt howned
            cases hfind : findEdge s.graph p leaf with
            | none => simp [hfind] at htgt
            | some tgt => exact ⟨tgt, rfl, by simpa [hfind] using howned⟩

inductive RmdirDone (env : Env) (root : ℤ) (path : List UInt8) (s : Fs) : Fs → Prop
  | same : RmdirDone env root path s s
  | removed {p leaf g'} (hnamed : named s.graph root path = some (p, leaf))
      (h : rmdir s.graph p leaf = (g', .ok ())) :
      RmdirDone env root path s
        (({ s with graph := g' } : Fs).log env fun tx now => rmdirRecord tx now p leaf)

theorem rmdirRoot_done (env : Env) (root : ℤ) (path : List UInt8) (s : Fs) :
    RmdirDone env root path s (rmdirRoot env root path s).1 := by
  unfold rmdirRoot
  split
  · exact .same
  cases hsplit : splitPath (stripTmpPrefix path) with
  | none => exact .same
  | some pl =>
    obtain ⟨parentPath, leaf⟩ := pl
    simp only
    cases hres : resolvePathFrom s.graph root parentPath with
    | none => exact .same
    | some p =>
      simp only
      cases hrmdir : rmdir s.graph p leaf with
      | mk g' out =>
        cases out with
        | error e =>
          rw [rmdir_failed hrmdir]
          exact .same
        | ok u => exact .removed (named_eq hsplit hres) hrmdir

structure RenamePaths (g : Graph) (root : ℤ) (oldpath newpath : List UInt8) (pSrc : ℤ) (sleaf : Name)
    (pDst : ℤ) (dleaf : Name) : Prop where
  differ : stripTmpPrefix oldpath ≠ stripTmpPrefix newpath
  src : named g root oldpath = some (pSrc, sleaf)
  dst : named g root newpath = some (pDst, dleaf)

inductive RenameDone (env : Env) (root : ℤ) (oldpath newpath : List UInt8) (s : Fs) : Fs → Prop
  | same : RenameDone env root oldpath newpath s s
  | moved {pSrc sleaf pDst dleaf g'}
      (hpaths : RenamePaths s.graph root oldpath newpath pSrc sleaf pDst dleaf)
      (hfree : findEdge s.graph pDst dleaf = none)
      (h : rename s.graph pSrc sleaf pDst dleaf = (g', .ok ())) :
      RenameDone env root oldpath newpath s
        (({ s with graph := g' } : Fs).log env fun tx now => renameRecord tx now pSrc sleaf pDst dleaf)
  | lost {pSrc sleaf pDst dleaf g' e}
      (hpaths : RenamePaths s.graph root oldpath newpath pSrc sleaf pDst dleaf)
      (hunlink : unlink s.graph pDst dleaf = (g', .ok ()))
      (h : rename g' pSrc sleaf pDst dleaf = (g', .error e)) :
      RenameDone env root oldpath newpath s { s with graph := g' }
  | replaced {pSrc sleaf pDst dleaf g' g'' sessions}
      (hpaths : RenamePaths s.graph root oldpath newpath pSrc sleaf pDst dleaf)
      (hunlink : unlink s.graph pDst dleaf = (g', .ok ()))
      (h : rename g' pSrc sleaf pDst dleaf = (g'', .ok ()))
      (howner : ∀ id, sessionOwner sessions id = sessionOwner s.sessions id) :
      RenameDone env root oldpath newpath s
        { (({ s with graph := g'' } : Fs).log env fun tx now => unlinkRecord tx now pDst dleaf).log env
            fun tx now => renameRecord tx now pSrc sleaf pDst dleaf with sessions }

theorem renameRoot_done (env : Env) (root : ℤ) (oldpath newpath : List UInt8) (s : Fs) :
    RenameDone env root oldpath newpath s (renameRoot env root oldpath newpath s).1 := by
  unfold renameRoot
  split
  · exact .same
  simp only
  split
  · exact .same
  rename_i hdiffer
  split
  · rename_i sparent sleaf dparent dleaf hsplitSrc hsplitDst
    split
    · rename_i pSrc pDst hsrc hdst
      have hpaths : RenamePaths s.graph root oldpath newpath pSrc sleaf pDst dleaf :=
        ⟨hdiffer, named_eq hsplitSrc hsrc, named_eq hsplitDst hdst⟩
      cases hfind : findEdge s.graph pDst dleaf with
      | none =>
        simp only [renameOnto]
        cases hren : rename s.graph pSrc sleaf pDst dleaf with
        | mk g' out =>
          cases out with
          | error e =>
            rw [rename_failed hren]
            exact .same
          | ok u => exact .moved hpaths hfind hren
      | some tgt =>
        simp only
        cases hunlink : unlink s.graph pDst dleaf with
        | mk g' out =>
          cases out with
          | error e =>
            rw [unlink_failed hunlink]
            exact .same
          | ok u =>
            simp only [renameOnto]
            cases hren : rename g' pSrc sleaf pDst dleaf with
            | mk g'' out =>
              cases out with
              | error e =>
                obtain rfl := rename_failed hren
                exact .lost hpaths hunlink hren
              | ok u =>
                refine .replaced hpaths hunlink hren ?_
                intro id
                split_ifs
                · exact sessionOwner_uncharge ..
                · rfl
    · exact .same
  · exact .same

inductive WriteDone (env : Env) (h : Fin handlePool) (buf : List UInt8) (cursor : ℤ) (s : Fs) :
    Fs → Prop
  | aside (sessions : Sessions) (cow : Cow)
      (howner : ∀ id, sessionOwner sessions id = sessionOwner s.sessions id) :
      WriteDone env h buf cursor s { s with sessions, cow }
  | contained (i : Fin maxInodes) (off : ℕ) (sessions : Sessions)
      (howner : ∀ id, sessionOwner sessions id = sessionOwner s.sessions id)
      (hiso : env.isolated = true)
      (hmine : sessionOwner s.sessions (Slots.toId i) = env.session) {g' d' rc}
      (hw : fileWrite s.graph s.dev (Slots.toId i) off buf = (g', d', rc)) {s'}
      (hs' : s' = { s with sessions, graph := g', dev := d' } ∨
        s' = ({ s with sessions, graph := g', dev := d' } : Fs).stampWrite env (Slots.toId i)) :
      WriteDone env h buf cursor s s'
  | refused (i : Fin maxInodes) (hslot : handleSlot s h = some i) (hiso : env.isolated = false)
      {g' d' e}
      (hw : fileWrite s.graph s.dev (Slots.toId i) (low32 cursor)
        (buf.take (buf.length % 2 ^ 32)) = (g', d', .error e)) :
      WriteDone env h buf cursor s { s with graph := g', dev := d' }
  | logged (i : Fin maxInodes) (hslot : handleSlot s h = some i) (hiso : env.isolated = false)
      {g' d' n}
      (hw : fileWrite s.graph s.dev (Slots.toId i) (low32 cursor)
        (buf.take (buf.length % 2 ^ 32)) = (g', d', .ok n)) :
      WriteDone env h buf cursor s
        (((({ s with graph := g', dev := d' } : Fs).log env fun tx now =>
          writeRecord tx now (Slots.toId i) (low32 cursor) (buf.take n)).stampWrite env
            (Slots.toId i)).applyPendingHint env (Slots.toId i))

theorem sessionWrite_done (h : Fin handlePool) {i : Fin maxInodes} {buf : List UInt8} {cursor : ℤ}
    {s : Fs} (hiso : env.isolated = true) :
    WriteDone env h buf cursor s (sessionWrite env h i buf cursor s).1 := by
  have hsame : WriteDone env h buf cursor s s := .aside s.sessions s.cow fun _ => rfl
  unfold sessionWrite
  simp only
  split
  · rename_i hmine
    split
    · exact hsame
    generalize hcharge : (if ((s.graph.inodes i).map (·.size)).getD 0 < cursor.toNat + buf.length then
      sessionCharge s.sessions env.session
        (cursor.toNat + buf.length - ((s.graph.inodes i).map (·.size)).getD 0)
      else (s.sessions, 0)) = out
    have howner : ∀ id, sessionOwner out.1 id = sessionOwner s.sessions id := by
      intro id
      rw [← hcharge]
      split
      · exact sessionOwner_charge ..
      · rfl
    split
    · exact .aside out.1 s.cow howner
    cases hw : fileWrite s.graph s.dev (Slots.toId i) cursor.toNat buf with
    | mk g' rest =>
      obtain ⟨d', _ | n⟩ := rest
      · exact .contained i _ out.1 howner hiso hmine hw (.inl rfl)
      · exact .contained i _ out.1 howner hiso hmine hw (.inr rfl)
  · split
    · exact hsame
    · exact .aside s.sessions _ fun _ => rfl

theorem opWrite_done (env : Env) (h : Fin handlePool) (buf : List UInt8) (cursor : ℤ) (s : Fs) :
    WriteDone env h buf cursor s (opWrite env h buf cursor s).1 := by
  have hsame : WriteDone env h buf cursor s s := .aside s.sessions s.cow fun _ => rfl
  unfold opWrite
  rcases hslot : handleSlot s h with _ | i
  · exact hsame
  simp only
  split
  · exact hsame
  split
  · rename_i hiso
    split
    · exact hsame
    · exact sessionWrite_done h hiso
  · rename_i hiso
    cases hw : fileWrite s.graph s.dev (Slots.toId i) (low32 cursor)
        (buf.take (buf.length % 2 ^ 32)) with
    | mk g' rest =>
      obtain ⟨d', _ | n⟩ := rest
      · exact .refused i hslot (by simpa using hiso) hw
      · exact .logged i hslot (by simpa using hiso) hw

theorem opTruncate_done (env : Env) (h : Fin handlePool) (newlen : ℤ) (s : Fs) :
    ∃ cow, (opTruncate env h newlen s).1 = { s with cow } := by
  unfold opTruncate
  split
  · exact ⟨s.cow, rfl⟩
  split
  · exact ⟨s.cow, rfl⟩
  · exact ⟨_, rfl⟩

end SotOs.Lucas
