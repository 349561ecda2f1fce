import SotOs.Lucas.Mirror
import SotOs.Sotfs.WholeWrite

/-! Replay faithfulness: in which runs of trusted calls the log rebuilds the files. -/

namespace SotOs.Lucas
open Sotfs Function Slots List Option

variable {p pSrc pDst root : ℤ} {name sleaf dleaf leaf : Name} {off : ℕ}
  {buf path content : List UInt8} {d₀ : Blkdev} {frames : List Frame} {s s' : Fs} {g' : Graph}
  {env : Env} {mode : UInt32}

section
variable (g : Graph) (d : Blkdev) (tx now : UInt64)

theorem apply_nodeRecord {kind : Kind} (hkind : kind = .file ∨ kind = .dir)
    (hp : (Int32.ofInt p).toInt = p) (hname : fieldName (nameField name) = name) (mode : UInt32) :
    (applyRecord (g, d) (nodeRecord kind p name mode tx now)).1 =
      ((createNode kind g p name mode).1, d) := by
  rcases hkind with rfl | rfl
  · change ((createFile g (Int32.ofInt p).toInt (fieldName (nameField name)) mode).1, d) = _
    rw [hp, hname]
    rfl
  · change ((mkdir g (Int32.ofInt p).toInt (fieldName (nameField name)) mode).1, d) = _
    rw [hp, hname]
    rfl

theorem apply_unlinkRecord (hp : (Int32.ofInt p).toInt = p)
    (hname : fieldName (nameField name) = name) :
    (applyRecord (g, d) (unlinkRecord tx now p name)).1 = ((unlink g p name).1, d) := by
  change ((unlink g (Int32.ofInt p).toInt (fieldName (nameField name))).1, d) = _
  rw [hp, hname]

theorem apply_rmdirRecord (hp : (Int32.ofInt p).toInt = p)
    (hname : fieldName (nameField name) = name) :
    (applyRecord (g, d) (rmdirRecord tx now p name)).1 = ((rmdir g p name).1, d) := by
  change ((rmdir g (Int32.ofInt p).toInt (fieldName (nameField name))).1, d) = _
  rw [hp, hname]

theorem apply_renameRecord (hsrc : (Int32.ofInt pSrc).toInt = pSrc)
    (hdst : (Int32.ofInt pDst).toInt = pDst) (hsleaf : fieldName (nameField sleaf) = sleaf)
    (hdleaf : fieldName (nameField dleaf) = dleaf) :
    (applyRecord (g, d) (renameRecord tx now pSrc sleaf pDst dleaf)).1 =
      ((rename g pSrc sleaf pDst dleaf).1, d) := by
  change ((rename g (Int32.ofInt pSrc).toInt (fieldName (nameField sleaf))
    (Int32.ofInt pDst).toInt (fieldName (nameField dleaf))).1, d) = _
  rw [hsrc, hdst, hsleaf, hdleaf]

theorem apply_writeRecord (i : Fin maxInodes) (hoff : off < 2 ^ 32) (hlen : buf.length ≤ walMaxBlob) :
    (applyRecord (g, d) (writeRecord tx now (toId i) off buf)).1 =
      ((fileWrite g d (toId i) off buf).1, (fileWrite g d (toId i) off buf).2.1) := by
  have hname : fieldName (writeRecord tx now (toId i) off buf).name = [] := by
    change fieldName (.replicate _ 0) = []
    decide
  have hoffset : (UInt32.ofNat off).toNat = off := UInt32.toNat_ofNat_of_lt' hoff
  have hkind : (writeRecord tx now (toId i) off buf).kind = .write := rfl
  unfold applyRecord
  simp only [hkind, hname, if_true, writeRecord_data hlen]
  change (onFile (fileWrite g d (Int32.ofInt (toId i)).toInt (UInt32.ofNat off).toNat buf)).1 = _
  rw [ofInt_toId, hoffset]
  rfl

end

variable {id : ℤ}

theorem stampWrite_erase : (s.stampWrite env id).graph.erase = s.graph.erase :=
  erase_modifyInode_hidden s.graph id fun _ => rfl

theorem stampCreate_erase (s : Fs) (env : Env) (id : ℤ) :
    (s.stampCreate env id).graph.erase = s.graph.erase :=
  erase_modifyInode_hidden s.graph id fun _ => rfl

theorem applyPendingHint_erase (s : Fs) (env : Env) (id : ℤ) :
    (s.applyPendingHint env id).graph.erase = s.graph.erase := by
  unfold Fs.applyPendingHint
  split_ifs
  · exact erase_modifyInode_hidden s.graph id fun _ => rfl
  · rfl

@[simp] theorem applyPendingHint_dev (s : Fs) (env : Env) (id : ℤ) :
    (s.applyPendingHint env id).dev = s.dev := by
  unfold Fs.applyPendingHint
  split_ifs <;> rfl

theorem Mirrored.logGraph (h : Mirrored d₀ frames s) (hgraph : Tame g') (env : Env)
    (record : UInt64 → UInt64 → Record)
    (hrecord : ∀ d tx now, (applyRecord (s.graph.erase, d) (record tx now)).1 = (g'.erase, d))
    (hroom : s.wal.cursor + 848 ≤ walEnd) :
    ∃ frames', Mirrored d₀ frames' (({ s with graph := g' } : Fs).log env record) := by
  exact h.log { s with graph := g' } rfl (.refl _) (fun _ _ => rfl) h.sound hgraph env record
    (fun low tx now => hrecord (s.dev.reseat low) tx now) hroom

theorem Mirrored.room {s₁ : Fs} (h : Mirrored d₀ frames s) (hcap : walEnd + 848 ≤ s.dev.st.capacity)
    (hwal : s₁.wal = s.wal) (hdev : s₁.dev = s.dev) (env : Env) (record : UInt64 → UInt64 → Record)
    (hend : (s₁.log env record).wal.cursor ≤ walEnd) : s.wal.cursor + 848 ≤ walEnd := by
  obtain ⟨tx, now, reply, happ⟩ := log_appended s₁ env record
  have hle := happ.cursor_le
  rw [hwal, hdev] at happ
  have hupper : s.wal.cursor ≤ walEnd := h.holds.upper
  have hok := happ.ok_of_sound h.initialised h.sound (by simp only; omega)
  exact (happ.cursor_ok hok).trans hend

theorem Mirrored.node (h : Mirrored d₀ frames s) (hcap : walEnd + 848 ≤ s.dev.st.capacity)
    (hsession : env.session = 0) (hstep : NodeStep env s s') (hend : s'.wal.cursor ≤ walEnd) :
    ∃ frames', Mirrored d₀ frames' s' := by
  cases hstep with
  | made kind p name mode g' id hkind hnul hcreate =>
    have hwal : (s.addNode env kind p name mode g' id).wal =
        (({ s with graph := g' } : Fs).log env (nodeRecord kind p name mode)).wal := by
      rw [Fs.addNode, tag_wal, Fs.logUnlessSession, if_pos hsession]
      rfl
    rw [hwal] at hend
    have hroom := h.room hcap rfl rfl env (nodeRecord kind p name mode) hend
    have hc := createNode_created kind s.graph p name mode
    rw [hcreate] at hc
    have hrange : (Int32.ofInt p).toInt = p ∧ name.length < maxName := by
      cases hc with
      | created i j _ hlen hdir _ _ _ =>
        obtain ⟨n, hn, -⟩ := hdir
        exact ⟨ofInt_inode hn, hlen⟩
    have hname := fieldName_nameField hnul hrange.2
    have hrecord : ∀ d tx now, (applyRecord (s.graph.erase, d)
        (nodeRecord kind p name mode tx now)).1 = (g'.erase, d) := by
      intro d tx now
      rw [apply_nodeRecord _ _ _ _ hkind hrange.1 hname, createNode_erase, hcreate]
      rfl
    obtain ⟨frames', hlogged⟩ := h.logGraph (h.graph.created hcreate) env
      (nodeRecord kind p name mode) hrecord hroom
    refine ⟨frames', hlogged.congr hwal ?_ ?_⟩
    · rw [Fs.addNode, tag_dev, Fs.logUnlessSession, if_pos hsession]
      rfl
    · rw [addNode_graph]
      exact erase_modifyInode_hidden g' id fun _ => rfl
  | tried kind p name mode g' e hcreate =>
    have hsame := h.graph.create_error hcreate
    exact ⟨frames, h.congr rfl rfl (by rw [hsame])⟩
  | hinted id =>
    exact ⟨frames, h.congr applyPendingHint_wal (applyPendingHint_dev s env id)
      (applyPendingHint_erase s env id)⟩

def ClosedAt (g : Graph) (p : ℤ) (leaf : Name) : Prop :=
  ∀ i c n, findEdge g p leaf = some i → g.edges i = some ⟨p, c, leaf⟩ → g.inode c = some n →
    n.openCount = 0

def FileClosedAt (g : Graph) (p : ℤ) (leaf : Name) : Prop :=
  ∀ i c n, findEdge g p leaf = some i → g.edges i = some ⟨p, c, leaf⟩ → g.inode c = some n →
    n.kind ≠ .dir → n.openCount = 0

variable {g : Graph}

theorem FileClosedAt.closedAt (h : FileClosedAt g p leaf)
    (hunlink : unlink g p leaf = (g', .ok ())) : ClosedAt g p leaf := by
  obtain ⟨i, c, -, hfind, hedge, hkind, -⟩ := unlink_ok hunlink
  intro i' c' n hfind' hedge' hn
  obtain rfl : i = i' := some.inj (hfind.symm.trans hfind')
  obtain rfl : toId c = c' := by
    rw [hedge, some.injEq] at hedge'
    exact congrArg Edge.childId hedge'
  refine h i _ n hfind hedge hn fun hdir => hkind ?_
  rw [Graph.inode_toId] at hn
  rw [hn, map_some, hdir]

theorem checkDir_range (h : checkDir g p = none) : (Int32.ofInt p).toInt = p := by
  obtain ⟨n, hn, -⟩ := checkDir_none h
  exact ofInt_inode hn

theorem unlink_mirror (h : Tame g) (hnul : 0 ∉ leaf)
    (hunlink : unlink g p leaf = (g', .ok ())) (hclosed : ClosedAt g p leaf) (d : Blkdev)
    (tx now : UInt64) :
    (applyRecord (g.erase, d) (unlinkRecord tx now p leaf)).1 = (g'.erase, d) := by
  obtain ⟨i, c, hdir, hfind, -⟩ := unlink_ok hunlink
  have hname := fieldName_nameField hnul (h.leaf_length hfind)
  rw [apply_unlinkRecord _ _ _ _ (checkDir_range hdir) hname, unlink_erase hclosed, hunlink]
  rfl

theorem UnlinkDone.mirror (hd : UnlinkDone env root path s s') (h : Mirrored d₀ frames s)
    (hsession : env.session = 0) (hnul : 0 ∉ path)
    (hclosed : ∀ p leaf, named s.graph root path = some (p, leaf) → FileClosedAt s.graph p leaf)
    (hroom : s.wal.cursor + 848 ≤ walEnd) : ∃ frames', Mirrored d₀ frames' s' := by
  cases hd with
  | same => exact ⟨frames, h⟩
  | @unlinked p leaf g' sessions hnamed hunlink _ _ =>
    have hshut := (hclosed p leaf hnamed).closedAt hunlink
    obtain ⟨frames', hlogged⟩ := h.logGraph (h.graph.unlinked hunlink hshut) env
      (fun tx now => unlinkRecord tx now p leaf)
      (unlink_mirror h.graph (named_noNul hnamed hnul) hunlink hshut) hroom
    refine ⟨frames', hlogged.congr ?_ ?_ ?_⟩
    · rw [Fs.logUnlessSession, if_pos hsession]
      rfl
    · rw [Fs.logUnlessSession, if_pos hsession]
      rfl
    · rw [logUnlessSession_graph, log_graph]

theorem RmdirDone.mirror (hd : RmdirDone env root path s s') (h : Mirrored d₀ frames s)
    (hnul : 0 ∉ path) (hroom : s.wal.cursor + 848 ≤ walEnd) :
    ∃ frames', Mirrored d₀ frames' s' := by
  cases hd with
  | same => exact ⟨frames, h⟩
  | @removed p leaf g' hnamed hrmdir =>
    have hr := rmdir_removed s.graph p leaf
    rw [hrmdir] at hr
    have hrange : (Int32.ofInt p).toInt = p ∧ leaf.length < maxName := by
      cases hr with
      | removed i c hdir hfind _ _ _ =>
        obtain ⟨n, hn, -⟩ := hdir
        exact ⟨ofInt_inode hn, h.graph.leaf_length hfind⟩
    have hname := fieldName_nameField (named_noNul hnamed hnul) hrange.2
    refine h.logGraph (h.graph.removed hrmdir) env (fun tx now => rmdirRecord tx now p leaf) ?_ hroom
    intro d tx now
    rw [apply_rmdirRecord _ _ _ _ hrange.1 hname, rmdir_erase, hrmdir]
    rfl

theorem rename_mirror (h : Tame g) (hsnul : 0 ∉ sleaf) (hdnul : 0 ∉ dleaf)
    (hren : rename g pSrc sleaf pDst dleaf = (g', .ok ())) (d : Blkdev) (tx now : UInt64) :
    (applyRecord (g.erase, d) (renameRecord tx now pSrc sleaf pDst dleaf)).1 = (g'.erase, d) := by
  have hr := rename_renamed g pSrc sleaf pDst dleaf
  rw [hren] at hr
  have hrange : ((Int32.ofInt pSrc).toInt = pSrc ∧ (Int32.ofInt pDst).toInt = pDst) ∧
      sleaf.length < maxName ∧ dleaf.length < maxName := by
    cases hr with
    | renamed old j c hsrc hdst hnew hfind _ _ _ =>
      obtain ⟨n, hn, -⟩ := hsrc
      obtain ⟨n', hn', -⟩ := hdst
      exact ⟨⟨ofInt_inode hn, ofInt_inode hn'⟩, h.leaf_length hfind, hnew.2⟩
  rw [apply_renameRecord _ _ _ _ hrange.1.1 hrange.1.2 (fieldName_nameField hsnul hrange.2.1)
    (fieldName_nameField hdnul hrange.2.2), rename_erase, hren]
  rfl

theorem rename_over (h : Tame g) {src tgt : Fin maxEdges} (hsne : sleaf ≠ [])
    (hdne : dleaf ≠ []) (hunlink : unlink g pDst dleaf = (g', .ok ()))
    (hclosed : ClosedAt g pDst dleaf) (hsrc : findEdge g pSrc sleaf = some src)
    (htgt : findEdge g pDst dleaf = some tgt) (hne : src ≠ tgt) {e : Err} :
    rename g' pSrc sleaf pDst dleaf ≠ (g', .error e) := by
  have htame := h.unlinked hunlink hclosed
  obtain ⟨i, c, hdir, hfind, hedge, hkind, hg'⟩ := unlink_ok hunlink
  obtain rfl : i = tgt := some.inj (hfind.symm.trans htgt)
  obtain ⟨es, hes, hesp, hesn⟩ := findEdge_some hsrc
  have hes' : g'.edges src = some es := by
    rw [hg', dropLink_edges]
    exact (update_of_ne hne _ _).trans hes
  -- the source is still found, by whatever slot, and its parent is a directory
  have hsrcdir : checkDir g' pSrc = none := by
    obtain ⟨n, hn, hk⟩ := htame.parent_dir src es hes'
    rw [hesp] at hn
    simp [checkDir, hn, hk]
  obtain ⟨src', hsrc'⟩ : ∃ src', findEdge g' pSrc sleaf = some src' :=
    first_isSome (j := src) (by simp [hes', hesp, hesn])
  obtain ⟨es', hedge', -, -⟩ := findEdge_some hsrc'
  have hdstdir : checkDir g' pDst = none := by
    obtain ⟨n, hn, hk⟩ := checkDir_none hdir
    obtain ⟨_, c', hfind', hedge'', hkind', hlocal⟩ := local_unlinked hunlink
    have hout : pDst ∉ ({c'} : Set ℤ) := by
      rintro rfl
      rw [hn, map_some, hk] at hkind'
      exact hkind' rfl
    have hface := (hlocal.others pDst hout).inode
    rw [hn, map_some] at hface
    obtain ⟨n', hn', hf⟩ := map_eq_some_iff.mp hface
    have hk' : n'.kind = .dir := (congrArg Prod.fst hf).trans hk
    simp [checkDir, hn', hk']
  have hfree : findEdge g' pDst dleaf = none := by
    rcases hf : findEdge g' pDst dleaf with _ | k
    · rfl
    obtain ⟨ek, hek, hp, hn⟩ := findEdge_some hf
    obtain ⟨hek', hk⟩ := unlink_edges hunlink hfind hek
    exact absurd (h.edge_unique k i ek _ hek' hedge hp hn) hk
  have hnames : checkNames sleaf dleaf = none := by
    have hslen := h.leaf_length hsrc
    have hdlen := h.leaf_length htgt
    rw [checkNames, if_neg hsne, if_neg hdne, if_neg (Nat.not_le.mpr hslen),
      if_neg (Nat.not_le.mpr hdlen)]
  obtain ⟨j, hj⟩ := htame.free_edge
  obtain ⟨k, hk⟩ := firstFrom_isSome g'.nextEdgeHint (p := fun j => (g'.edges j).isNone)
    ⟨j, by rw [hj]; rfl⟩
  unfold rename allocEdge
  simp [hnames, hsrcdir, hdstdir, hsrc', hedge', hfree, hk]

def RenameFits (g : Graph) (root : ℤ) (oldpath newpath : List UInt8) : Prop :=
  ∀ pSrc sleaf pDst dleaf, RenamePaths g root oldpath newpath pSrc sleaf pDst dleaf →
    FileClosedAt g pDst dleaf ∧
    ∀ tgt c, findEdge g pDst dleaf = some tgt → g.edges tgt = some ⟨pDst, c, dleaf⟩ →
      (g.inode c).map (·.kind) ≠ some .dir → ∃ src, findEdge g pSrc sleaf = some src ∧ src ≠ tgt

theorem RenameDone.mirror {oldpath newpath : List UInt8}
    (hd : RenameDone env root oldpath newpath s s') (h : Mirrored d₀ frames s) (hold : 0 ∉ oldpath)
    (hnew : 0 ∉ newpath) (hfits : RenameFits s.graph root oldpath newpath)
    (hroom : s.wal.cursor + 896 + 848 ≤ walEnd) : ∃ frames', Mirrored d₀ frames' s' := by
  cases hd with
  | same => exact ⟨frames, h⟩
  | @moved pSrc sleaf pDst dleaf g' hpaths _ hren =>
    have hsnul := named_noNul hpaths.src hold
    have hdnul := named_noNul hpaths.dst hnew
    exact h.logGraph (h.graph.renamed hren) env _
      (rename_mirror h.graph hsnul hdnul hren) (by omega)
  | @lost pSrc sleaf pDst dleaf g' e hpaths hunlink hren =>
    obtain ⟨hfile, hsrc⟩ := hfits pSrc sleaf pDst dleaf hpaths
    obtain ⟨tgt, c, -, htgt, hedge, hkind, -⟩ := unlink_ok hunlink
    obtain ⟨src, hfind, hne⟩ := hsrc tgt _ htgt hedge (by rwa [Graph.inode_toId])
    exact absurd hren (rename_over h.graph (named_ne_nil hpaths.src) (named_ne_nil hpaths.dst)
      hunlink (hfile.closedAt hunlink) hfind htgt hne)
  | @replaced pSrc sleaf pDst dleaf g' g'' sessions hpaths hunlink hren _ =>
    have hsnul := named_noNul hpaths.src hold
    have hdnul := named_noNul hpaths.dst hnew
    have hshut := (hfits pSrc sleaf pDst dleaf hpaths).1.closedAt hunlink
    have htame := h.graph.unlinked hunlink hshut
    -- the records come in the order of the two changes, the changes before both records
    obtain ⟨frames₁, h₁⟩ := h.logGraph htame env (fun tx now => unlinkRecord tx now pDst dleaf)
      (unlink_mirror h.graph hdnul hunlink hshut) (by omega)
    have hcursor := log_cursor_add { s with graph := g' } env
      fun tx now => unlinkRecord tx now pDst dleaf
    obtain ⟨frames₂, h₂⟩ := h₁.logGraph (htame.renamed hren) env
      (fun tx now => renameRecord tx now pSrc sleaf pDst dleaf)
      (rename_mirror htame hsnul hdnul hren) (by simp only at hcursor; omega)
    exact ⟨frames₂, h₂.congr rfl rfl rfl⟩

theorem Mirrored.logFile (h : Mirrored d₀ frames s) (s₁ : Fs) {g : Graph} (hinv : StoreInv g s.dev)
    (htame : Tame g) {id : ℤ} (hwal : s₁.wal = s.wal)
    (hdev : s₁.dev = (fileWrite g s.dev id off buf).2.1)
    (hgraph : s₁.graph.erase = (fileWrite g s.dev id off buf).1.erase) (env : Env)
    (record : UInt64 → UInt64 → Record)
    (hrecord : ∀ d tx now, (applyRecord (s.graph.erase, d) (record tx now)).1 =
      ((fileWrite g.erase d id off buf).1, (fileWrite g.erase d id off buf).2.1))
    (hroom : s.wal.cursor + 848 ≤ walEnd) : ∃ frames', Mirrored d₀ frames' (s₁.log env record) := by
  have hkept := fileWrite_kept hinv id off buf
  refine h.log s₁ hwal ?_ ?_ ?_ ?_ env record ?_ (by rw [hwal]; exact hroom)
  · rw [hdev]
    exact fileWrite_same g s.dev id off buf
  · intro a ha
    rw [hdev]
    exact fileWrite_below g s.dev id off buf (ha.trans_le h.heap)
  · rw [hdev]
    exact hkept.inv.healthy.sound
  · exact (htame.written s.dev id off buf).of_erase hgraph
  · intro low tx now
    rw [hrecord, fileWrite_erase, fileWrite_reseat, hdev, hgraph]
    rfl

theorem low32_lt (n : ℤ) : low32 n < 2 ^ 32 := by
  unfold low32
  omega

theorem take_length_mod (h : buf.length < 2 ^ 32) : buf.take (buf.length % 2 ^ 32) = buf := by
  rw [Nat.mod_eq_of_lt h, take_length]

theorem WriteDone.mirror {hd : Fin handlePool} {cursor : ℤ}
    (hdone : WriteDone env hd buf cursor s s') (h : Mirrored d₀ frames s) (hinv : FsInv s)
    (hiso : env.isolated = false) (hlen : buf.length ≤ walMaxBlob)
    (hfits : WriteFits s.graph s.dev (low32 cursor) buf.length)
    (hroom : s.wal.cursor + 848 ≤ walEnd) : ∃ frames', Mirrored d₀ frames' s' := by
  have hmod : buf.take (buf.length % 2 ^ 32) = buf := take_length_mod (hlen.trans_lt (by decide))
  cases hdone with
  | aside sessions cow _ => exact ⟨frames, h.congr rfl rfl rfl⟩
  | contained _ _ _ _ htrue _ _ _ =>
    rw [hiso] at htrue
    cases htrue
  | refused i _ _ hw =>
    obtain ⟨hg, hdev⟩ := fileWrite_error hw
    exact ⟨frames, h.congr rfl hdev (by rw [hg])⟩
  | @logged i _ _ g' d' n hw =>
    rw [hmod] at hw
    have hn := fileWrite_ok hinv.store (hlen.trans (by decide)) hfits hw
    rw [hn, take_length]
    obtain ⟨frames', hlogged⟩ := h.logFile { s with graph := g', dev := d' } hinv.store
      h.graph rfl (by rw [hw]) (by rw [hw]) env
      (fun tx now => writeRecord tx now (toId i) (low32 cursor) buf)
      (fun d tx now => apply_writeRecord _ d tx now i (low32_lt cursor) hlen) hroom
    refine ⟨frames', hlogged.congr ?_ ?_ ?_⟩
    · rw [applyPendingHint_wal]
      rfl
    · rw [applyPendingHint_dev]
      rfl
    · rw [applyPendingHint_erase, stampWrite_erase]

def installLeaf (path : List UInt8) : Name := if path.head? = some slash then path.tail else path

structure InstallFits (s : Fs) (path content : List UInt8) : Prop where
  fresh : findEdge s.graph s.graph.rootId (installLeaf path) = none
  plain : checkName (installLeaf path) = none →
    path = slash :: installLeaf path ∧ slash ∉ installLeaf path ∧ path.length < walNameBytes
  content : checkName (installLeaf path) = none →
    content.length ≤ walMaxBlob ∧ (content ≠ [] → Room 1 s.graph s.dev)

theorem splitPath_top (hne : leaf ≠ []) (hslash : slash ∉ leaf) :
    splitPath (slash :: leaf) = some ([slash], leaf) := by
  have htake : (slash :: leaf).rtakeWhile (· != slash) = leaf := by
    have hall : ∀ c ∈ leaf, (c != slash) = true := by
      intro c hc
      simp only [bne_iff_ne, ne_eq]
      rintro rfl
      exact hslash hc
    rw [rtakeWhile, reverse_cons, takeWhile_append_of_pos]
    · simp
    · intro c hc
      exact hall c (mem_reverse.mp hc)
  unfold splitPath
  simp [htake, hne]

theorem resolve_installed {id : ℤ} (hslash : slash ∉ leaf)
    (hcreate : createFile g g.rootId leaf mode = (g', .ok id)) :
    resolvePath g' (slash :: leaf) = some id := by
  have hne : leaf ≠ [] := by
    have hc := createNode_created .file g g.rootId leaf mode
    rw [show createNode .file g g.rootId leaf mode = (g', .ok id) from hcreate] at hc
    cases hc with
    | created i j hname _ _ _ _ _ => exact hname
  have hroot : resolvePathFrom g g.rootId [slash] = some g.rootId := by
    rw [resolvePathFrom_slash]
    unfold backendRoot
    split_ifs <;> rfl
  unfold resolvePath
  rw [createNode_rootId hcreate]
  exact resolve_created (splitPath_top hne hslash) hroot hcreate

variable {d : Blkdev} {tx now : UInt64}

theorem apply_installRecord (hpath : fieldName (nameField path) = path)
    (hlen : content.length ≤ walMaxBlob) {id : ℤ}
    (hcreate : createFile g g.rootId (installLeaf path) 0o644 = (g', .ok id))
    (hres : resolvePath g' path = some id) :
    (applyRecord (g, d) (installRecord tx now path content)).1 =
      ((fileWrite g' d id 0 content).1, (fileWrite g' d id 0 content).2.1) := by
  have hname : fieldName (installRecord tx now path content).name = path := hpath
  have hkind : (installRecord tx now path content).kind = .install := rfl
  have hleaf : (if path.head? = some slash then path.tail else path) = installLeaf path := rfl
  unfold applyRecord
  simp only [hkind, hname, hleaf, hcreate, hres, installRecord_data hlen]
  rfl

structure Installed (g g' : Graph) (leaf : Name) (id : ℤ) : Prop where
  name : checkName leaf = none
  live : ∃ n, g'.inode id = some n ∧ n.kind = .file
  blocks : g'.blocks = g.blocks

theorem createFile_installed {id : ℤ}
    (hcreate : createFile g p leaf mode = (g', .ok id)) : Installed g g' leaf id := by
  have hc := createNode_created .file g p leaf mode
  rw [show createNode .file g p leaf mode = (g', .ok id) from hcreate] at hc
  cases hc with
  | created i j hname hlen _ _ _ _ =>
    refine ⟨?_, ⟨.fresh .file mode, ?_, rfl⟩, rfl⟩
    · rw [checkName, if_neg hname, if_neg (Nat.not_le.mpr hlen)]
    · rw [Graph.inode_toId]
      exact update_self ..

theorem install_mirror (h : Mirrored d₀ frames s) (hinv : FsInv s) (hnul : 0 ∉ path)
    (hfits : InstallFits s path content) (hroom : s.wal.cursor + 848 ≤ walEnd) :
    ∃ frames', Mirrored d₀ frames' (install env path content s).1 := by
  by_cases hempty : path = []
  · rw [install, if_pos hempty]
    exact ⟨frames, h⟩
  rw [install, if_neg hempty]
  have hleaf : (if path.head? = some slash then path.tail else path) = installLeaf path := rfl
  simp only [hleaf, hfits.fresh, isSome_none, Bool.false_eq_true, if_false]
  generalize hcreate : createFile s.graph s.graph.rootId (installLeaf path) 0o644 = out
  obtain ⟨g', rc⟩ := out
  rcases rc with e | id
  · have hsame := h.graph.create_error hcreate
    exact ⟨frames, h.congr rfl rfl (by simp only [hsame])⟩
  obtain ⟨hname, hlive, hblocks⟩ := createFile_installed hcreate
  obtain ⟨hpath, hslash, hshort⟩ := hfits.plain hname
  obtain ⟨hlen, hroom₁⟩ := hfits.content hname
  have hres : resolvePath g' path = some id := by
    rw [hpath]
    exact resolve_installed hslash hcreate
  have htame : Tame g' := h.graph.created hcreate
  have hstore : StoreInv g' s.dev := hinv.store.of_subset fun i b hb => hblocks ▸ hb
  have hroom' : content ≠ [] → Room 1 g' s.dev := by
    intro hne
    obtain ⟨⟨S, hcard, hS⟩, hdisk⟩ := hroom₁ hne
    exact ⟨⟨S, hcard, fun i hi => hblocks ▸ hS i hi⟩, hdisk⟩
  have hcovers : Covers 1 0 0 content.length := covers_one.mpr (hlen.trans (by decide))
  obtain ⟨g'', d'', hw⟩ := fileWrite_succeeds hstore hlive hcovers hroom'
  simp only [hres, take_length_mod (hlen.trans_lt (by decide)), hw]
  refine h.logFile (({ s with graph := g'', dev := d'' } : Fs).stampCreate env id) hstore htame rfl
    (by rw [hw]; rfl) ?_ env _ ?_ hroom
  · rw [hw]
    exact stampCreate_erase { s with graph := g'', dev := d'' } env id
  · intro d tx now
    have hcreate' : createFile s.graph.erase s.graph.erase.rootId (installLeaf path) 0o644 =
        (g'.erase, .ok id) := by
      change createNode .file s.graph.erase s.graph.rootId (installLeaf path) 0o644 = _
      rw [createNode_erase, show createNode .file s.graph s.graph.rootId (installLeaf path) 0o644 =
        (g', .ok id) from hcreate]
      rfl
    exact apply_installRecord (fieldName_nameField hnul hshort) hlen hcreate'
      (by rw [resolvePath_erase, hres])

end SotOs.Lucas
