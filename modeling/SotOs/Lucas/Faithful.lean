import SotOs.Lucas.Replay

/-! Replay faithfulness over whole runs: from a blank log, in every run of trusted calls that a
replay can repeat, the log rebuilds the files. -/

namespace SotOs.Lucas
open Sotfs Machine Function LittleEndian List Option

structure HasRoom (k : ℕ) (s : Fs) : Prop where
  inside : s.wal.cursor ≤ walEnd
  room : s.wal.cursor + 896 * k ≤ walEnd + 48

variable {s' : Fs} {path : List UInt8} {env : Env} {d₀ : Blkdev} {frames : List Frame} {g : Graph}
  {st : Storage}

section
variable {k : ℕ} {s : Fs}

theorem HasRoom.one (h : HasRoom (k + 1) s) : s.wal.cursor + 848 ≤ walEnd := by
  have hbound : ∀ c e : ℕ, c + 896 * (k + 1) ≤ e + 48 → c + 848 ≤ e := by
    intro c e
    omega
  exact hbound _ _ h.room

theorem HasRoom.two (h : HasRoom (k + 2) s) : s.wal.cursor + 896 + 848 ≤ walEnd := by
  have hbound : ∀ c e : ℕ, c + 896 * (k + 2) ≤ e + 48 → c + 896 + 848 ≤ e := by
    intro c e
    omega
  exact hbound _ _ h.room

theorem HasRoom.mono {j : ℕ} (h : HasRoom k s) (hjk : j ≤ k) : HasRoom j s := by
  refine ⟨h.inside, le_trans ?_ h.room⟩
  exact Nat.add_le_add_left (Nat.mul_le_mul_left _ hjk) _

theorem HasRoom.congr (h : HasRoom k s) (hwal : s'.wal = s.wal) : HasRoom k s' :=
  ⟨hwal ▸ h.inside, hwal ▸ h.room⟩

theorem HasRoom.log (h : HasRoom (k + 1) s) (env : Env) (record : UInt64 → UInt64 → Record) :
    HasRoom k (s.log env record) := by
  have hadd := Nat.add_le_add_right (log_cursor_add s env record) (896 * k)
  refine ⟨log_cursor_room s env record h.one, hadd.trans ?_⟩
  rw [Nat.add_right_comm, Nat.add_assoc, ← Nat.mul_succ]
  exact h.room

theorem HasRoom.logUnlessSession (h : HasRoom (k + 1) s) (env : Env)
    (record : UInt64 → UInt64 → Record) : HasRoom k (s.logUnlessSession env record) := by
  unfold Fs.logUnlessSession
  split_ifs
  · exact h.log env record
  · exact h.mono (Nat.le_succ k)

theorem autoMkdir_room (env : Env) (root : ℤ) (rest : List Name) :
    ∀ {s : Fs} (cur : List UInt8) (p : ℤ), HasRoom (rest.length + k) s →
      HasRoom k (autoMkdir env root s cur p rest).1 := by
  induction rest with
  | nil =>
    intro s cur p h
    exact h.mono (Nat.le_add_left _ _)
  | cons seg rest ih =>
    intro s cur p h
    have hless : HasRoom (rest.length + k) s := h.mono (by rw [length_cons]; omega)
    rw [length_cons, Nat.add_right_comm] at h
    rw [autoMkdir]
    split_ifs
    · exact hless.mono (Nat.le_add_left _ _)
    · exact hless.mono (Nat.le_add_left _ _)
    simp only
    split
    · exact ih _ _ hless
    split
    · exact (hless.mono (Nat.le_add_left _ _)).congr rfl
    rename_i g _ _
    have hlog := HasRoom.logUnlessSession (s := { s with graph := g }) (h.congr rfl) env
      fun tx now => mkdirRecord tx now p seg 0o755
    split
    · exact hlog.mono (Nat.le_add_left _ _)
    · refine ih _ _ (hlog.congr ?_)
      rw [tag_wal]
      rfl

end

theorem length_segments (rest : List UInt8) : ∀ cur : List UInt8,
    (segments cur rest).length ≤ rest.count slash + 1 := by
  induction rest with
  | nil =>
    intro cur
    rw [segments]
    split_ifs <;> simp
  | cons c rest ih =>
    intro cur
    rw [segments]
    split_ifs with hc
    · have := ih []
      rw [hc, length_cons, count_cons_self]
      omega
    · have := ih (cur ++ [c])
      rw [count_cons_of_ne hc]
      exact this

theorem splitPath_slashes {parent p : List UInt8} {leaf : Name}
    (h : splitPath path = some (parent, leaf)) (hp : parent = slash :: p) :
    (segments [] p).length + 1 ≤ path.count slash := by
  obtain ⟨-, -, q, hq, hcase⟩ := splitPath_eq h
  obtain rfl : p = q := (List.cons.inj (hp.symm.trans hq)).2
  rcases hcase with ⟨rfl, rfl⟩ | hpath
  · rw [count_cons_self]
    simp [segments]
  · have := length_segments p []
    rw [hpath, hp, count_append, count_cons_self, count_cons_self]
    omega

def openRecords (env : Env) (path : List UInt8) (flags : UInt32) : ℕ :=
  if flags &&& oCreat = 0 then 0 else if env.fpersist then path.count slash else 1

theorem openCreate_room {s : Fs} (h : HasRoom (if env.fpersist then path.count slash else 1) s)
    (root : ℤ) (mode : UInt32) : HasRoom 0 (openCreate env root path mode s).1 := by
  have hzero : HasRoom 0 s := h.mono (Nat.zero_le _)
  unfold openCreate
  split
  · exact hzero
  split
  · exact hzero
  rename_i parentPath leaf hsplit
  have hparent : HasRoom 0 (openParent env root parentPath s).1 ∧
      ∀ p, (openParent env root parentPath s).2 = .ok p →
        HasRoom 1 (openParent env root parentPath s).1 := by
    obtain ⟨-, -, q, hq, -⟩ := splitPath_eq hsplit
    have hslashes := splitPath_slashes hsplit hq
    have hone : HasRoom 1 s := by
      apply h.mono
      split_ifs <;> omega
    unfold openParent
    split
    · exact ⟨hzero, fun _ _ => hone⟩
    split
    · exact ⟨hzero, fun _ _ => hone⟩
    rename_i hpersist
    simp only
    split
    · exact ⟨hzero, fun _ _ => hone⟩
    have hfp : env.fpersist = true := by simpa using hpersist
    rw [hfp, if_pos rfl] at h
    have hmade : HasRoom 1 (autoMkdir env root s [] (backendRoot s.graph root)
        (segments [] (if parentPath.head? = some slash then parentPath.tail else parentPath))).1 := by
      apply autoMkdir_room
      rw [hq]
      exact h.mono hslashes
    exact ⟨hmade.mono (Nat.zero_le _), fun _ _ => hmade⟩
  generalize openParent env root parentPath s = out at hparent ⊢
  obtain ⟨s₁, rc⟩ := out
  rcases rc with rc | p
  · exact hparent.1
  have hone := hparent.2 p rfl
  simp only
  split
  · exact (hone.mono (Nat.zero_le _)).congr rfl
  rename_i g _ _
  have hlog := HasRoom.logUnlessSession (s := { s₁ with graph := g }) (hone.congr rfl) env
    fun tx now => createFileRecord tx now p leaf (if mode = 0 then 0o644 else mode)
  split
  · exact hlog
  · refine hlog.congr ?_
    rw [applyPendingHint_wal, tag_wal]
    rfl

theorem opOpen_room {flags : UInt32} {s : Fs} (h : HasRoom (openRecords env path flags) s)
    (mountRoot : ℤ) (mode : UInt32) : HasRoom 0 (opOpen env mountRoot path flags mode s).1 := by
  have hhandle : ∀ {s₁ : Fs} (id : ℤ), HasRoom 0 s₁ → HasRoom 0 (openHandle path s₁ id).1 := by
    intro s₁ id h₁
    unfold openHandle
    split
    · exact h₁
    · exact h₁.congr rfl
  unfold opOpen
  simp only
  split
  · exact hhandle _ (h.mono (Nat.zero_le _))
  split
  · exact h.mono (Nat.zero_le _)
  rename_i hcreat
  rw [openRecords, if_neg hcreat] at h
  have hcreate := openCreate_room h (backendRoot s.graph mountRoot) mode
  generalize openCreate env (backendRoot s.graph mountRoot) path mode s = out at hcreate ⊢
  obtain ⟨s₁, rc⟩ := out
  cases rc with
  | error rc => exact hcreate
  | ok id => exact hhandle id hcreate

variable {root : ℤ} {mode : UInt32}

theorem mkdirRoot_room {k : ℕ} {s : Fs} (h : HasRoom (k + 1) s) :
    HasRoom k (mkdirRoot env root path mode s).1 := by
  have hless : HasRoom k s := h.mono (Nat.le_succ k)
  unfold mkdirRoot
  split
  · exact hless
  split
  · exact hless
  split
  · exact hless
  split
  · exact hless
  simp only
  split
  · exact hless.congr rfl
  rename_i leaf _ _ p _ _ _ g id _
  have hlog := HasRoom.logUnlessSession (s := { s with graph := g }) (h.congr rfl) env
    fun tx now => mkdirRecord tx now p leaf (if mode = 0 then 0o755 else mode)
  refine hlog.congr ?_
  rw [tag_wal]
  rfl

def FsOp.replayable : FsOp → Bool
  -- A read moves pages of the store, which a replay does not repeat; a disconnect is a session's.
  | .read .. | .reap _ => false
  | _ => true

def FsOp.records (env : Env) : FsOp → ℕ
  | .open _ path flags _ => openRecords env path.bytes flags
  | .write .. | .mkdir .. | .unlink .. | .rmdir .. | .install .. => 1
  | .rename .. => 2
  | _ => 0

def ReplayFits (s : Fs) : FsOp → Prop
  | .write _ buf cursor =>
    buf.length ≤ walMaxBlob ∧ WriteFits s.graph s.dev (low32 cursor) buf.length
  | .unlink mountRoot path => ∀ p leaf,
    named s.graph (backendRoot s.graph mountRoot) path.bytes = some (p, leaf) →
      FileClosedAt s.graph p leaf
  | .rename mountRoot oldpath newpath =>
    RenameFits s.graph (backendRoot s.graph mountRoot) oldpath.bytes newpath.bytes
  | .install path content => InstallFits s path.bytes content
  | _ => True

structure ReplayedCall (s : Fs) (call : Env × FsOp) : Prop where
  trusted : call.1.isolated = false
  session : call.1.session = 0
  op : call.2.replayable = true
  room : HasRoom (call.2.records call.1) s
  fits : ReplayFits s call.2

theorem NodeSteps.mirror {s : Fs} (hsteps : NodeSteps env s s') (h : Mirrored d₀ frames s)
    (hheap : walEnd ≤ d₀.heapOff) (hcap : walEnd + 848 ≤ d₀.st.capacity)
    (hsession : env.session = 0) (hend : s'.wal.cursor ≤ walEnd) :
    ∃ frames', Mirrored d₀ frames' s' := by
  refine hsteps.induction hend (P := fun s => ∃ frames, Mirrored d₀ frames s) ⟨frames, h⟩ ?_
  rintro s₁ s₂ hstep hend₂ ⟨frames₁, h₁⟩
  exact h₁.node (by rw [h₁.capacity_eq hheap]; exact hcap) hsession hstep hend₂

theorem OpenDone.mirror {s : Fs} (hd : OpenDone env path s s') (h : Mirrored d₀ frames s)
    (hheap : walEnd ≤ d₀.heapOff) (hcap : walEnd + 848 ≤ d₀.st.capacity)
    (hsession : env.session = 0) (hend : s'.wal.cursor ≤ walEnd) :
    ∃ frames', Mirrored d₀ frames' s' := by
  cases hd with
  | steps hs => exact NodeSteps.mirror hs h hheap hcap hsession hend
  | handle hs id i =>
    obtain ⟨frames', h'⟩ := NodeSteps.mirror hs h hheap hcap hsession hend
    refine ⟨frames', h'.congr rfl rfl ?_⟩
    apply erase_modifyInode_hidden
    intro n
    split <;> rfl

theorem inodeClose_erase (h : Tame g) {id : ℤ} : (inodeClose g id).erase = g.erase := by
  unfold inodeClose
  rcases hn : g.inode id with _ | n
  · rfl
  have hlinked := h.linked id n hn
  simp only [hlinked, Bool.false_eq_true, and_false, if_false]
  exact erase_modifyInode_hidden g id fun _ => rfl

theorem opDupHandle_erase {hd : Fin handlePool} {s : Fs} :
    (opDupHandle hd s).1.wal = s.wal ∧ (opDupHandle hd s).1.dev = s.dev ∧
      (opDupHandle hd s).1.graph.erase = s.graph.erase := by
  unfold opDupHandle
  split_ifs
  · exact ⟨rfl, rfl, rfl⟩
  split
  · exact ⟨rfl, rfl, rfl⟩
  refine ⟨rfl, rfl, ?_⟩
  apply erase_modifyInode_hidden
  intro n
  split <;> rfl

theorem ReplayedCall.mirror {s : Fs} {call : Env × FsOp} (hc : ReplayedCall s call)
    (h : Mirrored d₀ frames s) (hinv : FsInv s) (hheap : walEnd ≤ d₀.heapOff)
    (hcap : walEnd + 848 ≤ d₀.st.capacity) : ∃ frames', Mirrored d₀ frames' (fsStep s call).1 := by
  obtain ⟨env, op⟩ := call
  obtain ⟨htrusted, hsession, hop, hroom, hfits⟩ := hc
  cases op with
  | «open» mountRoot path flags mode =>
    exact (opOpen_done env mountRoot path.noNul flags mode s).mirror h hheap hcap hsession
      (opOpen_room hroom mountRoot mode).inside
  | close hd =>
    refine ⟨frames, ?_⟩
    change Mirrored d₀ frames (opClose hd s).1
    unfold opClose
    split_ifs
    · exact h.congr rfl rfl (inodeClose_erase h.graph)
    · exact h
  | dupHandle hd =>
    obtain ⟨hwal, hdev, herase⟩ := opDupHandle_erase
    exact ⟨frames, h.congr hwal hdev herase⟩
  | read hd count cursor => cases hop
  | write hd buf cursor =>
    exact (opWrite_done env hd buf cursor s).mirror h hinv htrusted hfits.1 hfits.2 hroom.one
  | truncate hd newlen =>
    obtain ⟨cow, heq⟩ := opTruncate_done env hd newlen s
    refine ⟨frames, ?_⟩
    change Mirrored d₀ frames (opTruncate env hd newlen s).1
    rw [heq]
    exact h.congr rfl rfl rfl
  | mkdir mountRoot path mode =>
    have hsteps := mkdirRoot_steps env (backendRoot s.graph mountRoot) path.noNul mode s
    exact NodeSteps.mirror hsteps h hheap hcap hsession (mkdirRoot_room hroom).inside
  | unlink mountRoot path =>
    exact (unlinkRoot_done env _ path.bytes s).mirror h hsession path.noNul hfits hroom.one
  | rmdir mountRoot path =>
    exact (rmdirRoot_done env _ path.bytes s).mirror h path.noNul hroom.one
  | rename mountRoot oldpath newpath =>
    exact (renameRoot_done env _ oldpath.bytes newpath.bytes s).mirror h oldpath.noNul newpath.noNul
      hfits hroom.two
  | install path content => exact install_mirror h hinv path.noNul hfits hroom.one
  | reap session => cases hop

def bootStore (st : Storage) : Blkdev :=
  (blkdevInit (bssBlkdev st) st dataOffset dataRegionBytes false).1

theorem bootStore_attached (hs : st.Sound) :
    Attached dataOffset dataRegionBytes st (bootStore st) :=
  blkdevInit_attached (fun _ => rfl) hs dataOffset dataRegionBytes false

structure Above (off : ℕ) (st st' : Storage) : Prop where
  bytes : ∀ a, off ≤ a → st'.bytes a = st.bytes a
  capacity : st'.capacity = st.capacity
  sound : st.Sound
  sound' : st'.Sound

section
variable {off : ℕ} {d : Blkdev} {st' : Storage}

theorem Above.read (h : Above off d.st st') {at' : ℕ} (hat : off ≤ at') (len : ℕ) :
    stRead { d with st := st' } at' len = stRead d at' len := by
  have hread : Overlay.read st'.bytes at' len = Overlay.read d.st.bytes at' len := by
    apply Overlay.read_congr
    intro k _
    exact h.bytes _ (by omega)
  rw [stRead, stRead, Storage.readBlock, Storage.readBlock, h.capacity, hread]

theorem Above.write (h : Above off d.st st') (at' : ℕ) (buf : List UInt8) :
    ∃ st₁, stWrite { d with st := st' } at' buf =
        ({ (stWrite d at' buf).1 with st := st₁ }, (stWrite d at' buf).2) ∧
      Above off (stWrite d at' buf).1.st st₁ := by
  by_cases hcap : at' + buf.length ≤ d.st.capacity
  · have hcap' : at' + buf.length ≤ st'.capacity := h.capacity ▸ hcap
    rw [stWrite, stWrite, Storage.writeBlock_sound h.sound hcap,
      Storage.writeBlock_sound h.sound' hcap']
    refine ⟨_, rfl, ?_, h.capacity, h.sound, h.sound'⟩
    intro a ha
    simp only [Overlay.write]
    rw [h.bytes a ha]
  · have hlt := Nat.not_le.mp hcap
    rw [stWrite, stWrite, Storage.writeBlock, Storage.writeBlock, h.capacity, if_pos hlt, if_pos hlt]
    exact ⟨st', rfl, h⟩

theorem Above.format (h : Above off d.st st') :
    ∃ st₁, (blkdevFormat { d with st := st' }).1 = { (blkdevFormat d).1 with st := st₁ } ∧
      Above off (blkdevFormat d).1.st st₁ := by
  obtain ⟨d₀, hd₀⟩ : ∃ d₀ : Blkdev, d₀ = { d with bitmap := fun _ => false, used := 0 } := ⟨_, rfl⟩
  have hd₀' : { d₀ with st := st' } =
      { d with st := st', bitmap := fun _ => false, used := 0 } := by rw [hd₀]
  have h₀ : Above off d₀.st st' := by rwa [hd₀]
  obtain ⟨st₁, hfirst, h₁⟩ := h₀.write d₀.regionOff (superblock d₀)
  rw [blkdevFormat_eq hd₀' hfirst, blkdevFormat_eq hd₀ rfl]
  generalize stWrite d₀ d₀.regionOff (superblock d₀) = out at h₁ ⊢
  obtain ⟨d₁, rc⟩ := out
  simp only
  split_ifs
  · exact ⟨st₁, rfl, h₁⟩
  · obtain ⟨st₂, hsecond, h₂⟩ := h₁.write d₁.bitmapOff
      ((range (bitmapPhys d₁)).map (packBits d₁.bitmap))
    exact ⟨st₂, congrArg Prod.fst hsecond, h₂⟩

theorem Above.attach (h : Above off d.st st') (hbitmap : off ≤ d.bitmapOff) (sb : List UInt8) :
    ∃ st₁, (blkdevAttach { d with st := st' } sb).1 = { (blkdevAttach d sb).1 with st := st₁ } ∧
      Above off (blkdevAttach d sb).1.st st₁ := by
  have hread : stRead { d with st := st' } d.bitmapOff (bitmapPhys d) =
      stRead d d.bitmapOff (bitmapPhys d) := h.read hbitmap _
  refine ⟨st', ?_⟩
  by_cases hmagic : decode (sb.take 4) ≠ blkdevMagic ∨ decode ((sb.drop 4).take 4) ≠ blkdevVersion
  · rw [blkdevAttach, blkdevAttach, if_pos hmagic, if_pos hmagic]
    exact ⟨rfl, h⟩
  by_cases htotal : decode ((sb.drop 8).take 8) ≠ d.totalBlocks
  · rw [blkdevAttach, blkdevAttach, if_neg hmagic, if_neg hmagic, if_pos htotal, if_pos htotal]
    exact ⟨rfl, h⟩
  rw [blkdevAttach, blkdevAttach, if_neg hmagic, if_neg hmagic, if_neg htotal, if_neg htotal]
  simp only [bitmapPhys] at hread ⊢
  rw [hread]
  split <;> exact ⟨rfl, h⟩

theorem Above.bringUp (h : Above off d.st st') (hregion : off ≤ d.regionOff)
    (hbitmap : off ≤ d.bitmapOff) (fresh : Bool) :
    ∃ st₁, (bringUp { d with st := st' } fresh).1 = { (bringUp d fresh).1 with st := st₁ } ∧
      Above off (bringUp d fresh).1.st st₁ := by
  have hread : stRead { d with st := st' } d.regionOff blockSize = stRead d d.regionOff blockSize :=
    h.read hregion _
  unfold SotOs.Sotfs.bringUp
  simp only
  rw [hread]
  split
  · split
    · exact h.format
    · exact ⟨st', rfl, h⟩
  · split
    · exact h.format
    · exact h.attach hbitmap _

end

theorem bootStore_reseat {st' : Storage} (h : Above dataOffset st st') :
    bootStore st' = (bootStore st).reseat (bootStore st').st.bytes := by
  have hboot : ∃ st₁, bootStore st' = { bootStore st with st := st₁ } ∧
      Above dataOffset (bootStore st).st st₁ := by
    unfold bootStore
    rw [blkdevInit_eq, blkdevInit_eq]
    by_cases hzero :
        (computeGeometry { bssBlkdev st with st } dataOffset dataRegionBytes).totalBlocks = 0
    · rw [if_pos hzero, if_pos (show (computeGeometry { bssBlkdev st' with st := st' } dataOffset
        dataRegionBytes).totalBlocks = 0 from hzero)]
      exact ⟨st', rfl, h⟩
    · rw [if_neg hzero, if_neg (show ¬(computeGeometry { bssBlkdev st' with st := st' } dataOffset
        dataRegionBytes).totalBlocks = 0 from hzero)]
      exact Above.bringUp (d := laidOut { bssBlkdev st with st } dataOffset dataRegionBytes) h
        (Nat.le_refl _) (Nat.le_add_right _ _) false
  obtain ⟨st₁, heq, habove⟩ := hboot
  have hheap := (bootStore_attached h.sound).heap
  have hbytes : (fun a => if a < (bootStore st).heapOff then st₁.bytes a
      else (bootStore st).st.bytes a) = st₁.bytes := by
    funext a
    split_ifs with ha
    · rfl
    · exact (habove.bytes a (hheap.trans (Nat.not_lt.mp ha))).symm
  rw [heq]
  unfold Blkdev.reseat
  simp only [hbytes]
  rw [← habove.capacity, ← show st₁.faults = (bootStore st).st.faults from
    habove.sound'.trans habove.sound.symm]

structure Faithful (d₀ : Blkdev) (s : Fs) : Prop where
  inv : FsInv s
  mirrored : ∃ frames, Mirrored d₀ frames s

theorem graphInit_tame : Tame graphInit := by
  refine ⟨graphInv_init, ?_, ?_⟩
  · intro id n hn
    rw [graphInit_eq] at hn
    obtain ⟨i, rfl, hi⟩ := Graph.inode_eq_some.mp hn
    by_cases h0 : i = 0
    · subst h0
      obtain ⟨⟩ := hi
      rfl
    · simp [update_of_ne h0] at hi
  · intro i e he
    rw [graphInit_eq] at he
    cases he

theorem graphInit_erase : graphInit.erase = graphInit := by
  rw [graphInit_eq]
  unfold Graph.erase
  congr 1
  funext i
  by_cases h0 : i = 0
  · subst h0
    rfl
  · simp [update_of_ne h0]

variable {now : ℤ}

theorem lazyInit_faithful (hs : st.Sound) (hcap : imgTotalBytes ≤ st.capacity)
    (hzero : ∀ a, walOffset ≤ a → a < walEnd → st.bytes a = 0) :
    Faithful (bootStore st) (lazyInit st now) := by
  have hlog := freshFs_sameLog hs now
  have hzero' : ∀ a, walOffset ≤ a → a < walEnd → (freshFs st now).dev.st.bytes a = 0 :=
    fun a hlo hhi => (hlog.bytes a hlo hhi).trans (hzero a hlo hhi)
  have hholds := holds_init hzero ⟨0, 0, false, 0, false⟩
  rw [lazyInit_blank hs now hholds.nextHeader_cursor]
  have hinv := freshFs_inv hs hcap now
  have herase : (freshFs st now).graph.erase = graphInit := by
    refine Eq.trans ?_ graphInit_erase
    exact erase_modifyInode_hidden graphInit graphInit.rootId fun _ => rfl
  refine ⟨hinv, [], holds_init hzero' _, rfl, hinv.store.healthy.sound, hinv.image, hinv.heap, ?_, ?_⟩
  · exact graphInit_tame.of_erase (herase.trans graphInit_erase.symm)
  · intro low
    rw [herase]
    rfl

theorem exec_faithful (hheap : walEnd ≤ d₀.heapOff) (hcap : walEnd + 848 ≤ d₀.st.capacity) {s : Fs}
    (h : Faithful d₀ s) {calls : List (Env × FsOp)}
    (hcalls : ∀ e ∈ trace fsStep s calls, ReplayedCall e.pre e.input) :
    Faithful d₀ (exec fsStep s calls) := by
  refine exec_invariant_of fsStep (P := Faithful d₀) ?_ h calls hcalls
  rintro s call hc ⟨hinv, frames, hmirrored⟩
  obtain ⟨frames', h'⟩ := hc.mirror hmirrored hinv hheap hcap
  exact ⟨fsStep_inv hinv h'.holds.upper, frames', h'⟩

def pathView (g : Graph) (d : Blkdev) (path : List UInt8) :
    Option (Kind × UInt32 × Except Err (List UInt8)) :=
  (resolvePath g path).bind fun id =>
    (g.inode id).map fun n => (n.kind, n.mode, (fileRead g d id 0 n.size).2)

theorem pathView_erase {d : Blkdev} : pathView g.erase d path = pathView g d path := by
  unfold pathView
  rw [resolvePath_erase]
  congr 1
  funext id
  rw [erase_inode, Option.map_map]
  congr 1
  funext n
  change (n.kind, n.mode, (fileRead g.erase d id 0 n.size).2) = _
  rw [fileRead_erase]

theorem pathView_reseat {d : Blkdev} (h : Healthy d) {low : ℕ → UInt8} :
    pathView g (d.reseat low) path = pathView g d path := by
  have hstored : Stored d (d.reseat low) d.view := by
    refine h.low_write h.sound rfl fun a ha => ?_
    exact if_neg (Nat.not_lt.mpr ha)
  unfold pathView
  congr 1
  funext id
  congr 1
  funext n
  rw [fileRead_congr h hstored.healthy rfl fun off => pageAt_stored hstored]

def withLog (st log : Storage) : Storage :=
  { st with bytes := fun a => if a < walEnd then log.bytes a else st.bytes a }

def Rebuilds (st : Storage) (s : Fs) : Prop :=
  ∀ w, ∃ w' out, walReplayFiles (walInit w) (graphInit, bootStore (withLog st s.dev.st)) =
      some (w', out) ∧
    ∀ path, pathView out.state.1 out.state.2 path = pathView s.graph s.dev path

theorem Faithful.rebuilds (hs : st.Sound) {s : Fs} (h : Faithful (bootStore st) s) :
    Rebuilds st s := by
  intro w
  obtain ⟨frames, hm⟩ := h.mirrored
  have hs' : (withLog st s.dev.st).Sound := hs
  have habove : Above dataOffset st (withLog st s.dev.st) :=
    ⟨fun a ha => if_neg (Nat.not_lt.mpr ha), rfl, hs, hs'⟩
  have hseat := bootStore_reseat habove
  have hattached := bootStore_attached hs'
  have hcapacity := hm.capacity_eq (bootStore_attached hs).heap
  have hlog : SameLog (bootStore (withLog st s.dev.st)).st s.dev.st := by
    refine ⟨hattached.capacity.trans ?_, fun a _ ha => ?_⟩
    · rw [hcapacity, (bootStore_attached hs).capacity]
      rfl
    · rw [hattached.below a ha]
      exact if_pos ha
  have hscan := hm.holds.scanned graphInit hlog hattached.heap
  refine ⟨_, _, rfl, fun path => ?_⟩
  rw [hscan.state, hseat, hm.replay, pathView_erase, pathView_reseat h.inv.store.healthy]

theorem replayed_faithful (hs : st.Sound) (hcap : imgTotalBytes ≤ st.capacity)
    (hzero : ∀ a, walOffset ≤ a → a < walEnd → st.bytes a = 0) {calls : List (Env × FsOp)}
    (hcalls : ∀ e ∈ trace fsStep (lazyInit st now) calls, ReplayedCall e.pre e.input) :
    Faithful (bootStore st) (exec fsStep (lazyInit st now) calls) := by
  have hattached := bootStore_attached hs
  have hbehind : walEnd + 848 ≤ imgTotalBytes := by decide
  refine exec_faithful hattached.heap ?_ (lazyInit_faithful hs hcap hzero) hcalls
  rw [hattached.capacity]
  exact hbehind.trans hcap

/-- From a blank log, in every run of trusted calls that a replay repeats, the log rebuilds what
every path shows. -/
theorem replay_rebuilds {st : Storage} (hs : st.Sound) (hcap : imgTotalBytes ≤ st.capacity)
    (hzero : ∀ a, walOffset ≤ a → a < walEnd → st.bytes a = 0) (now : ℤ)
    (calls : List (Env × FsOp))
    (hcalls : ∀ e ∈ trace fsStep (lazyInit st now) calls, ReplayedCall e.pre e.input) :
    Rebuilds st (exec fsStep (lazyInit st now) calls) :=
  (replayed_faithful hs hcap hzero hcalls).rebuilds hs

def madeAndRemoved : List (Env × FsOp) := [(bootEnv, .mkdir 0 pathA 0), (bootEnv, .rmdir 0 pathA)]

theorem boot_room : HasRoom 1 (lazyInit blankImage 0) := by
  constructor
  · rw [boot_cursor]
    decide
  · rw [boot_cursor]
    decide

theorem madeAndRemoved_replayed : ∀ e ∈ trace fsStep (lazyInit blankImage 0) madeAndRemoved,
      ReplayedCall e.pre e.input := by
  intro e he
  simp only [madeAndRemoved, trace, mem_cons, not_mem_nil, or_false] at he
  rcases he with rfl | rfl
  · exact ⟨rfl, rfl, rfl, boot_room, trivial⟩
  refine ⟨rfl, rfl, rfl, ?_, trivial⟩
  have hboot : HasRoom 2 (lazyInit blankImage 0) := by
    refine ⟨boot_room.inside, ?_⟩
    rw [boot_cursor]
    decide
  exact mkdirRoot_room hboot

theorem replay_rebuilds_madeAndRemoved :
    Rebuilds blankImage (exec fsStep (lazyInit blankImage 0) madeAndRemoved) := by
  have hsound : blankImage.Sound := rfl
  exact replay_rebuilds hsound (Nat.le_refl _) (fun _ _ _ => rfl) 0 madeAndRemoved
    madeAndRemoved_replayed

def madeFile : List (Env × FsOp) :=
  [(bootEnv, .open 0 pathA oCreat 0), (bootEnv, .close ⟨0, handlePool_pos⟩)]

theorem madeFile_replayed :
    ∀ e ∈ trace fsStep (lazyInit blankImage 0) madeFile, ReplayedCall e.pre e.input := by
  intro e he
  simp only [madeFile, trace, mem_cons, not_mem_nil, or_false] at he
  rcases he with rfl | rfl
  · exact ⟨rfl, rfl, rfl, boot_room, trivial⟩
  · have hroom : HasRoom (openRecords bootEnv pathA.bytes oCreat) (lazyInit blankImage 0) := boot_room
    exact ⟨rfl, rfl, rfl, opOpen_room hroom 0 0, trivial⟩

theorem renameRoot_failed {root : ℤ} {oldpath newpath : List UInt8} {s : Fs}
    (h : (renameRoot env root oldpath newpath s).2 ≠ .code 0) :
    (renameRoot env root oldpath newpath s).1.dev = s.dev := by
  have honto : ∀ (hadDst : Bool) (credit : UInt32 × ℕ) (pSrc : ℤ) (sleaf : Name) (pDst : ℤ)
      (dleaf : Name) (s₁ : Fs), s₁.dev = s.dev →
      (renameOnto env hadDst credit pSrc sleaf pDst dleaf s₁).2 ≠ .code 0 →
      (renameOnto env hadDst credit pSrc sleaf pDst dleaf s₁).1.dev = s.dev := by
    intro hadDst credit pSrc sleaf pDst dleaf s₁ hdev hrc
    unfold renameOnto at hrc ⊢
    split at hrc
    · exact hdev
    · exact absurd rfl hrc
  unfold renameRoot at h ⊢
  simp only at h ⊢
  split_ifs at h ⊢
  · rfl
  · rfl
  split at h
  · split at h
    · split at h
      · exact honto _ _ _ _ _ _ s rfl h
      · split at h
        · rfl
        · exact honto _ _ _ _ _ _ _ rfl h
    · rfl
  · rfl

theorem lost_file_replayed :
    let s := exec fsStep (lazyInit blankImage 0)
      (madeFile ++ [(bootEnv, .rename 0 pathB pathA)])
    pathView s.graph s.dev pathA.bytes = none ∧
      ∃ w' out, walReplayFiles (walInit bootWal) (graphInit, bootStore (withLog blankImage s.dev.st)) =
        some (w', out) ∧ (pathView out.state.1 out.state.2 pathA.bytes).isSome = true := by
  have hsound : blankImage.Sound := rfl
  have hfaithful := replayed_faithful hsound (Nat.le_refl _) (fun _ _ _ => rfl)
    madeFile_replayed
  rw [exec_append]
  rw [boot_eq] at hfaithful ⊢
  have hrc : (fsStep (exec fsStep (freshFs blankImage 0) madeFile)
      (bootEnv, .rename 0 pathB pathA)).2 ≠ .code 0 := by decide +kernel
  have hgone : resolvePath (fsStep (exec fsStep (freshFs blankImage 0) madeFile)
      (bootEnv, .rename 0 pathB pathA)).1.graph pathA.bytes = none := by decide +kernel
  have hid : resolvePath (exec fsStep (freshFs blankImage 0) madeFile).graph pathA.bytes =
      some 2 := by decide +kernel
  have hlive : ((exec fsStep (freshFs blankImage 0) madeFile).graph.inode 2).isSome = true := by
    decide +kernel
  generalize exec fsStep (freshFs blankImage 0) madeFile = s at *
  have hdev : (fsStep s (bootEnv, .rename 0 pathB pathA)).1.dev = s.dev := renameRoot_failed hrc
  simp only [exec]
  constructor
  · rw [pathView, hgone, bind_none]
  · obtain ⟨w', out, hreplay, hview⟩ := hfaithful.rebuilds hsound bootWal
    rw [hdev]
    refine ⟨w', out, hreplay, ?_⟩
    rw [hview, pathView, hid, bind_some, isSome_map]
    exact hlive

end SotOs.Lucas
