import SotOs.Sotfs.Sparse

/-! Files over runs: a file reads as its own writes since it was created, laid over zeros, whatever
happened to other files. -/

namespace SotOs.Sotfs
open SparseFile Machine Slots List Option GraphOp

/-- The write is whole and below the 32-bit limit, or stops at its first block or within the file.
-/
def WriteOk (g : Graph) (d : Blkdev) (f : ℤ) (offset len : ℕ) : Prop :=
  offset < 2 ^ 32 ∧ ∀ n, g.inode f = some n → n.kind = .file →
    match stopsAt g d f n.size offset len with
    | none => offset + len < 2 ^ 32
    | some q => q ≤ offset ∨ q ≤ n.size

variable {f p : ℤ} {n n' : Inode} {offset len k : ℕ} {d' : Blkdev} {buf : List UInt8}
  {w : File UInt8} {name : Name} {rc : Except Err Unit} {mode : UInt32}
  {out : Graph × Blkdev × Except Err ℕ} {st : Storage}

variable {g g' : Graph} {d : Blkdev}

theorem WriteOk.bound {g : Graph} (hok : WriteOk g d f offset len)
    (hn : g.inode f = some n) (hkind : n.kind = .file) (hsmall : n.size < 2 ^ 32) :
    offset + bytesIn g d f n.size offset len < 2 ^ 32 := by
  obtain ⟨hoff, hfits⟩ := hok
  have hfits := hfits n hn hkind
  unfold bytesIn
  rcases hq : stopsAt g d f n.size offset len with _ | q
  · rw [hq] at hfits
    exact hfits
  rw [hq] at hfits
  simp only at hfits ⊢
  omega

theorem fileWrite_cut (hbuf : buf ≠ []) (hn : g.inode f = some n)
    (hkind : n.kind = .file)
    (hloop : writeLoop f offset n.size buf.length g d 0 buf = (g', d', k, false)) :
    fileWrite g d f offset buf = (g', d', if 0 < k then .ok k else .error .errNospace) := by
  rw [fileWrite, if_neg hbuf, hn]
  simp only [hkind, ne_eq, not_true_eq_false, if_false, hloop]

theorem fileWrite_whole (hbuf : buf ≠ []) (hn : g.inode f = some n)
    (hkind : n.kind = .file)
    (hloop : writeLoop f offset n.size buf.length g d 0 buf = (g', d', k, true)) :
    fileWrite g d f offset buf =
      (g'.modifyInode f fun n => if n.size < (offset + buf.length) % 2 ^ 32 then
        { n with size := (offset + buf.length) % 2 ^ 32 } else n, d', .ok k) := by
  rw [fileWrite, if_neg hbuf, hn]
  simp only [hkind, ne_eq, not_true_eq_false, if_false, hloop]

structure FileOk (w : File UInt8) (f : ℤ) (n : Inode) (g : Graph) (d : Blkdev) : Prop where
  size : n.size = w.size
  small : n.size < 2 ^ 32
  paged : Paged (pageAt g d f) w.bytes
  below : ∀ i b, g.blocks i = some b → b.fileId = f → b.offset < n.size

theorem FileOk.ahead {g : Graph} (h : FileOk w f n g d) (off : ℕ) :
    Ahead g f n.size off :=
  fun i b hb hfile => .inl (h.below i b hb hfile)

theorem FileOk.writeLoop {g : Graph} (h : FileOk w f n g d) (hinv : SparseInv g d)
    (hn : g.inode f = some n) (hkind : n.kind = .file) (hok : WriteOk g d f offset buf.length) :
    Laid f n.size offset (bytesIn g d f n.size offset buf.length) w.bytes buf
        (writeLoop f offset n.size buf.length g d 0 buf).1
        (writeLoop f offset n.size buf.length g d 0 buf).2.1 ∧
      (writeLoop f offset n.size buf.length g d 0 buf).2.2 =
        (bytesIn g d f n.size offset buf.length,
          (stopsAt g d f n.size offset buf.length).isNone) := by
  exact writeLoop_laid hinv h.paged h.ahead (hok.bound hn hkind h.small)

def resized (n : Inode) (size : ℕ) : Inode := if n.size < size then { n with size } else n

theorem resized_size {size : ℕ} : (resized n size).size = max n.size size := by
  unfold resized
  split_ifs with h
  · exact (Nat.max_eq_right h.le).symm
  · exact (Nat.max_eq_left (Nat.not_lt.mp h)).symm

theorem FileOk.whole (h : FileOk w f n g d)
    (hlaid : Laid f n.size offset buf.length w.bytes buf g' d')
    (hbound : offset + buf.length < 2 ^ 32) :
    FileOk (w.write offset buf) f (resized n (offset + buf.length))
      (g'.modifyInode f fun n => resized n (offset + buf.length)) d' := by
  have hsmall := h.small
  refine ⟨?_, ?_, ?_, ?_⟩
  · rw [resized_size, h.size]
    rfl
  · rw [resized_size]
    omega
  · have hpaged := hlaid.paged
    rw [take_of_length_le le_rfl] at hpaged
    intro q k
    rw [pageAt_modifyInode]
    exact hpaged q k
  · intro i b hb hfile
    rw [modifyInode_blocks] at hb
    have := hlaid.ahead i b hb hfile
    rw [resized_size]
    omega

theorem FileOk.cut (h : FileOk w f n g d)
    (hlaid : Laid f n.size offset k w.bytes buf g' d') (hbound : offset + k ≤ n.size) :
    FileOk (w.write offset (buf.take k)) f n g' d' := by
  have hlen : (buf.take k).length ≤ k := length_take_le ..
  refine ⟨?_, h.small, hlaid.paged, ?_⟩
  · have hmax : max w.size (offset + (buf.take k).length) = w.size := by
      have := h.size
      omega
    rw [h.size]
    exact hmax.symm
  · intro i b hb hfile
    have := hlaid.ahead i b hb hfile
    omega

def written (w : File UInt8) (offset : ℕ) (buf : List UInt8) (rc : ℤ) : File UInt8 :=
  if 0 < rc then w.write offset (buf.take rc.toNat) else w

theorem FileOk.fileWrite {g : Graph} (h : FileOk w f n g d) (hinv : SparseInv g d)
    (hn : g.inode f = some n) (hkind : n.kind = .file) (hok : WriteOk g d f offset buf.length) :
    SparseInv (fileWrite g d f offset buf).1 (fileWrite g d f offset buf).2.1 ∧
      ∃ n', (fileWrite g d f offset buf).1.inode f = some n' ∧ FileOk (written w offset buf
          (returnCode (fun k : ℕ => (k : ℤ)) (fileWrite g d f offset buf).2.2)) f n'
          (fileWrite g d f offset buf).1 (fileWrite g d f offset buf).2.1 := by
  by_cases hbuf : buf = []
  · have hnothing : Sotfs.fileWrite g d f offset buf = (g, d, .ok 0) := by
      rw [Sotfs.fileWrite, if_pos hbuf]
    rw [hnothing]
    exact ⟨hinv, n, hn, h⟩
  obtain ⟨hlaid, hout⟩ := h.writeLoop hinv hn hkind hok
  have hframe := rounds_frame (writeLoop_rounds f offset n.size buf.length g d 0 buf)
  have hfits := hok.2 n hn hkind
  have hlen := length_pos_of_ne_nil hbuf
  generalize hloop : Sotfs.writeLoop f offset n.size buf.length g d 0 buf = out at *
  obtain ⟨g', d', k, whole⟩ := out
  obtain ⟨rfl, rfl⟩ := Prod.mk.inj hout
  have hn' : g'.inode f = some n := by rw [Graph.inode_congr hframe.inodes, hn]
  cases hq : stopsAt g d f n.size offset buf.length with
  | none =>
    -- everything went in and the size follows
    have hin : bytesIn g d f n.size offset buf.length = buf.length := by rw [bytesIn, hq]
    rw [hq] at hfits hloop
    rw [hin] at hlaid hloop
    rw [fileWrite_whole hbuf hn hkind hloop, Nat.mod_eq_of_lt hfits]
    refine ⟨hlaid.inv.of_subset fun i b hb => ?_, resized n (offset + buf.length), ?_, ?_⟩
    · rwa [modifyInode_blocks] at hb
    · rw [Graph.inode_modifyInode, if_pos rfl, hn']
      rfl
    · have hwhole := h.whole hlaid hfits
      rw [written, returnCode, if_pos (by omega), Int.toNat_natCast, take_of_length_le le_rfl]
      exact hwhole
  | some q =>
    have hin : bytesIn g d f n.size offset buf.length = q - offset := by rw [bytesIn, hq]
    rw [hq] at hfits hloop
    rw [hin] at hlaid hloop
    have hcut := fileWrite_cut hbuf hn hkind hloop
    by_cases hzero : 0 < q - offset
    · rw [if_pos hzero] at hcut
      rw [hcut]
      refine ⟨hlaid.inv, n, hn', ?_⟩
      rw [written, returnCode, if_pos (by omega), Int.toNat_natCast]
      exact h.cut hlaid (by omega)
    · rw [if_neg hzero] at hcut
      obtain ⟨rfl, rfl⟩ := fileWrite_error hcut
      rw [hcut]
      exact ⟨hinv, n, hn, h⟩

def FileKept (f : ℤ) (g g' : Graph) : Prop := ∀ n', g'.inode f = some n' → n'.kind = .file →
    (∃ n, g.inode f = some n ∧ n.kind = .file ∧ n.size = n'.size) ∧
      ∀ i b, b.fileId = f → (g'.blocks i = some b ↔ g.blocks i = some b)

theorem FileKept.trans {g₁ g₂ g₃ : Graph} (h : FileKept f g₁ g₂) (h' : FileKept f g₂ g₃) :
    FileKept f g₁ g₃ := by
  intro n₃ hn₃ hk₃
  obtain ⟨⟨n₂, hn₂, hk₂, hs₂⟩, hb₂⟩ := h' n₃ hn₃ hk₃
  obtain ⟨⟨n₁, hn₁, hk₁, hs₁⟩, hb₁⟩ := h n₂ hn₂ hk₂
  exact ⟨⟨n₁, hn₁, hk₁, hs₁.trans hs₂⟩, fun i b hb => (hb₂ i b hb).trans (hb₁ i b hb)⟩

theorem fileKept_same (hinode : g'.inode f = g.inode f)
    (hblocks : g'.blocks = g.blocks) : FileKept f g g' := by
  intro n hn hkind
  rw [hinode] at hn
  exact ⟨⟨n, hn, hkind, rfl⟩, fun i b _ => by rw [hblocks]⟩

theorem fileKept_setInode {g : Graph} {c : Fin maxInodes} (hn : g.inodes c = some n)
    (hkind : n'.kind = n.kind) (hsize : n'.size = n.size) :
    FileKept f g (g.setInode c (some n')) := by
  intro m hm hfile
  refine ⟨?_, fun i b _ => Iff.rfl⟩
  rw [Graph.inode_setInode] at hm
  split_ifs at hm with hf
  · obtain ⟨⟩ := hm
    rw [hf, Graph.inode_toId]
    exact ⟨n, hn, hkind ▸ hfile, hsize.symm⟩
  · exact ⟨m, hm, hfile, rfl⟩

variable {g : Graph} {id : ℤ}

theorem fileKept_modifyInode {u : Inode → Inode} (hkind : ∀ n, (u n).kind = n.kind)
    (hsize : ∀ n, (u n).size = n.size) : FileKept f g (g.modifyInode id u) := by
  intro m hm hfile
  refine ⟨?_, fun i b _ => by rw [modifyInode_blocks]⟩
  rw [Graph.inode_modifyInode] at hm
  split_ifs at hm
  · obtain ⟨n, hn, rfl⟩ := map_eq_some_iff.mp hm
    exact ⟨n, hn, hkind n ▸ hfile, (hsize n).symm⟩
  · exact ⟨m, hm, hfile, rfl⟩

variable {c : Fin maxInodes}

theorem fileKept_freeFileStorage : FileKept f g (freeFileStorage g (toId c)) := by
  rcases hn : g.inodes c with _ | n
  · rw [freeFileStorage, Graph.inode_toId, hn]
    exact fileKept_same rfl rfl
  rw [freeFileStorage_live hn]
  intro m hm hfile
  have hinode : (withoutFile g c).inode f = if f = toId c then none else g.inode f :=
    Graph.inode_update rfl f
  rw [hinode] at hm
  split_ifs at hm with hf
  refine ⟨⟨m, hm, hfile, rfl⟩, fun i b hb => ?_⟩
  exact dropBlocks_blocks.trans (and_iff_left (hb ▸ hf))

theorem fileKept_dropLink : FileKept f g (dropLink g c) := by
  unfold dropLink
  rcases hn : g.inodes c with _ | n
  · exact fileKept_same rfl rfl
  simp only
  split_ifs
  · exact fileKept_setInode hn rfl rfl
  · exact fileKept_setInode hn rfl rfl
  · refine FileKept.trans ?_ fileKept_freeFileStorage
    exact fileKept_setInode hn rfl rfl

theorem fileKept_inodeClose : FileKept f g (inodeClose g id) := by
  unfold inodeClose
  rcases hn : g.inode id with _ | n
  · exact fileKept_same rfl rfl
  obtain ⟨c, rfl, -⟩ := Graph.inode_eq_some.mp hn
  have hclosed : FileKept f g
      (g.modifyInode (toId c) fun n => { n with openCount := n.openCount - 1 }) :=
    fileKept_modifyInode (fun _ => rfl) fun _ => rfl
  simp only
  split_ifs
  · exact hclosed.trans fileKept_freeFileStorage
  · exact hclosed

theorem Unlinked.fileKept (h : Unlinked g p name g' rc) : FileKept f g g' := by
  cases h with
  | failed => exact fileKept_same rfl rfl
  | unlinked i c => exact (fileKept_same rfl rfl).trans fileKept_dropLink

theorem RemovedDir.fileKept (h : RemovedDir g p name g' rc) : FileKept f g g' := by
  intro n hn hfile
  refine ⟨?_, fun i b _ => by rw [h.blocks]⟩
  cases h with
  | failed => exact ⟨n, hn, hfile, rfl⟩
  | removed i c =>
    rw [Graph.inode_setInode] at hn
    split_ifs at hn
    exact ⟨n, hn, hfile, rfl⟩

theorem Renamed.fileKept {pSrc pDst : ℤ} {oldName newName : Name}
    (h : Renamed g pSrc oldName pDst newName g' rc) : FileKept f g g' := by
  cases h with
  | failed => exact fileKept_same rfl rfl
  | renamed => exact fileKept_same rfl rfl

theorem Created.inode {kind : Kind} {rc : Except Err ℤ}
    (h : Created kind g p name mode g' rc) (hf : rc ≠ .ok f) : g'.inode f = g.inode f := by
  cases h with
  | failed _ _ hsame => exact Graph.inode_congr hsame.inodes f
  | created i j =>
    rw [Graph.inode_update rfl, if_neg]
    rintro rfl
    exact hf rfl

def ownFile (f : ℤ) (h : List (Entry (Graph × Blkdev) GraphOp ℤ)) : File UInt8 :=
  h.foldl (fun w e =>
    match e.input with
    | .createFile _ _ _ => if e.reply = f then .empty else w
    | .fileWrite id offset buf => if id = f then written w offset buf e.reply else w
    | _ => w) .empty

def GraphOp.writeOk (e : Entry (Graph × Blkdev) GraphOp ℤ) : Prop :=
  match e.input with
  | .fileWrite id offset buf => WriteOk e.pre.1 e.pre.2 id offset buf.length
  | _ => True

structure ReadsBack (h : List (Entry (Graph × Blkdev) GraphOp ℤ)) (s : Graph × Blkdev) :
    Prop where
  graph : GraphInv s.1
  sparse : SparseInv s.1 s.2
  files : ∀ f n, s.1.inode f = some n → n.kind = .file → FileOk (ownFile f h) f n s.1 s.2

theorem FileOk.moved (h : FileOk w f n g d) (hsize : n.size = n'.size)
    (hblocks : ∀ i b, b.fileId = f → (g'.blocks i = some b ↔ g.blocks i = some b))
    (hpages : ∀ off, pageAt g' d' f off = pageAt g d f off) : FileOk w f n' g' d' := by
  refine ⟨hsize ▸ h.size, hsize ▸ h.small, ?_, ?_⟩
  · intro q k
    rw [hpages]
    exact h.paged q k
  · intro i b hb hf
    rw [← hsize]
    exact h.below i b ((hblocks i b hf).mp hb) hf

variable {s : Graph × Blkdev} {reply : ℤ}

variable (h : List (Entry (Graph × Blkdev) GraphOp ℤ))

theorem ownFile_created :
    ownFile f (h ++ [⟨s, .createFile p name mode, reply⟩]) =
      if reply = f then .empty else ownFile f h := by
  simp only [ownFile, foldl_append, foldl_cons, foldl_nil]

theorem ownFile_written :
    ownFile f (h ++ [⟨s, .fileWrite id offset buf, reply⟩]) =
      if id = f then written (ownFile f h) offset buf reply else ownFile f h := by
  simp only [ownFile, foldl_append, foldl_cons, foldl_nil]

theorem Created.fileKept {rc : Except Err ℤ} (h : Created .dir g p name mode g' rc) :
    FileKept f g g' := by
  by_cases hf : rc = .ok f
  · intro n hn hfile
    cases h with
    | failed => cases hf
    | created i j =>
      obtain rfl := Except.ok.inj hf
      rw [Graph.inode_update rfl, if_pos rfl, some.injEq] at hn
      rw [← hn] at hfile
      cases hfile
  · exact fileKept_same (h.inode hf) h.blocks

section
variable {h : List (Entry (Graph × Blkdev) GraphOp ℤ)} {g g' : Graph} {d : Blkdev}

theorem ReadsBack.kept (hr : ReadsBack h (g, d)) (hkept : FileKept f g g')
    (hn' : g'.inode f = some n') (hfile : n'.kind = .file) : FileOk (ownFile f h) f n' g' d := by
  obtain ⟨⟨n, hn, hkind, hsize⟩, hblocks⟩ := hkept n' hn' hfile
  exact (hr.files f n hn hkind).moved hsize hblocks
    (pageAt_congr hblocks (.refl d) fun _ _ _ _ _ => rfl)

theorem ReadsBack.quiet (hr : ReadsBack h (g, d)) {e : Entry (Graph × Blkdev) GraphOp ℤ}
    (hown : ∀ f, ownFile f (h ++ [e]) = ownFile f h) (hinv : GraphInv g')
    (hkept : ∀ f, FileKept f g g') : ReadsBack (h ++ [e]) (g', d) := by
  refine ⟨hinv, hr.sparse.of_subset fun i b hb => ?_, fun f n hn hfile => ?_⟩
  · obtain ⟨n, hn, hfile⟩ := hinv.block_file i b hb
    exact ((hkept b.fileId n hn hfile).2 i b rfl).mp hb
  · rw [hown]
    exact hr.kept (hkept f) hn hfile

theorem Err.code_neg (e : Err) : e.code < 0 := by
  cases e <;> decide

theorem fileOk_created (hinv : GraphInv g) {i : Fin maxInodes} {j : Fin maxEdges}
    (hi : g.inodes i = none)
    (hn : (createdAt g .file mode i p j name).inode (toId i) = some n) :
    FileOk .empty (toId i) n (createdAt g .file mode i p j name) d := by
  have hnone : ∀ k b, g.blocks k = some b → b.fileId ≠ toId i := by
    intro k b hb hfile
    obtain ⟨m, hm, -⟩ := hinv.block_file k b hb
    rw [hfile, Graph.inode_toId, hi] at hm
    cases hm
  have hsize : n.size = 0 := by
    rw [Graph.inode_toId] at hn
    simp only [createdAt, Function.update_self, some.injEq] at hn
    rw [← hn]
    rfl
  refine ⟨hsize, hsize ▸ by decide, ?_, fun k b hb hfile => absurd hfile (hnone k b hb)⟩
  intro q k
  have hpage : pageAt (createdAt g .file mode i p j name) d (toId i) (q * blockSize) = .zero :=
    pageAt_unmapped fun k b hb hfile => absurd hfile (hnone k b hb)
  rw [hpage]
  rfl

theorem ReadsBack.createFile (hr : ReadsBack h (g, d)) (p : ℤ) (name : Name) (mode : UInt32) :
    ReadsBack (h ++ [entry step (g, d) (.createFile p name mode)])
      (step (g, d) (.createFile p name mode)).1 := by
  have hcreated := createNode_created .file g p name mode
  have hinv := hcreated.inv hr.graph
  refine ⟨hinv, hr.sparse.of_subset fun i b hb => hcreated.blocks ▸ hb, fun f n hn hfile => ?_⟩
  change (createNode .file g p name mode).1.inode f = some n at hn
  change FileOk (ownFile f (h ++ [⟨(g, d), .createFile p name mode,
    returnCode id (createNode .file g p name mode).2⟩])) f n (createNode .file g p name mode).1 d
  rw [ownFile_created]
  by_cases hnew : (createNode .file g p name mode).2 = .ok f
  · rw [hnew, returnCode, id_eq, if_pos rfl]
    generalize createNode .file g p name mode = out at *
    obtain ⟨g', rc⟩ := out
    cases hcreated with
    | failed => cases hnew
    | created i j _ _ _ _ hi =>
      obtain rfl := Except.ok.inj hnew
      exact fileOk_created hr.graph hi hn
  · rw [if_neg]
    · exact hr.kept (fileKept_same (hcreated.inode hnew) hcreated.blocks) hn hfile
    intro hcode
    cases hrc : (createNode .file g p name mode).2 with
    | ok a =>
      rw [hrc] at hcode hnew
      exact hnew (congrArg Except.ok hcode)
    | error e =>
      -- the codes of failures are no inode numbers
      obtain ⟨c, hc, -⟩ := Graph.inode_eq_some.mp hn
      have hneg := e.code_neg
      rw [hrc] at hcode
      change e.code = f at hcode
      rw [hcode, hc, toId] at hneg
      omega

theorem FileWritten.other {id : ℤ} (hw : FileWritten g d id offset buf out) (hf : f ≠ id) :
    out.1.inode f = g.inode f ∧
      ∀ i b, b.fileId = f → (out.1.blocks i = some b ↔ g.blocks i = some b) := by
  have hframe : ∀ {g' d'}, Relation.ReflTransGen (Round id) (g, d) (g', d') →
      g'.inode f = g.inode f ∧
        ∀ i b, b.fileId = f → (g'.blocks i = some b ↔ g.blocks i = some b) := by
    intro g' d' hrounds
    have hframe := rounds_frame hrounds
    exact ⟨Graph.inode_congr hframe.inodes f, fun i b hb => hframe.others i b (hb ▸ hf)⟩
  cases hw with
  | nothing => exact ⟨rfl, fun _ _ _ => Iff.rfl⟩
  | cut n hn hkind g' d' hrounds => exact hframe hrounds
  | whole n hn hkind g' d' hrounds size =>
    obtain ⟨hinode, hblocks⟩ := hframe hrounds
    refine ⟨?_, fun i b hb => ?_⟩
    · rw [Graph.inode_modifyInode, if_neg hf, hinode]
    · rw [modifyInode_blocks]
      exact hblocks i b hb

theorem FileWritten.dead {id : ℤ} (hw : FileWritten g d id offset buf out)
    (hdead : ¬∃ n, g.inode id = some n ∧ n.kind = .file) : out.1 = g ∧ out.2.1 = d := by
  cases hw with
  | nothing => exact ⟨rfl, rfl⟩
  | cut n hn hkind => exact absurd ⟨n, hn, hkind⟩ hdead
  | whole n hn hkind => exact absurd ⟨n, hn, hkind⟩ hdead

theorem step_fileWrite : step (g, d) (.fileWrite id offset buf) =
      (((fileWrite g d id offset buf).1, (fileWrite g d id offset buf).2.1),
        returnCode (fun k : ℕ => (k : ℤ)) (fileWrite g d id offset buf).2.2) := by
  simp only [step]
  cases (fileWrite g d id offset buf).2.2 <;> rfl

theorem ReadsBack.fileWrite (hr : ReadsBack h (g, d)) {id : ℤ}
    (hok : WriteOk g d id offset buf.length) :
    ReadsBack (h ++ [entry step (g, d) (.fileWrite id offset buf)])
      (step (g, d) (.fileWrite id offset buf)).1 := by
  have hw := fileWrite_written g d id offset buf
  have hinv := hw.inv hr.graph
  rw [entry, step_fileWrite]
  by_cases hlive : ∃ n, g.inode id = some n ∧ n.kind = .file
  · obtain ⟨m, hm, hkind⟩ := hlive
    obtain ⟨hsparse, m', hm', hown⟩ := (hr.files id m hm hkind).fileWrite hr.sparse hm hkind hok
    refine ⟨hinv, hsparse, fun f n hn hfile => ?_⟩
    rw [ownFile_written]
    by_cases hf : id = f
    · subst hf
      rw [if_pos rfl]
      obtain rfl := some.inj (hm'.symm.trans hn)
      exact hown
    · rw [if_neg hf]
      obtain ⟨hinode, hblocks⟩ := hw.other (Ne.symm hf)
      have hkept := fileWrite_kept hr.sparse.store id offset buf
      exact (hr.files f n (hinode ▸ hn) hfile).moved rfl hblocks (hkept.pages f (Ne.symm hf))
  · obtain ⟨hg, hd⟩ := hw.dead hlive
    rw [hg, hd]
    refine ⟨hr.graph, hr.sparse, fun f n hn hfile => ?_⟩
    have hf : id ≠ f := by
      rintro rfl
      exact hlive ⟨n, hn, hfile⟩
    rw [ownFile_written, if_neg hf]
    exact hr.files f n hn hfile

theorem GraphOp.step_fileKept {op : GraphOp} (hcreate : ∀ p name mode, op ≠ .createFile p name mode)
    (hwrite : ∀ id off buf, op ≠ .fileWrite id off buf) (s : Graph × Blkdev) :
    (op.step s).1.2 = s.2 ∧ ∀ f, FileKept f s.1 (op.step s).1.1 := by
  refine ⟨?_, fun f => ?_⟩
  · cases op <;> first | rfl | exact absurd rfl (hwrite _ _ _)
  · cases op with
    | createFile p name mode => exact absurd rfl (hcreate p name mode)
    | mkdir p name mode => exact (createNode_created .dir s.1 p name mode).fileKept
    | unlink p name => exact (unlink_unlinked s.1 p name).fileKept
    | rmdir p name => exact (rmdir_removed s.1 p name).fileKept
    | rename pSrc oldName pDst newName =>
      exact (rename_renamed s.1 pSrc oldName pDst newName).fileKept
    | inodeOpen id =>
      refine fileKept_modifyInode (fun n => ?_) fun n => ?_
      · split_ifs <;> rfl
      · split_ifs <;> rfl
    | inodeClose id => exact fileKept_inodeClose
    | fileWrite id off buf => exact absurd rfl (hwrite id off buf)

theorem GraphOp.step_readsBack {s : Graph × Blkdev} (op : GraphOp) (hr : ReadsBack h s)
    (hok : writeOk (entry step s op)) :
    ReadsBack (h ++ [entry step s op]) (op.step s).1 := by
  by_cases hcreate : ∃ p name mode, op = .createFile p name mode
  · obtain ⟨p, name, mode, rfl⟩ := hcreate
    exact hr.createFile p name mode
  by_cases hwrite : ∃ id off buf, op = .fileWrite id off buf
  · obtain ⟨id, off, buf, rfl⟩ := hwrite
    exact hr.fileWrite hok
  push Not at hcreate hwrite
  obtain ⟨hd, hkept⟩ := step_fileKept hcreate hwrite s
  have hown : ∀ f, ownFile f (h ++ [entry step s op]) = ownFile f h := by
    intro f
    simp only [ownFile, entry, foldl_append, foldl_cons, foldl_nil]
  have hnext := hr.quiet hown (op.step_inv hr.graph) hkept
  rwa [← hd] at hnext

end

def FreeZero (d : Blkdev) : Prop :=
  ∀ blk, validBlk d blk = true → d.bitmap (blk.toNat - 1) = false → diskPage d blk = .zero

variable {d : Blkdev}

theorem onceInv_init {off : ℕ} {fresh : Bool} (hs : st.Sound)
    (hcap : off + len ≤ st.capacity) (hup : (blkdevInit d st off len fresh).2 = 0) :
    OnceInv graphInit (blkdevInit d st off len fresh).1 := by
  obtain ⟨hattached, htotal⟩ := blkdevInit_up hs hup
  have hlen : blockSize ≤ len := by
    obtain ⟨d₀, hgeometry, -⟩ := hattached.totalBlocks
    exact blockSize_le_of_up d₀ off (hgeometry ▸ htotal)
  have hno : ∀ {P : Prop} {i b}, graphInit.blocks i = some b → P := by
    intro P i b hb
    rw [graphInit_eq] at hb
    cases hb
  exact ⟨⟨hattached.healthy hlen hcap, fun _ _ hb => hno hb, fun _ _ hb => hno hb,
    fun _ _ _ _ hb => hno hb⟩, htotal, fun _ _ hb => hno hb, fun _ _ hb => hno hb,
    fun _ _ _ _ hb => hno hb⟩

theorem readsBack_init {off : ℕ} {fresh : Bool} (hs : st.Sound)
    (hcap : off + len ≤ st.capacity) (hup : (blkdevInit d st off len fresh).2 = 0)
    (hzero : FreeZero (blkdevInit d st off len fresh).1) :
    ReadsBack [] (graphInit, (blkdevInit d st off len fresh).1) := by
  refine ⟨graphInv_init, (onceInv_init hs hcap hup).sparseInv ?_, ?_⟩
  · intro blk hvalid hclear
    rw [view_of_empty (blkdevInit_up hs hup).1.cache]
    exact hzero blk hvalid hclear
  · intro f n hn hfile
    rw [(graphInit_inode hn).2] at hfile
    cases hfile

theorem freeZero_of_blank (hs : st.Sound) (hblank : ∀ a, st.bytes a = 0) {off : ℕ}
    {fresh : Bool} : FreeZero (blkdevInit d st off len fresh).1 := by
  intro blk hvalid _
  have hbytes : ∀ a, (blkdevInit d st off len fresh).1.heapOff ≤ a →
      (blkdevInit d st off len fresh).1.st.bytes a = 0 :=
    fun a ha => (blkdevInit_heap hs ha).trans (hblank a)
  rw [diskPage, if_pos (validBlk_iff.mp hvalid).1]
  funext k
  simp only [Page.ofList, Overlay.read, List.getElem?_ofFn, k.isLt, dif_pos, getD_some]
  apply hbytes
  unfold blockOff
  omega

/-- Over zeroed free blocks, with no write cut short past the end, every file reads as its writes.
-/
theorem reads_own_writes {st : Storage} {off len : ℕ} {fresh : Bool} (hs : st.Sound)
    (hcap : off + len ≤ st.capacity) (hup : (blkdevInit d st off len fresh).2 = 0)
    (hzero : FreeZero (blkdevInit d st off len fresh).1) (ops : List GraphOp)
    (hok : ∀ e ∈ trace GraphOp.step (graphInit, (blkdevInit d st off len fresh).1) ops,
      GraphOp.writeOk e) :
    let h := trace GraphOp.step (graphInit, (blkdevInit d st off len fresh).1) ops
    let s := exec GraphOp.step (graphInit, (blkdevInit d st off len fresh).1) ops
    ∀ f n, s.1.inode f = some n → n.kind = .file → ∀ offset count,
      (fileRead s.1 s.2 f offset count).2 = .ok ((ownFile f h).read offset count) := by
  intro h s f n hn hkind offset count
  have hr : ReadsBack h s :=
    trace_induction_of GraphOp.step (P := ReadsBack) (readsBack_init hs hcap hup hzero)
      (fun _ _ op hok hr => op.step_readsBack hr hok) ops hok
  have hfile := hr.files f n hn hkind
  rw [fileRead_paged hr.sparse.store.healthy hn hkind hfile.paged, hfile.size]
  rfl

theorem writeOk_within (hone : (offset + len - 1) / blockSize = offset / blockSize)
    (hbound : offset + len < 2 ^ 32) : WriteOk g d f offset len := by
  refine ⟨by omega, fun n _ _ => ?_⟩
  rcases hq : stopsAt g d f n.size offset len with _ | q
  · exact hbound
  have hmem := (mem_filter.mp (mem_of_getElem? hq)).1
  unfold touched at hmem
  split_ifs at hmem
  · cases hmem
  rw [hone, Nat.sub_self, Nat.zero_add, range'_one, map_singleton,
    mem_singleton] at hmem
  rw [hmem]
  exact .inl (Nat.div_mul_le_self ..)

def holeOps : List GraphOp := [.createFile 1 [97] 0o644, .fileWrite 2 0 [1], .fileWrite 2 2 [1]]

theorem plainStore_free : FreeZero (plainStore 0).1 :=
  freeZero_of_blank plainImage_sound (fun _ => rfl)

theorem holeOps_ok {b : UInt8} : ∀ e ∈ trace step (graphInit, (plainStore b).1) holeOps,
      writeOk e := by
  simp only [holeOps, trace, entry, forall_mem_cons]
  refine ⟨trivial, ?_, ?_, forall_mem_nil _⟩
  · exact writeOk_within (by decide) (by decide) ..
  · exact writeOk_within (by decide) (by decide) ..

theorem hole_reads_zero : (fileRead (exec GraphOp.step (graphInit, (plainStore 0).1) holeOps).1
        (exec GraphOp.step (graphInit, (plainStore 0).1) holeOps).2 2 0 3).2 =
      .ok ((ownFile 2 (trace GraphOp.step (graphInit, (plainStore 0).1) holeOps)).read 0 3) := by
  have hlive : ((exec GraphOp.step (graphInit, (plainStore 0).1) holeOps).1.inode 2).map
      (·.kind) = some .file := by decide +kernel
  obtain ⟨n, hn, hkind⟩ := map_eq_some_iff.mp hlive
  exact reads_own_writes plainImage_sound (Nat.zero_add _).le (by decide +kernel) plainStore_free
    holeOps holeOps_ok 2 n hn hkind 0 3

theorem hole_reads_old_bytes : (plainStore 7).2 = 0 ∧
    (fileRead (exec GraphOp.step (graphInit, (plainStore 7).1) holeOps).1
        (exec GraphOp.step (graphInit, (plainStore 7).1) holeOps).2 2 0 3).2.toOption =
      some [1, 7, 1] ∧
    (ownFile 2 (trace GraphOp.step (graphInit, (plainStore 7).1) holeOps)).read 0 3 =
      [1, 0, 1] := by
  decide +kernel

end SotOs.Sotfs
