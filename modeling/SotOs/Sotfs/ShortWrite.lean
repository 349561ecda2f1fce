import SotOs.Sotfs.ReadBack

/-! What a write reports it wrote is there to read, and a file never has two blocks for one offset,
in every run whose writes find their blocks or stop within the file. -/

namespace SotOs.Sotfs
open SparseFile Machine Overlay List Option GraphOp

variable {offset : ℕ}

theorem writeLoop_far {f : ℤ} {origSize : ℕ} : ∀ (fuel : ℕ) (g : Graph) (d : Blkdev)
    (written : ℕ) (rest : List UInt8), OnceInv g d →
      (rest ≠ [] → Ahead g f origSize (alignDown (offset + written))) → rest.length ≤ fuel →
      offset + written ≤ 2 ^ 32 →
      2 ^ 32 ≤ offset + written + bytesIn g d f origSize (offset + written) rest.length →
      2 ^ 32 ≤ offset + (writeLoop f offset origSize fuel g d written rest).2.2.1 := by
  intro fuel
  induction fuel with
  | zero =>
    intro g d written rest _ _ hfuel _ hfar
    rw [Nat.le_zero.mp hfuel, bytesIn_zero] at hfar
    exact hfar
  | succ fuel ih =>
    intro g d written rest h hahead hfuel hpos hfar
    have hmore := (writeLoop_written_mem f offset origSize (fuel + 1) g d written rest).1
    rcases Nat.lt_or_ge (offset + written) (2 ^ 32) with hlt | hge
    · by_cases hrest : rest = []
      · rw [hrest, length_nil, bytesIn_zero] at hfar
        omega
      have hlen := length_pos_of_ne_nil hrest
      have hahead := hahead hrest
      have hwrite : writePos offset written = offset + written := Nat.mod_eq_of_lt hlt
      have hcases := writeLoop_cases f offset origSize fuel g d written hrest
      rw [hwrite] at hcases
      rcases hcases with ⟨hstuck, -⟩ | ⟨g₁, d₁, i, b, htarget, hb, hgo⟩
      · rw [bytesIn, hstuck.stopsAt hlen] at hfar
        have := alignDown_le (offset + written)
        simp only at hfar
        omega
      · rw [htarget.bytesIn hb h hahead hlen (rest.take (blockRest (offset + written)))] at hfar
        have hclen : (rest.take (blockRest (offset + written))).length =
          min (blockRest (offset + written)) rest.length := length_take
        have hrestpos := blockRest_pos (offset + written)
        rw [hgo]
        apply ih
        · exact (htarget.once h hahead).1.patched hb _ _
        · intro hleft
          have hleft' := length_pos_of_ne_nil hleft
          rw [length_drop] at hleft'
          apply htarget.ahead hb hahead
          rw [hclen]
          unfold blockRest alignDown blockSize at *
          omega
        · rw [length_drop]
          omega
        · rw [hclen]
          unfold blockRest alignDown blockSize at *
          omega
        · rw [hclen, length_drop, ← Nat.add_assoc, Nat.add_assoc (offset + written)]
          exact hfar
    · omega

structure Sized (f : ℤ) (n : Inode) (g : Graph) : Prop where
  small : n.size < 2 ^ 32
  below : ∀ i b, g.blocks i = some b → b.fileId = f → b.offset < n.size

variable {f : ℤ} {n : Inode} {offset k : ℕ} {buf : List UInt8} {s : Graph × Blkdev}

variable {g : Graph}

theorem Sized.ahead (h : Sized f n g) (off : ℕ) :
    Ahead g f n.size off := fun i b hb hfile => .inl (h.below i b hb hfile)

def ReadsWritten (g : Graph) (d : Blkdev) (f : ℤ) (offset : ℕ) (buf : List UInt8) (k : ℕ) : Prop :=
  (fileRead g d f offset k).2 = .ok (buf.take k)

variable {d : Blkdev}

theorem readsWritten_of_paged {m : ℕ → UInt8} (hd : Healthy d)
    (hn : g.inode f = some n) (hkind : n.kind = .file)
    (hpaged : Paged (pageAt g d f) (write m offset (buf.take k))) (hk : k ≤ buf.length)
    (hsize : offset + k ≤ n.size) : ReadsWritten g d f offset buf k := by
  have hlen : (buf.take k).length = k := length_take_of_le hk
  have hread := read_write_same m offset (buf.take k)
  rw [hlen] at hread
  rw [ReadsWritten, fileRead_paged hd hn hkind hpaged, Nat.min_eq_right (by omega), hread]

theorem not_readsWritten (hd : Healthy d) (hn : g.inode f = some n)
    (hkind : n.kind = .file) (hpos : 0 < k) (hk : k ≤ buf.length) (hsize : n.size < offset + k) :
    ¬ReadsWritten g d f offset buf k := by
  intro hread
  rw [ReadsWritten, fileRead_paged hd hn hkind (paged_spelled (by decide)),
    Except.ok.injEq] at hread
  have hlen := congrArg length hread
  rw [length_read, length_take_of_le hk] at hlen
  omega

theorem fileWrite_loop (hn : g.inode f = some n) (hkind : n.kind = .file)
    (offset : ℕ) (hbuf : buf ≠ []) :
    ∃ g' d' k whole, writeLoop f offset n.size buf.length g d 0 buf = (g', d', k, whole) ∧
      g'.inode f = some n ∧ k ≤ buf.length ∧
      fileWrite g d f offset buf =
        if whole then (g'.modifyInode f (resized · ((offset + buf.length) % 2 ^ 32)), d', .ok k)
        else (g', d', if 0 < k then .ok k else .error .errNospace) := by
  have hframe := rounds_frame (writeLoop_rounds f offset n.size buf.length g d 0 buf)
  have hle := (writeLoop_written_mem f offset n.size buf.length g d 0 buf).2
  generalize hloop : writeLoop f offset n.size buf.length g d 0 buf = out at *
  obtain ⟨g', d', k, whole⟩ := out
  refine ⟨g', d', k, whole, rfl, ?_, (Nat.zero_add buf.length) ▸ hle, ?_⟩
  · rw [Graph.inode_congr hframe.inodes, hn]
  · cases whole with
    | false => exact fileWrite_cut hbuf hn hkind hloop
    | true => exact fileWrite_whole hbuf hn hkind hloop

theorem resized_kind {size : ℕ} : (resized n size).kind = n.kind := by
  unfold resized
  split_ifs <;> rfl

theorem Sized.fileWrite (hsized : Sized f n g) (h : OnceInv g d)
    (hn : g.inode f = some n) (hkind : n.kind = .file) (hok : WriteOk g d f offset buf.length) :
    let out := fileWrite g d f offset buf
    OnceInv out.1 out.2.1 ∧ (∃ n', out.1.inode f = some n' ∧ Sized f n' out.1) ∧
      ∀ k, out.2.2 = .ok k → ReadsWritten out.1 out.2.1 f offset buf k := by
  by_cases hbuf : buf = []
  · have hnothing : Sotfs.fileWrite g d f offset buf = (g, d, .ok 0) := by
      rw [Sotfs.fileWrite, if_pos hbuf]
    rw [hnothing]
    refine ⟨h, ⟨n, hn, hsized⟩, fun k hk => ?_⟩
    cases hk
    rfl
  obtain ⟨g', d', k, whole, hloop, hn', hk, hout⟩ := fileWrite_loop (d := d) hn hkind offset hbuf
  obtain ⟨honce, ⟨m, hpaged⟩, hahead, hreply⟩ :=
    writeLoop_put h hsized.ahead (hok.bound hn hkind hsized.small)
  have hfits := hok.2 n hn hkind
  rw [hloop] at honce hpaged hahead hreply
  obtain ⟨rfl, rfl⟩ := Prod.mk.inj hreply
  rw [hout]
  cases hq : stopsAt g d f n.size offset buf.length with
  | none =>
    have hin : bytesIn g d f n.size offset buf.length = buf.length := by rw [bytesIn, hq]
    rw [hq] at hfits
    simp only [hin, isNone_none, if_true, Nat.mod_eq_of_lt hfits] at hpaged hahead ⊢
    have hn'' : (g'.modifyInode f (resized · (offset + buf.length))).inode f =
        some (resized n (offset + buf.length)) := by
      rw [Graph.inode_modifyInode, if_pos rfl, hn']
      rfl
    have hblocks : OnceInv (g'.modifyInode f (resized · (offset + buf.length))) d' :=
      honce.of_subset fun i b hb => by rwa [modifyInode_blocks] at hb
    refine ⟨hblocks, ⟨_, hn'', ?_, ?_⟩, fun k hk => ?_⟩
    · have := hsized.small
      rw [resized_size]
      omega
    · intro i b hb hfile
      rw [modifyInode_blocks] at hb
      have := hahead i b hb hfile
      rw [resized_size]
      omega
    · cases hk
      have hpaged' : Paged (pageAt (g'.modifyInode f (resized · (offset + buf.length))) d' f)
          (write m offset (buf.take buf.length)) := by
        intro q j
        rw [pageAt_modifyInode]
        exact hpaged q j
      refine readsWritten_of_paged hblocks.store.healthy hn'' ((resized_kind ..).trans hkind)
        hpaged' le_rfl ?_
      rw [resized_size]
      exact Nat.le_max_right ..
  | some q =>
    have hin : bytesIn g d f n.size offset buf.length = q - offset := by rw [bytesIn, hq]
    rw [hq] at hfits
    simp only [hin, hq, isNone_some, Bool.false_eq_true, if_false] at hpaged hahead hout hk ⊢
    by_cases hzero : 0 < q - offset
    · rw [if_pos hzero]
      refine ⟨honce, ⟨n, hn', hsized.small, ?_⟩, fun k hk' => ?_⟩
      · intro i b hb hfile
        have := hahead i b hb hfile
        omega
      · cases hk'
        exact readsWritten_of_paged honce.store.healthy hn' hkind hpaged hk (by omega)
    · rw [if_neg hzero] at hout ⊢
      obtain ⟨rfl, rfl⟩ := fileWrite_error hout
      exact ⟨h, ⟨n, hn, hsized⟩, fun k hk => by cases hk⟩

theorem Sized.fileWrite_lost (hsized : Sized f n g) (h : OnceInv g d)
    (hn : g.inode f = some n) (hkind : n.kind = .file) (hoffset : offset < 2 ^ 32)
    (hbad : ¬WriteOk g d f offset buf.length) :
    let out := Sotfs.fileWrite g d f offset buf
    ∃ k, 0 < k ∧ out.2.2 = .ok k ∧ ¬ReadsWritten out.1 out.2.1 f offset buf k := by
  have hbuf : buf ≠ [] := by
    rintro rfl
    refine hbad ⟨hoffset, fun n _ _ => ?_⟩
    rw [length_nil, stopsAt_zero]
    exact hoffset
  have hhealthy := (fileWrite_kept h.store f offset buf).inv.healthy
  obtain ⟨g', d', k, whole, hloop, hn', hk, hout⟩ := fileWrite_loop (d := d) hn hkind offset hbuf
  rcases Nat.lt_or_ge (offset + bytesIn g d f n.size offset buf.length) (2 ^ 32) with hlt | hge
  · -- cut short past the end of the file
    obtain ⟨-, -, -, hreply⟩ := writeLoop_put h hsized.ahead hlt
    rw [hloop] at hreply
    obtain ⟨rfl, rfl⟩ := Prod.mk.inj hreply
    cases hq : stopsAt g d f n.size offset buf.length with
    | none =>
      refine absurd ⟨hoffset, fun n' hn' _ => ?_⟩ hbad
      obtain rfl := some.inj (hn.symm.trans hn')
      rw [bytesIn, hq] at hlt
      rwa [hq]
    | some q =>
      have hin : bytesIn g d f n.size offset buf.length = q - offset := by rw [bytesIn, hq]
      have hpast : ¬(q ≤ offset ∨ q ≤ n.size) := by
        intro hfits
        refine hbad ⟨hoffset, fun n' hn' _ => ?_⟩
        obtain rfl := some.inj (hn.symm.trans hn')
        rwa [hq]
      have hpos : 0 < q - offset := by omega
      rw [hq, hin, isNone_some, if_neg Bool.false_ne_true, if_pos hpos] at hout
      rw [hin] at hk
      rw [hout] at hhealthy ⊢
      exact ⟨q - offset, hpos, rfl, not_readsWritten hhealthy hn' hkind hpos hk (by omega)⟩
  · -- the offset wraps, and a size is 32-bit
    have hfar := writeLoop_far buf.length g d 0 buf h (fun _ => hsized.ahead _)
      le_rfl hoffset.le hge
    rw [hloop] at hfar
    simp only at hfar
    have hpos : 0 < k := by omega
    have hsmall := hsized.small
    rcases whole with _ | _
    · rw [if_neg Bool.false_ne_true, if_pos hpos] at hout
      rw [hout] at hhealthy ⊢
      exact ⟨k, hpos, rfl, not_readsWritten hhealthy hn' hkind hpos hk (by omega)⟩
    rw [if_pos rfl] at hout
    rw [hout] at hhealthy ⊢
    refine ⟨k, hpos, rfl, not_readsWritten hhealthy
      (n := resized n ((offset + buf.length) % 2 ^ 32)) ?_
      ((resized_kind ..).trans hkind) hpos hk ?_⟩
    · rw [Graph.inode_modifyInode, if_pos rfl, hn']
      rfl
    · rw [resized_size]
      omega

theorem fileWrite_dead_reply
    (hdead : ¬∃ n, g.inode f = some n ∧ n.kind = .file) :
    ¬0 < returnCode (fun k : ℕ => (k : ℤ)) (fileWrite g d f offset buf).2.2 := by
  unfold fileWrite
  split_ifs with hbuf
  · exact Int.lt_irrefl 0
  rcases hn : g.inode f with _ | n
  · exact Int.lt_asymm Err.errNoent.code_neg
  have hkind : n.kind ≠ .file := fun hkind => hdead ⟨n, hn, hkind⟩
  simp only [if_pos hkind]
  exact Int.lt_asymm Err.errIsdir.code_neg

def OneBlock (g : Graph) : Prop :=
  ∀ i j b b', g.blocks i = some b → g.blocks j = some b' → b.fileId = b'.fileId →
    b.offset = b'.offset → i = j

def GraphOp.writeSound (e : Entry (Graph × Blkdev) GraphOp ℤ) : Prop :=
  OneBlock (e.input.step e.pre).1.1 ∧
    match e.input with
    | .fileWrite f offset buf => 0 < e.reply →
        ReadsWritten (e.input.step e.pre).1.1 (e.input.step e.pre).1.2 f offset buf e.reply.toNat
    | _ => True

def GraphOp.inRange : GraphOp → Prop
  | .fileWrite _ offset _ => offset < 2 ^ 32
  | _ => True

structure WritesInv (s : Graph × Blkdev) : Prop where
  graph : GraphInv s.1
  once : OnceInv s.1 s.2
  sized : ∀ f n, s.1.inode f = some n → n.kind = .file → Sized f n s.1

section
variable {g g' : Graph} {d : Blkdev}

theorem WritesInv.kept (hw : WritesInv (g, d)) (hkept : FileKept f g g') {n' : Inode}
    (hn' : g'.inode f = some n') (hfile : n'.kind = .file) : Sized f n' g' := by
  obtain ⟨⟨n, hn, hkind, hsize⟩, hblocks⟩ := hkept n' hn' hfile
  have hsized := hw.sized f n hn hkind
  exact ⟨hsize ▸ hsized.small, fun i b hb hf => hsize ▸ hsized.below i b ((hblocks i b hf).mp hb) hf⟩

theorem WritesInv.quiet (hw : WritesInv (g, d)) (hinv : GraphInv g')
    (hkept : ∀ f, FileKept f g g') : WritesInv (g', d) := by
  refine ⟨hinv, hw.once.of_subset fun i b hb => ?_, fun f n hn hfile => hw.kept (hkept f) hn hfile⟩
  obtain ⟨n, hn, hfile⟩ := hinv.block_file i b hb
  exact ((hkept b.fileId n hn hfile).2 i b rfl).mp hb

theorem WritesInv.createFile (hw : WritesInv (g, d)) (p : ℤ) (name : Name) (mode : UInt32) :
    WritesInv ((createNode .file g p name mode).1, d) := by
  have hcreated := createNode_created .file g p name mode
  refine ⟨hcreated.inv hw.graph, hw.once.of_subset fun i b hb => hcreated.blocks ▸ hb, ?_⟩
  intro f n hn hfile
  by_cases hnew : (createNode .file g p name mode).2 = .ok f
  · generalize createNode .file g p name mode = out at *
    obtain ⟨g', rc⟩ := out
    cases hcreated with
    | failed => cases hnew
    | created i j _ _ _ _ hi =>
      obtain rfl := Except.ok.inj hnew
      have hown := fileOk_created (d := d) hw.graph hi hn
      exact ⟨hown.small, hown.below⟩
  · exact hw.kept (fileKept_same (hcreated.inode hnew) hcreated.blocks) hn hfile

theorem WritesInv.fileWrite (hw : WritesInv (g, d)) {id : ℤ}
    (hok : WriteOk g d id offset buf.length) :
    WritesInv ((fileWrite g d id offset buf).1, (fileWrite g d id offset buf).2.1) := by
  have hwritten := fileWrite_written g d id offset buf
  by_cases hlive : ∃ n, g.inode id = some n ∧ n.kind = .file
  · obtain ⟨m, hm, hkind⟩ := hlive
    obtain ⟨honce, ⟨m', hm', hsized⟩, -⟩ := (hw.sized id m hm hkind).fileWrite hw.once hm hkind hok
    refine ⟨hwritten.inv hw.graph, honce, fun f n hn hfile => ?_⟩
    by_cases hf : f = id
    · subst hf
      obtain rfl := some.inj (hm'.symm.trans hn)
      exact hsized
    · obtain ⟨hinode, hblocks⟩ := hwritten.other hf
      have hold := hw.sized f n (hinode ▸ hn) hfile
      exact ⟨hold.small, fun i b hb hb' => hold.below i b ((hblocks i b hb').mp hb) hb'⟩
  · obtain ⟨hg, hd⟩ := hwritten.dead hlive
    rw [hg, hd]
    exact hw

end

theorem GraphOp.step_writesInv (op : GraphOp) (hw : WritesInv s)
    (hok : writeOk (entry step s op)) : WritesInv (op.step s).1 := by
  by_cases hcreate : ∃ p name mode, op = .createFile p name mode
  · obtain ⟨p, name, mode, rfl⟩ := hcreate
    exact hw.createFile p name mode
  by_cases hwrite : ∃ id off buf, op = .fileWrite id off buf
  · obtain ⟨id, off, buf, rfl⟩ := hwrite
    rw [step_fileWrite]
    exact hw.fileWrite hok
  · push Not at hcreate hwrite
    obtain ⟨hd, hkept⟩ := step_fileKept hcreate hwrite s
    have hnext := hw.quiet (op.step_inv hw.graph) hkept
    rwa [← hd] at hnext

theorem step_writeSound_iff (op : GraphOp) (hrange : op.inRange) (hw : WritesInv s) :
    writeSound (entry step s op) ↔ writeOk (entry step s op) := by
  obtain ⟨g, d⟩ := s
  constructor
  · intro hsound
    by_contra hbad
    cases op with
    | fileWrite f offset buf =>
      have hlive : ∃ n, g.inode f = some n ∧ n.kind = .file := by
        by_contra hdead
        exact hbad ⟨hrange, fun n hn hkind => absurd ⟨n, hn, hkind⟩ hdead⟩
      obtain ⟨n, hn, hkind⟩ := hlive
      obtain ⟨k, hpos, hreply, hlost⟩ :=
        (hw.sized f n hn hkind).fileWrite_lost hw.once hn hkind hrange hbad
      have hread := hsound.2
      simp only [entry, step_fileWrite, hreply, returnCode, Int.toNat_natCast] at hread
      exact hlost (hread (Int.natCast_pos.mpr hpos))
    | _ => exact hbad trivial
  · intro hok
    refine ⟨(op.step_writesInv hw hok).once.once, ?_⟩
    cases op with
    | fileWrite f offset buf =>
      intro hpos
      simp only [entry, step_fileWrite] at hpos ⊢
      by_cases hlive : ∃ n, g.inode f = some n ∧ n.kind = .file
      · obtain ⟨n, hn, hkind⟩ := hlive
        obtain ⟨-, -, hreads⟩ := (hw.sized f n hn hkind).fileWrite hw.once hn hkind hok
        cases hreply : (fileWrite g d f offset buf).2.2 with
        | ok k => exact hreads k hreply
        | error e =>
          rw [hreply] at hpos
          exact absurd hpos (Int.lt_asymm e.code_neg)
      · exact absurd hpos (fileWrite_dead_reply hlive)
    | _ => trivial

theorem writesInv_init {st : Storage} {off len : ℕ} {fresh : Bool} (hs : st.Sound)
    (hcap : off + len ≤ st.capacity) (hup : (blkdevInit d st off len fresh).2 = 0) :
    WritesInv (graphInit, (blkdevInit d st off len fresh).1) := by
  refine ⟨graphInv_init, onceInv_init hs hcap hup, fun f n hn hfile => ?_⟩
  rw [(graphInit_inode hn).2] at hfile
  cases hfile

/-- Everything a write reports is read back and no block is mapped twice if and only if every write
finds its blocks below the 32-bit limit or stops within its file. -/
theorem writes_sound_iff {d : Blkdev} {st : Storage} {off len : ℕ} {fresh : Bool} (hs : st.Sound)
    (hcap : off + len ≤ st.capacity) (hup : (blkdevInit d st off len fresh).2 = 0)
    (ops : List GraphOp) (hrange : ∀ op ∈ ops, op.inRange) :
    (∀ e ∈ trace GraphOp.step (graphInit, (blkdevInit d st off len fresh).1) ops,
      GraphOp.writeSound e) ↔
    ∀ e ∈ trace GraphOp.step (graphInit, (blkdevInit d st off len fresh).1) ops,
      GraphOp.writeOk e :=
  trace_iff_of GraphOp.step (fun _ op hop hw => step_writeSound_iff op hop hw)
    (fun _ op _ hw hok => op.step_writesInv hw hok) (writesInv_init hs hcap hup) ops hrange

theorem writes_sound_iff_hole : (plainStore 7).2 = 0 ∧
    ∀ e ∈ trace GraphOp.step (graphInit, (plainStore 7).1) holeOps, GraphOp.writeSound e := by
  have hup : (plainStore 7).2 = 0 := by decide +kernel
  refine ⟨hup, (writes_sound_iff plainImage_sound (Nat.zero_add _).le hup holeOps ?_).mpr
    holeOps_ok⟩
  simp [holeOps, GraphOp.inRange]

def cutOps : List GraphOp := [.createFile 1 [97] 0o644, .fileWrite 2 4095 [1, 1]]

theorem cut_write_unread : ¬∀ e ∈ trace GraphOp.step (graphInit, (plainStore 0).1) cutOps,
    GraphOp.writeSound e := by
  intro hall
  let s := exec GraphOp.step (graphInit, (plainStore 0).1) (cutOps.take 1)
  have hlast := (hall (entry GraphOp.step s (.fileWrite 2 4095 [1, 1]))
    (.tail _ (.head _))).2
  have hreply : (GraphOp.step s (.fileWrite 2 4095 [1, 1])).2 = 1 := by decide +kernel
  simp only [entry, hreply] at hlast
  have hbytes := congrArg Except.toOption (hlast Int.one_pos)
  revert hbytes
  decide +kernel

end SotOs.Sotfs
