import SotOs.Sotfs.Erase
import SotOs.Sotfs.WellFormed
import SotOs.Sotfs.WalRecovery
import SotOs.Lucas.Reach

/-! What the log says of the file system: the frames in it, replayed onto the graph and the store of
a new system, give the graph and the store of the running one, but for open counts and stamps. -/

namespace SotOs.Sotfs
open List hiding Vector

open Function Slots

variable {name : Name} {buf : List UInt8} {g g' : Graph} {p : ℤ} {mode : UInt32} {s : Log}
  {req : AppendReq} {reply : AppendReply} {out : Log × AppendReply} {r : Record}

theorem nameField_toList (hlen : name.length < walNameBytes) :
    (nameField name).toList = name ++ List.replicate (walNameBytes - name.length) 0 := by
  rw [nameField, Vector.toList_ofFn]
  apply ext_getElem
  · simp only [length_ofFn, length_append, length_replicate]
    omega
  · intro k hk hk'
    rw [List.getElem_ofFn]
    rcases Nat.lt_or_ge k name.length with hin | hout
    · have hbound : k + 1 < walNameBytes := by omega
      rw [getElem_append_left hin, if_pos hbound, getElem?_eq_getElem hin,
        Option.getD_some]
    · rw [getElem_append_right hout, getElem_replicate, getElem?_eq_none hout,
        Option.getD_none, ite_self]

theorem fieldName_nameField (hnul : 0 ∉ name) (hlen : name.length < walNameBytes) :
    fieldName (nameField name) = name := by
  have hkeep : ∀ a ∈ name, decide (a ≠ 0) = true := by
    intro a ha
    rw [decide_eq_true_eq]
    rintro rfl
    exact hnul ha
  obtain ⟨k, hk⟩ : ∃ k, walNameBytes - name.length = k + 1 := ⟨walNameBytes - name.length - 1, by omega⟩
  rw [fieldName, nameField_toList hlen, takeWhile_append_of_pos hkeep, hk,
    replicate_succ, takeWhile_cons_of_neg (by simp), append_nil]

theorem blobField_take (hlen : buf.length ≤ walMaxBlob) :
    (blobField buf).toList.take buf.length = buf := by
  rw [blobField, Vector.toList_ofFn]
  apply ext_getElem
  · simp [hlen]
  · intro k hk hk'
    rw [getElem_take, List.getElem_ofFn, getElem?_eq_getElem hk', Option.getD_some]

theorem toNat_blobLen {n : ℕ} (h : n ≤ walMaxBlob) : (UInt32.ofNat (min n walMaxBlob)).toNat = n := by
  rw [Nat.min_eq_left h]
  exact UInt32.toNat_ofNat_of_lt' (h.trans_lt (by decide))

variable {tx now : UInt64}

theorem writeRecord_data {id : ℤ} {off : ℕ} (hlen : buf.length ≤ walMaxBlob) :
    (writeRecord tx now id off buf).data = buf := by
  change (blobField buf).toList.take (UInt32.ofNat (min buf.length walMaxBlob)).toNat = buf
  rw [toNat_blobLen hlen, blobField_take hlen]

theorem installRecord_data {path : List UInt8} {content : List UInt8}
    (hlen : content.length ≤ walMaxBlob) : (installRecord tx now path content).data = content := by
  change (blobField content).toList.take (UInt32.ofNat (min content.length walMaxBlob)).toNat = content
  rw [toNat_blobLen hlen, blobField_take hlen]

theorem ofInt_toId {i : Fin maxInodes} : (Int32.ofInt (toId i)).toInt = toId i := by
  have hi : i.val < 1024 := i.isLt
  rw [Int32.toInt_ofInt]
  apply Int.bmod_eq_of_le <;> simp only [toId, Int32.size] <;> omega

theorem ofInt_inode {id : ℤ} {n : Inode} (h : g.inode id = some n) :
    (Int32.ofInt id).toInt = id := by
  obtain ⟨i, rfl, -⟩ := Graph.inode_eq_some.mp h
  exact ofInt_toId

structure Tame (g : Graph) : Prop extends GraphInv g where
  linked : ∀ id n, g.inode id = some n → n.orphan = false
  names : ∀ i e, g.edges i = some e → e.name.length < maxName

theorem Tame.leaf_length (h : Tame g) {leaf : Name} {i : Fin maxEdges}
    (hfind : findEdge g p leaf = some i) : leaf.length < maxName := by
  obtain ⟨e, he, -, hname⟩ := findEdge_some hfind
  rw [← hname]
  exact h.names i e he

theorem Tame.of_erase (h : Tame g) (herase : g'.erase = g.erase) : Tame g' := by
  have hinode : ∀ id, (g'.inode id).map Inode.erase = (g.inode id).map Inode.erase := by
    intro id
    rw [← erase_inode, ← erase_inode, herase]
  have hedges : g'.erase.edges = g.erase.edges := by rw [herase]
  have hblocks : g'.erase.blocks = g.erase.blocks := by rw [herase]
  have hroot : g'.erase.rootId = g.erase.rootId := by rw [herase]
  rw [erase_edges, erase_edges] at hedges
  rw [erase_blocks, erase_blocks] at hblocks
  have hlinked : ∀ id n, g'.inode id = some n → n.orphan = false := by
    intro id n' hn'
    have hmap := hinode id
    rw [hn'] at hmap
    obtain ⟨n, hn, heq⟩ := Option.map_eq_some_iff.mp hmap.symm
    have horphan : n.erase.orphan = n'.erase.orphan := congrArg Inode.orphan heq
    exact horphan.symm.trans (h.linked id n hn)
  refine ⟨h.of_core ?_ ?_ hedges hroot ?_, hlinked, ?_⟩
  · intro id
    have hcore := congrArg (Option.map Inode.core) (hinode id)
    rw [Option.map_map, Option.map_map] at hcore
    exact hcore
  · intro id n hn horphan
    rw [hlinked id n hn] at horphan
    cases horphan
  · intro i b hb
    rw [hblocks] at hb
    exact h.block_file i b hb
  · rw [hedges]
    exact h.names

theorem Tame.created {kind : Kind} {id : ℤ} (h : Tame g)
    (hcreate : createNode kind g p name mode = (g', .ok id)) : Tame g' := by
  have hc := createNode_created kind g p name mode
  rw [hcreate] at hc
  refine ⟨hc.inv h.toGraphInv, ?_, ?_⟩
  · cases hc with
    | created i j _ hlen _ _ hi hj =>
      intro id n hn
      rw [Graph.inode_update (g := g) rfl] at hn
      split_ifs at hn
      · obtain ⟨⟩ := hn
        rfl
      · exact h.linked id n hn
  · cases hc with
    | created i j _ hlen _ _ hi hj =>
      intro k e he
      change update g.edges j _ k = some e at he
      by_cases hk : k = j
      · subst hk
        rw [update_self, Option.some.injEq] at he
        rw [← he]
        exact hlen
      · rw [update_of_ne hk] at he
        exact h.names k e he

theorem Tame.create_error {kind : Kind} {e : Err} (h : Tame g)
    (hcreate : createNode kind g p name mode = (g', .error e)) : g' = g := by
  obtain ⟨j, hj⟩ := h.free_edge
  have hsame : ∀ {a : Err}, (g, (.error a : Except Err ℤ)) = (g', .error e) → g' = g :=
    fun heq => (Prod.mk.inj heq).1.symm
  unfold createNode at hcreate
  split at hcreate
  · exact hsame hcreate
  split at hcreate
  · exact hsame hcreate
  split at hcreate
  · exact hsame hcreate
  unfold allocInode at hcreate
  rcases hi : firstFrom g.nextInodeHint fun i => (g.inodes i).isNone with _ | i
  · rw [hi] at hcreate
    exact hsame hcreate
  obtain ⟨k, hk⟩ := firstFrom_isSome g.nextEdgeHint
    (p := fun j => (g.edges j).isNone) ⟨j, by rw [hj]; rfl⟩
  simp only [hi, allocEdge, Graph.setInode, hk, Prod.mk.injEq, reduceCtorEq, and_false] at hcreate

theorem Tame.removed (h : Tame g) (hrmdir : rmdir g p name = (g', .ok ())) : Tame g' := by
  have hr := rmdir_removed g p name
  rw [hrmdir] at hr
  refine ⟨hr.inv h.toGraphInv, ?_, ?_⟩
  · cases hr with
    | removed i c _ _ _ _ _ =>
      intro id n hn
      rw [Graph.inode_update (g := g) rfl] at hn
      split_ifs at hn
      exact h.linked id n hn
  · cases hr with
    | removed i c _ _ _ _ _ =>
      intro k e he
      change update g.edges i none k = some e at he
      by_cases hk : k = i
      · subst hk
        rw [update_self] at he
        cases he
      · rw [update_of_ne hk] at he
        exact h.names k e he

theorem Tame.unlinked (h : Tame g) (hunlink : unlink g p name = (g', .ok ()))
    (hclosed : ∀ i c n, findEdge g p name = some i → g.edges i = some ⟨p, c, name⟩ →
      g.inode c = some n → n.openCount = 0) : Tame g' := by
  have hinv : GraphInv g' := by
    have hu := unlink_unlinked g p name
    rw [hunlink] at hu
    exact hu.inv h.toGraphInv
  obtain ⟨i, c, -, hfind, hedge, hkind, rfl⟩ := unlink_ok hunlink
  obtain ⟨n, hn⟩ := h.child_live i _ hedge
  have hopen := hclosed i _ n hfind hedge hn
  have horphan := h.linked _ n hn
  have hdir : n.kind ≠ .dir := by
    rw [Graph.inode_toId] at hn
    simpa [hn] using hkind
  have hlink := h.nlink_one _ n hn hdir horphan
  rw [Graph.inode_toId] at hn
  rw [dropLink_last (g := g.setEdge i none) hn hlink, hopen, if_neg (Nat.lt_irrefl 0)] at hinv ⊢
  refine ⟨hinv, ?_, ?_⟩
  · intro id m hm
    rw [Graph.inode_update (g := g) rfl] at hm
    split_ifs at hm
    exact h.linked id m hm
  · intro k e he
    change update g.edges i none k = some e at he
    by_cases hk : k = i
    · subst hk
      rw [update_self] at he
      cases he
    · rw [update_of_ne hk] at he
      exact h.names k e he

theorem Tame.written (h : Tame g) (d : Blkdev) (id : ℤ) (off : ℕ) (buf : List UInt8) :
    Tame (fileWrite g d id off buf).1 := by
  have hw := fileWrite_written g d id off buf
  refine ⟨hw.inv h.toGraphInv, ?_, ?_⟩
  · generalize fileWrite g d id off buf = out at hw ⊢
    cases hw with
    | nothing => exact h.linked
    | cut n _ _ g' d' hrounds =>
      intro id' m hm
      rw [Graph.inode_congr (rounds_frame hrounds).inodes] at hm
      exact h.linked id' m hm
    | whole n _ _ g' d' hrounds size =>
      intro id' m hm
      rw [Graph.inode_modifyInode, Graph.inode_congr (rounds_frame hrounds).inodes] at hm
      split_ifs at hm
      · obtain ⟨m₀, hm₀, rfl⟩ := Option.map_eq_some_iff.mp hm
        have horphan := h.linked id' m₀ hm₀
        split <;> exact horphan
      · exact h.linked id' m hm
  · generalize fileWrite g d id off buf = out at hw ⊢
    cases hw with
    | nothing => exact h.names
    | cut n _ _ g' d' hrounds =>
      intro k e he
      rw [(rounds_frame hrounds).edges] at he
      exact h.names k e he
    | whole n _ _ g' d' hrounds size =>
      intro k e he
      rw [modifyInode_edges, (rounds_frame hrounds).edges] at he
      exact h.names k e he

theorem Tame.renamed {pSrc pDst : ℤ} {oldName newName : Name} (h : Tame g)
    (hren : rename g pSrc oldName pDst newName = (g', .ok ())) : Tame g' := by
  have hr := rename_renamed g pSrc oldName pDst newName
  rw [hren] at hr
  refine ⟨hr.inv h.toGraphInv, ?_, ?_⟩
  · cases hr with
    | renamed old j c _ _ hnew _ _ _ _ => exact h.linked
  · cases hr with
    | renamed old j c _ _ hnew _ _ _ _ =>
      intro k e he
      change update (update g.edges j _) old none k = some e at he
      by_cases hk : k = old
      · subst hk
        rw [update_self] at he
        cases he
      · rw [update_of_ne hk] at he
        by_cases hkj : k = j
        · subst hkj
          rw [update_self, Option.some.injEq] at he
          rw [← he]
          exact hnew.2
        · rw [update_of_ne hkj] at he
          exact h.names k e he

theorem tidy_of_sound {st : Storage} (hs : st.Sound) {off len : ℕ} (hroom : off + len ≤ st.capacity) :
    Tidy st off len := by
  unfold Storage.Sound at hs
  intro k hcut
  cases hcut with
  | range hshort => omega
  | header hf _ => rw [hs] at hf; cases hf
  | payload hf _ => rw [hs] at hf; cases hf

theorem tidyAppend_of_sound (hs : s.st.Sound) (hcap : walEnd ≤ s.st.capacity)
    (hfits : RecordFits s req) : TidyAppend s req reply := by
  refine ⟨hfits, ?_, ?_⟩
  · intro code _ hin
    exact tidy_of_sound hs (hin.trans hcap)
  · intro code _ _ _ hin st hsame hfaults
    have hsound : st.Sound := by
      unfold Storage.Sound at hs ⊢
      rw [hfaults, hs]
      rfl
    exact tidy_of_sound hsound (hsame ▸ hin.trans hcap)

theorem Appended.initialised (h : Appended req s out) :
    out.1.wal.initialised = s.wal.initialised := by
  cases h with
  | uninit _ => rfl
  | failed h _ => exact h.initialised
  | alone h hinit _ _ => exact hinit.trans h.initialised
  | checkpoint h _ hck hinit _ _ hinit' _ _ =>
    exact hinit'.trans (hck.initialised.trans (hinit.trans h.initialised))

theorem Appended.ok_of_sound (h : Appended (.record r) s out) (hinit : s.wal.initialised = true)
    (hs : s.st.Sound) (hroom : s.wal.cursor + 848 ≤ s.st.capacity) : out.2.rc = .ok := by
  have hlen := record_frameLen r
  cases h with
  | uninit hun => rw [hinit] at hun; cases hun
  | failed hframe hrc =>
    have hfit : s.wal.cursor + (AppendReq.record r).frameLen ≤ s.st.capacity := by rwa [hlen]
    exact absurd (hframe.of_sound hs hfit hfit) hrc
  | alone => rfl
  | checkpoint => rfl

theorem Appended.cursor_ok (h : Appended (.record r) s out) (hok : out.2.rc = .ok) :
    s.wal.cursor + 848 ≤ out.1.wal.cursor := by
  have hlen := record_frameLen r
  cases h with
  | uninit _ => cases hok
  | failed _ hrc => exact absurd hok hrc
  | alone hframe _ hcursor _ =>
    cases hframe
    simp only at hcursor ⊢
    omega
  | checkpoint hframe _ hck _ hcursor _ _ hcursor' _ =>
    have hle := hck.cursor
    cases hframe
    simp only at hle hcursor hcursor' ⊢
    omega

theorem foldl_entryFrames {σ : Type*} (apply : σ → Record → σ × Bool) (seq : ℕ) (r : Record)
    (hok : reply.rc = .ok) (t : σ) :
    (entryFrames seq (.record r) reply).foldl (applyFrame apply) t = (apply t r).1 := by
  obtain ⟨rc, ck⟩ := reply
  obtain rfl : rc = .ok := hok
  rcases ck with _ | rc'
  · rfl
  · cases rc' <;> rfl

end SotOs.Sotfs

namespace SotOs.Lucas
open Sotfs List

/-- Replaying the frames onto a new graph and the store `d₀`, over any image below the heap, gives
the graph and the store. -/
structure Mirrored (d₀ : Blkdev) (frames : List Frame) (s : Fs) : Prop where
  holds : Holds frames s.wal s.dev.st
  initialised : s.wal.initialised = true
  sound : s.dev.st.Sound
  capacity : walEnd ≤ s.dev.st.capacity
  heap : walEnd ≤ s.dev.heapOff
  graph : Tame s.graph
  replay : ∀ low, frames.foldl (applyFrame applyRecord) (graphInit, d₀.reseat low) =
    (s.graph.erase, s.dev.reseat low)

variable {d₀ : Blkdev} {frames : List Frame} {s : Fs}

theorem Mirrored.congr {s' : Fs} (h : Mirrored d₀ frames s) (hwal : s'.wal = s.wal)
    (hdev : s'.dev = s.dev) (herase : s'.graph.erase = s.graph.erase) : Mirrored d₀ frames s' := by
  refine ⟨?_, hwal ▸ h.initialised, hdev ▸ h.sound, hdev ▸ h.capacity, hdev ▸ h.heap,
    h.graph.of_erase herase, ?_⟩
  · rw [hwal, hdev]
    exact h.holds
  · intro low
    rw [h.replay low, herase, hdev]

theorem Mirrored.capacity_eq (h : Mirrored d₀ frames s) (hheap : walEnd ≤ d₀.heapOff) :
    s.dev.st.capacity = d₀.st.capacity := by
  have hkeep : ∀ (fs : List Frame) (t : Graph × Blkdev),
      SameLog t.2.st (d₀.reseat d₀.st.bytes).st ∧ walEnd ≤ t.2.heapOff →
      SameLog (fs.foldl (applyFrame applyRecord) t).2.st (d₀.reseat d₀.st.bytes).st := by
    intro fs
    induction fs with
    | nil => exact fun t ht => ht.1
    | cons f fs ih =>
      intro t ht
      apply ih
      unfold applyFrame
      split
      · exact applyRecord_sameLog ht _
      · exact ht
  have hlog := hkeep frames (graphInit, d₀.reseat d₀.st.bytes) ⟨.refl _, hheap⟩
  rw [h.replay d₀.st.bytes] at hlog
  exact hlog.capacity

theorem log_reseat (env : Env) (record : UInt64 → UInt64 → Record) (hs : s.dev.st.Sound)
    (hcap : walEnd ≤ s.dev.st.capacity) (hheap : walEnd ≤ s.dev.heapOff)
    (hroom : (s.log env record).wal.cursor ≤ walEnd) (low : ℕ → UInt8) :
    (s.log env record).dev.reseat low = s.dev.reseat low ∧ (s.log env record).dev.st.Sound := by
  obtain ⟨tx, now, reply, happ⟩ := log_appended s env record
  obtain ⟨hsound, habove⟩ := happ.above hs hcap hroom
  have hcapacity := happ.capacity
  refine ⟨?_, hsound⟩
  have hbytes : (fun a => if a < s.dev.heapOff then low a else (s.log env record).dev.st.bytes a) =
      fun a => if a < s.dev.heapOff then low a else s.dev.st.bytes a := by
    funext a
    split_ifs with ha
    · rfl
    · exact habove a (hheap.trans (Nat.not_lt.mp ha))
  have hfaults : (s.log env record).dev.st.faults = s.dev.st.faults := hsound.trans hs.symm
  rw [log_dev]
  unfold Blkdev.reseat
  simp only [hbytes]
  simp only at hcapacity
  rw [hcapacity, hfaults]

theorem Mirrored.log (h : Mirrored d₀ frames s) (s₁ : Fs) (hwal : s₁.wal = s.wal)
    (hdev : SameDevice s.dev s₁.dev)
    (hbelow : ∀ a, a < walEnd → s₁.dev.st.bytes a = s.dev.st.bytes a) (hsound : s₁.dev.st.Sound)
    (hgraph : Tame s₁.graph) (env : Env) (record : UInt64 → UInt64 → Record)
    (hrecord : ∀ low tx now, (applyRecord (s.graph.erase, s.dev.reseat low) (record tx now)).1 =
      (s₁.graph.erase, s₁.dev.reseat low)) (hroom : s₁.wal.cursor + 848 ≤ walEnd) :
    ∃ frames', Mirrored d₀ frames' (s₁.log env record) := by
  have hcap : walEnd ≤ s₁.dev.st.capacity := hdev.capacity ▸ h.capacity
  have hheap : walEnd ≤ s₁.dev.heapOff := hdev.heapOff ▸ h.heap
  have hinit : s₁.wal.initialised = true := hwal ▸ h.initialised
  have hend : (s₁.log env record).wal.cursor ≤ walEnd := log_cursor_room s₁ env record hroom
  have hseat := log_reseat env record hsound hcap hheap hend
  obtain ⟨tx, now, reply, happ⟩ := log_appended s₁ env record
  have hfits : RecordFits ⟨s₁.wal, s₁.dev.st⟩ (.record (record tx now)) := by
    change s₁.wal.cursor + (AppendReq.record (record tx now)).frameLen ≤ walEnd
    rwa [record_frameLen]
  have hok : reply.rc = .ok := happ.ok_of_sound hinit hsound (hroom.trans hcap)
  have hbefore : Holds frames s₁.wal s₁.dev.st := by
    rw [hwal]
    exact h.holds.congr hdev.capacity hbelow
  refine ⟨_, happ.holds hbefore (tidyAppend_of_sound hsound hcap hfits), ?_, (hseat fun _ => 0).2,
    ?_, hheap, hgraph, ?_⟩
  · exact happ.initialised.trans hinit
  · exact happ.capacity ▸ hcap
  · intro low
    rw [foldl_append, h.replay low, foldl_entryFrames applyRecord _ _ hok, hrecord low tx now,
      (hseat low).1]
    rfl

end SotOs.Lucas
