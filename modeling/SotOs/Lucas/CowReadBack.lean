import SotOs.Lucas.Handles
import SotOs.Sotfs.ShortWrite

/-! What a session reads back from a file it does not own: from its first write on, the bytes of the
base are no longer looked at. -/

namespace SotOs.Lucas
open Sotfs Machine Function Slots List Option

variable {c : Cow} {session : UInt32} {path data : List UInt8} {old buf : List UInt8} {off : ℕ}

theorem cowFind_update {i : Fin cowMaxEntries} (e : CowEntry) (hs : e.session = session)
    (hp : e.path = path)
    (hslot : cowFind c session path = some i ∨ cowFind c session path = none) :
    cowFind (update c i (some e)) session path = some i := by
  have hself : (update c i (some e) i).any
      (fun e => e.session == session && e.path == path) = true := by
    rw [update_self]
    simp [hs, hp]
  apply first_eq_of_min hself
  intro j hj
  rw [update_of_ne hj.ne]
  rcases hslot with hfound | hnone
  · exact first_min hfound hj
  · exact first_none hnone j

theorem cowWrite_cases (session : UInt32) (data : List UInt8) (hpath : path.length < cowMaxPath) :
    (cowWrite c session path data).2 = 0 ∧
        cowRead (cowWrite c session path data).1 session path = some data ∨
      (cowWrite c session path data).2 = -28 ∧ (cowWrite c session path data).1 = c := by
  have hread : ∀ i, (cowFind c session path = some i ∨ cowFind c session path = none) →
      cowRead (update c i (some ⟨session, path.take (cowMaxPath - 1), data⟩)) session
        path = some data := by
    intro i hslot
    have hfind := cowFind_update ⟨session, path.take (cowMaxPath - 1), data⟩ rfl
      (take_of_length_le (by omega)) hslot
    rw [cowRead, hfind, bind_some, update_self, map_some]
  unfold cowWrite
  split_ifs
  · exact .inr ⟨rfl, rfl⟩
  cases hf : cowFind c session path with
  | some i => exact .inl ⟨rfl, hread i (.inl hf)⟩
  | none =>
    cases hfree : first fun i => (c i).isNone with
    | none => exact .inr ⟨rfl, rfl⟩
    | some i => exact .inl ⟨rfl, hread i (.inr hf)⟩

theorem cowTruncate_none (newlen : ℕ) (h : cowRead c session path = none) :
    cowTruncate c session path newlen = (c, 0) := by
  unfold cowTruncate
  rcases hf : cowFind c session path with _ | i
  · rfl
  have hi := first_some hf
  rw [cowRead, hf, bind_some, map_eq_none_iff] at h
  simp [h] at hi

theorem cowTruncate_some (newlen : ℕ) (h : cowRead c session path = some data) :
    (cowTruncate c session path newlen).2 = 0 ∧
        cowRead (cowTruncate c session path newlen).1 session path =
          some (data.take newlen ++ List.replicate (newlen - data.length) 0) ∨
      (cowTruncate c session path newlen).2 = -28 ∧ (cowTruncate c session path newlen).1 = c := by
  obtain ⟨i, hf, hi⟩ := bind_eq_some_iff.mp h
  obtain ⟨e, he, rfl⟩ := map_eq_some_iff.mp hi
  have hmine : e.session = session ∧ e.path = path := by
    have hfound := first_some hf
    simpa [he] using hfound
  unfold cowTruncate
  rw [hf]
  simp only
  split_ifs
  · exact .inr ⟨rfl, rfl⟩
  · rw [he, map_some]
    refine .inl ⟨rfl, ?_⟩
    generalize e.data.take newlen ++ replicate (newlen - e.data.length) 0 = data
    simp only [cowRead]
    rw [cowFind_update ⟨_, _, data⟩ hmine.1 hmine.2 (.inl hf), bind_some,
      update_self, map_some]

/-- A file of the base that the session has not written to: `content` is what it reads as. The
path is as a handle keeps it. -/
structure BaseFile (session : UInt32) (s : Fs) where
  i : Fin maxInodes
  path : List UInt8
  content : List UInt8
  session_ne : session ≠ 0
  file : (s.graph.inodes i).map (·.kind) ≠ some .dir
  base : sessionOwner s.sessions (toId i) = 0
  fits : path.length < handlePathBytes
  reads : ∀ off count, (fileRead s.graph s.dev (toId i) off count).2 =
    .ok ((content.drop off).take count)
  fresh : cowRead s.cow session path = none

def BaseFile.At {s : Fs} (f : BaseFile session s) (t : Fs) (h : Fin handlePool) : Prop :=
  handleSlot t h = some f.i ∧ (t.handles h).path = f.path

inductive ViewOp where
  | write (buf : List UInt8) (cursor : ℤ)
  | truncate (newlen : ℤ)

structure ViewCall {s : Fs} (f : BaseFile session s) where
  env : Env
  h : Fin handlePool
  op : ViewOp
  mine : env.session = session
  isolated : env.isolated = true
  opened : f.At s h

def ViewCall.toFs {s : Fs} {f : BaseFile session s} (call : ViewCall f) : Env × FsOp :=
  (call.env, match call.op with
    | .write buf cursor => .write call.h buf cursor
    | .truncate newlen => .truncate call.h newlen)

def ViewOp.patch (content : List UInt8) : ViewOp → Reply → List UInt8
  -- The contents with the call applied, if it returned success. Writing nothing changes nothing.
  | .write buf cursor, .code rc =>
    if rc = buf.length ∧ buf ≠ [] then spliceAt content cursor.toNat buf else content
  | .truncate newlen, .code rc =>
    if rc = 0 then content.take newlen.toNat ++ List.replicate (newlen.toNat - content.length) 0
    else content
  | _, _ => content

def viewStep {s : Fs} {f : BaseFile session s} (v : Fs × List UInt8) (call : ViewCall f) :
    (Fs × List UInt8) × Reply :=
  let (t, reply) := fsStep v.1 call.toFs
  ((t, call.op.patch v.2 reply), reply)

def ReadsBack {s : Fs} (f : BaseFile session s) (v : Fs × List UInt8) : Prop :=
  ∀ (env : Env) (h : Fin handlePool) (count : ℕ) (cursor : ℤ), env.session = session →
    f.At v.1 h → 0 ≤ cursor → cursor < 2 ^ 32 → count < 2 ^ 32 →
      (opRead env h count cursor v.1).2 = .data ((v.2.drop cursor.toNat).take count)

/-- A write that opens the entry covers what the base has but leading zeros, and a truncation before
it keeps the length. Later an empty write is not past the end and a length is a 32-bit one. -/
def Suits {s : Fs} {f : BaseFile session s} (t : Fs) (call : ViewCall f) : Prop :=
  match call.op, cowRead t.cow session f.path with
  | .write buf cursor, none => f.content.length ≤ cursor.toNat + buf.length ∧
      (∀ b ∈ f.content.take cursor.toNat, b = 0) ∧ (buf = [] → cursor.toNat ≤ f.content.length)
  | .write buf cursor, some old => buf = [] → cursor.toNat ≤ old.length
  | .truncate newlen, none => newlen.toNat = f.content.length
  | .truncate newlen, some _ => newlen < 2 ^ 32

theorem spliceAt_empty (h : off ≤ old.length) : spliceAt old off [] = old := by
  simp [spliceAt, Nat.sub_eq_zero_of_le h]

theorem spliceAt_covered (hlen : old.length ≤ off + buf.length)
    (hzero : ∀ b ∈ old.take off, b = 0) :
    spliceAt [] off buf = spliceAt old off buf := by
  have htake : old.take off = replicate (min off old.length) 0 :=
    eq_replicate_iff.mpr ⟨length_take, hzero⟩
  have hgap : min off old.length + (off - old.length) = off := by omega
  rw [spliceAt, spliceAt, htake, drop_of_length_le hlen, ← replicate_add, hgap]
  simp

variable {s : Fs} {f : BaseFile session s} {v : Fs × List UInt8}

def Viewed (f : BaseFile session s) (v : Fs × List UInt8) : Prop :=
  ∃ c, v.1 = { s with cow := c } ∧ (cowRead c session f.path).getD f.content = v.2

theorem Viewed.readsBack (hv : Viewed f v) : ReadsBack f v := by
  rintro env h count cursor rfl ⟨hslot, hpath⟩ h0 hlt hcount
  obtain ⟨t, content⟩ := v
  obtain ⟨c, rfl, rfl⟩ := hv
  have hvisible : sessionVisible s.sessions (toId f.i) env.session = true := by
    simp [sessionVisible, f.base]
  have hcursor : low32 cursor = cursor.toNat := by
    rw [low32, Int.emod_eq_of_lt h0 hlt]
  have hread := f.reads cursor.toNat count
  simp only at hpath
  simp only [opRead, hslot, if_neg f.file, hvisible, Bool.not_true, Bool.false_eq_true, if_false,
    if_neg f.session_ne, hpath, hcursor, Nat.mod_eq_of_lt hcount]
  cases cowRead c env.session f.path with
  | some overlay => rfl
  | none =>
    generalize fileRead s.graph s.dev (toId f.i) cursor.toNat count = out at hread ⊢
    obtain ⟨dev, rc⟩ := out
    obtain rfl : rc = _ := hread
    rfl

theorem ViewCall.write (call : ViewCall f) (c : Cow) (buf : List UInt8) (cursor : ℤ) :
    opWrite call.env call.h buf cursor { s with cow := c } =
      if cowMaxBytes < cursor.toNat + buf.length then ({ s with cow := c }, .code (-28))
      else
        let out := cowWrite c session f.path
          (spliceAt ((cowRead c session f.path).getD []) cursor.toNat buf)
        ({ s with cow := out.1 }, .code (if out.2 ≠ 0 then out.2 else buf.length)) := by
  obtain ⟨env, h, op, rfl, hisolated, hslot, hpath⟩ := call
  have howner : ¬(sessionOwner s.sessions (toId f.i) = env.session) :=
    fun h => f.session_ne (h.symm.trans f.base)
  have hslot' : handleSlot { s with cow := c } h = some f.i := hslot
  simp only [opWrite, hslot', if_neg f.file, hisolated, if_true, if_neg f.session_ne, sessionWrite,
    if_neg howner, hpath]

theorem ViewCall.truncate (call : ViewCall f) (c : Cow) (newlen : ℤ) :
    opTruncate call.env call.h newlen { s with cow := c } =
      let out := cowTruncate c session f.path (if 0 < newlen then low32 newlen else 0)
      ({ s with cow := out.1 }, .code out.2) := by
  obtain ⟨env, h, op, rfl, hisolated, hslot, hpath⟩ := call
  have huse : (s.handles h).inUse = true := by
    by_contra hclosed
    rw [handleSlot, if_neg hclosed] at hslot
    cases hslot
  simp only [opTruncate, huse, Bool.not_true, Bool.false_eq_true, if_false, if_neg f.session_ne,
    hpath]

theorem Suits.spliced {c : Cow} {call : ViewCall f} {cursor : ℤ} (hop : call.op = .write buf cursor)
    (hsuits : Suits { s with cow := c } call) :
    spliceAt ((cowRead c session f.path).getD []) cursor.toNat buf =
      ViewOp.patch ((cowRead c session f.path).getD f.content) (.write buf cursor)
        (.code buf.length) := by
  simp only [Suits, hop] at hsuits
  simp only [ViewOp.patch, true_and]
  cases hc : cowRead c session f.path with
  | none =>
    rw [hc] at hsuits
    obtain ⟨hlen, hzero, hend⟩ := hsuits
    rw [getD_none, getD_none, spliceAt_covered hlen hzero]
    split_ifs with hbuf
    · rfl
    · obtain rfl := not_not.mp hbuf
      exact spliceAt_empty (hend rfl)
  | some old =>
    rw [hc] at hsuits
    rw [getD_some, getD_some]
    split_ifs with hbuf
    · rfl
    · obtain rfl := not_not.mp hbuf
      exact spliceAt_empty (hsuits rfl)

theorem Viewed.written {c : Cow} (call : ViewCall f) {cursor : ℤ}
    (hop : call.op = .write buf cursor) (hsuits : Suits { s with cow := c } call) :
    Viewed f
      (viewStep ({ s with cow := c }, (cowRead c session f.path).getD f.content) call).1 := by
  have hrefused : ∀ content, ViewOp.patch content (.write buf cursor) (.code (-28)) = content := by
    intro content
    rw [ViewOp.patch, if_neg]
    omega
  have hspliced := hsuits.spliced hop
  simp only [viewStep, ViewCall.toFs, hop, fsStep, call.write]
  generalize spliceAt ((cowRead c session f.path).getD []) cursor.toNat buf = data at hspliced ⊢
  by_cases hcap : cowMaxBytes < cursor.toNat + buf.length
  · rw [if_pos hcap]
    exact ⟨c, rfl, (hrefused _).symm⟩
  rw [if_neg hcap]
  have hpath : f.path.length < cowMaxPath := f.fits.trans (by decide)
  rcases cowWrite_cases (c := c) session data hpath with ⟨hok, hread⟩ | ⟨hno, hsame⟩
  · refine ⟨_, rfl, ?_⟩
    simp only [hok, hread]
    exact hspliced
  · refine ⟨c, by rw [hsame], ?_⟩
    simp only [hno]
    exact (hrefused _).symm

theorem Viewed.truncated {c : Cow} (call : ViewCall f) {newlen : ℤ}
    (hop : call.op = .truncate newlen) (hsuits : Suits { s with cow := c } call) :
    Viewed f
      (viewStep ({ s with cow := c }, (cowRead c session f.path).getD f.content) call).1 := by
  simp only [Suits, hop] at hsuits
  simp only [viewStep, ViewCall.toFs, hop, fsStep, call.truncate]
  cases hc : cowRead c session f.path with
  | none =>
    rw [hc] at hsuits
    rw [cowTruncate_none _ hc]
    refine ⟨c, rfl, ?_⟩
    simp [ViewOp.patch, hc, hsuits]
  | some old =>
    rw [hc] at hsuits
    have hlen : (if 0 < newlen then low32 newlen else 0) = newlen.toNat := by
      split_ifs with hpos
      · rw [low32, Int.emod_eq_of_lt hpos.le hsuits]
      · omega
    rw [hlen]
    rcases cowTruncate_some newlen.toNat hc with ⟨hok, hread⟩ | ⟨hno, hsame⟩
    · refine ⟨_, rfl, ?_⟩
      simp [ViewOp.patch, hok, hread]
    · refine ⟨c, by rw [hsame], ?_⟩
      simp [ViewOp.patch, hno, hc]

theorem viewStep_viewed {call : ViewCall f} (hv : Viewed f v) (hsuits : Suits v.1 call) :
    Viewed f (viewStep v call).1 := by
  obtain ⟨t, content⟩ := v
  obtain ⟨c, rfl, rfl⟩ := hv
  cases hop : call.op with
  | write buf cursor => exact .written call hop hsuits
  | truncate newlen => exact .truncated call hop hsuits

/-- Wherever each call suits, the session reads back the base with its calls applied, at every
point of the run. -/
theorem session_reads_back (f : BaseFile session s) (calls : List (ViewCall f))
    (hsuit : ∀ e ∈ trace viewStep (s, f.content) calls, Suits e.pre.1 e.input) (k : ℕ) :
    ReadsBack f (exec viewStep (s, f.content) (calls.take k)) := by
  have hinit : Viewed f (s, f.content) := ⟨s.cow, rfl, by rw [f.fresh]; rfl⟩
  refine Viewed.readsBack ?_
  refine exec_invariant_of viewStep (P := Viewed f) (Q := fun e => Suits e.pre.1 e.input)
    ?_ hinit _ ?_
  · exact fun v call hsuits hv => viewStep_viewed hv hsuits
  · intro e he
    rw [trace_take] at he
    exact hsuit e (mem_of_mem_take he)

def openFile (gd : Graph × Blkdev) : Fs where
  graph := gd.1
  dev := gd.2
  wal := bootWal
  handles := fun _ => ⟨true, 2, pathA.bytes⟩
  sessions := sessionInit
  cow := fun _ => none

def threeBytes : Fs :=
  openFile (exec GraphOp.step (graphInit, (plainStore 1).1)
    [.createFile 1 [97] 0o644, .fileWrite 2 0 [1, 2, 3]])

theorem threeBytes_inode : (threeBytes.graph.inode (toId (n := maxInodes) 1)).any
    (fun n => n.kind = .file ∧ n.size = 3) = true := by
  decide +kernel

def threeRead (off count : ℕ) : Except Err (List UInt8) :=
  (fileRead threeBytes.graph threeBytes.dev (toId (n := maxInodes) 1) off count).2

theorem threeRead_clamp (off count : ℕ) :
    threeRead off count = threeRead (min off 3) (min count 3) := by
  have hinode := threeBytes_inode
  have hzero : min count 3 = 0 ↔ count = 0 := by omega
  unfold threeRead fileRead
  cases hn : threeBytes.graph.inode (toId (n := maxInodes) 1) with
  | none => simp [hn] at hinode
  | some n =>
    obtain ⟨hkind, hsize⟩ : n.kind = .file ∧ n.size = 3 := by simpa [hn] using hinode
    by_cases hoff : 3 ≤ off
    · simp [hkind, hsize, hoff, hzero]
    · have hmin : min (3 - off) (min count 3) = min (3 - off) count := by omega
      rw [min_eq_left (Nat.le_of_not_le hoff)]
      simp only [hkind, hsize, hmin, hzero]

theorem threeRead_eq (off count : ℕ) :
    threeRead off count = .ok ((([1, 2, 3] : List UInt8).drop off).take count) := by
  -- no more than three bytes from one of four offsets can tell two reads apart
  have hall : ∀ off count : Fin 4, (threeRead off count).toOption =
      some ((([1, 2, 3] : List UInt8).drop off).take count) := by
    decide +kernel
  have hdrop : ([1, 2, 3] : List UInt8).drop (min off 3) = drop off [1, 2, 3] := by
    rw [drop_eq_drop_iff]
    simp
  have htake : (drop off ([1, 2, 3] : List UInt8)).take (min count 3) =
      take count (drop off [1, 2, 3]) := by
    rw [take_eq_take_iff]
    simp
  have hread := hall ⟨min off 3, by omega⟩ ⟨min count 3, by omega⟩
  rw [hdrop, htake] at hread
  rw [threeRead_clamp]
  cases hr : threeRead (min off 3) (min count 3) with
  | error e => simp [hr, Except.toOption] at hread
  | ok bytes => simpa [hr, Except.toOption] using hread

def threeFile : BaseFile 7 threeBytes where
  i := 1
  path := pathA.bytes
  content := [1, 2, 3]
  session_ne := by decide
  file := by decide +kernel
  base := rfl
  fits := by decide
  reads := threeRead_eq
  fresh := by decide +kernel

def viewCall (op : ViewOp) : ViewCall threeFile where
  env := sshEnv
  h := handle0
  op := op
  mine := rfl
  isolated := rfl
  opened := ⟨by decide +kernel, rfl⟩

def gapCalls : List (ViewCall threeFile) :=
  [viewCall (.write [9, 8, 7, 6] 0), viewCall (.truncate 2), viewCall (.write [5] 4)]

theorem gapCalls_written :
    (cowRead (viewStep (threeBytes, [1, 2, 3]) (viewCall (.write [9, 8, 7, 6] 0))).1.1.cow 7
      pathA.bytes).isSome ∧
    (cowRead (viewStep (viewStep (threeBytes, [1, 2, 3]) (viewCall (.write [9, 8, 7, 6] 0))).1
      (viewCall (.truncate 2))).1.1.cow 7 pathA.bytes).isSome := by
  decide +kernel

theorem session_reads_back_gap :
    ReadsBack threeFile (exec viewStep (threeBytes, [1, 2, 3]) gapCalls) ∧
      (exec viewStep (threeBytes, [1, 2, 3]) gapCalls).2 = [9, 8, 0, 0, 5] := by
  refine ⟨session_reads_back threeFile gapCalls ?_ 3, by decide +kernel⟩
  have hfresh : cowRead threeBytes.cow 7 pathA.bytes = none := threeFile.fresh
  obtain ⟨old, hold⟩ := Option.isSome_iff_exists.mp gapCalls_written.1
  obtain ⟨cut, hcut⟩ := Option.isSome_iff_exists.mp gapCalls_written.2
  simp only [gapCalls, trace, forall_mem_cons]
  refine ⟨?_, ?_, ?_, forall_mem_nil _⟩
  · simp [Suits, entry, viewCall, threeFile, hfresh]
  · simp only [Suits, entry, viewCall, threeFile] at hold ⊢
    simp [hold]
  · simp only [Suits, entry, viewCall, threeFile] at hcut ⊢
    simp [hcut]

theorem base_bytes_lost : (opRead sshEnv handle0 3 0 threeBytes).2 = .data [1, 2, 3] ∧
      (opWrite sshEnv handle0 [9] 0 threeBytes).2 = .code 1 ∧
      (opRead sshEnv handle0 3 0 (opWrite sshEnv handle0 [9] 0 threeBytes).1).2 = .data [9] ∧
      spliceAt [1, 2, 3] 0 [9] = [9, 2, 3] := by
  decide +kernel

end SotOs.Lucas
