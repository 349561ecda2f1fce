import SotOs.Orch.Pipe

/-! Lost wake-ups: a change of a pipe resumes one parked reader or writer at most, and a read never
looks at the sotboxes that wait for room in `epoll_wait`. -/

namespace SotOs.Orch.Pipes
open Machine Function Slots List

inductive Wait
  | read (p : PipeId) (count : ℕ)
  | write (p : PipeId) (bytes : List UInt8)
  | mux (call : MuxCall) (watches : List Watch)
deriving DecidableEq

/-- The sotbox's fields tell of the call, so that it can be resumed. -/
def Box.Waits (b : Box) : Wait → Prop
  | .read p count => b.pipeWait = some (.read p count)
  | .write p bytes => b.pipeWait = some (.write p bytes)
  | .mux call watches => b.state = .waitingForMux call watches

def Wait.due (pipes : PipeId → Pipe) : Wait → Prop
  | .read p _ => lucasPipeReadReady (pipes p) = true
  | .write p _ => lucasPipeWriteReady (pipes p) = true
  | .mux call watches => ∃ w ∈ watches, 0 < w.hits call.kind (pipes w.pipe)

def Awake (s : State) : Prop := ∀ i a, (s.boxes i).Waits a → ¬ a.due s.pipes

def LoneReader (s : State) (p : PipeId) : Prop :=
  ∀ i j, ((s.boxes i).asReader p).isSome → ((s.boxes j).asReader p).isSome → i = j

def LoneWriter (s : State) (p : PipeId) : Prop :=
  ∀ i j, ((s.boxes i).asWriter p).isSome → ((s.boxes j).asWriter p).isSome → i = j

def Wait.wantsRoom (p : PipeId) : Wait → Prop
  | .write q _ => q = p
  | .mux _ watches => ∃ w ∈ watches, w.pipe = p ∧ w.side = .writeEnd ∧ w.wantOut = true
  | _ => False

def Wait.hearsHup (p : PipeId) : Wait → Prop
  | .mux call watches => ∃ w ∈ watches, w.pipe = p ∧ (call.kind = .select → w.wantExc = true)
  | _ => False

def WriteSuits (s : State) (p : PipeId) (bytes : List UInt8) : Prop :=
  (∀ i count, firstReader s p = some (i, count) → min bytes.length bufSize ≤ count) ∨ LoneReader s p

def leftAfter (s : State) (p : PipeId) (count : ℕ) : List UInt8 :=
  (s.pipes p).data.drop count ++ ((firstWriter s p).map Prod.snd).getD []

/-- The first parked writer refills the pipe or nobody else waits for room, and the pipe does not
run dry behind its last writer or nobody waits to hear of that. -/
def ReadSuits (s : State) (p : PipeId) (count : ℕ) : Prop :=
  (bufSize ≤ (leftAfter s p count).length ∨
      ∀ j a, (s.boxes j).Waits a → a.wantsRoom p →
        ∃ bytes, a = .write p bytes ∧ firstWriter s p = some (j, bytes)) ∧
    (leftAfter s p count ≠ [] ∨ (s.pipes p).writersOpen ≠ 0 ∨
      ∀ j a, (s.boxes j).Waits a → ¬ a.hearsHup p)

def Uncrowded (s : State) : Input → Prop
  | .read _ p count _ => (s.pipes p).inUse = true → count ≠ 0 →
      (s.pipes p).data ≠ [] → ReadSuits s p count
  | .write _ p bytes _ => (s.pipes p).inUse = true → bytes ≠ [] →
      (s.pipes p).readersOpen ≠ 0 → WriteSuits s p bytes
  | .writeKbuf _ p bytes => (s.pipes p).inUse = true → bytes ≠ [] →
      (s.pipes p).readersOpen ≠ 0 → WriteSuits s p bytes
  | .closeReader p => (s.pipes p).inUse = true → (s.pipes p).readersOpen = 1 → LoneWriter s p
  | .closeWriter p => (s.pipes p).inUse = true → (s.pipes p).writersOpen = 1 → LoneReader s p
  | _ => True

variable {v : Pipe} {pipes : PipeId → Pipe} {p : PipeId} {b : Box} {a : Wait} {s s' s'' : State}
  {watches : List Watch} {call : MuxCall} {i j : Slot} {P : Prop} {w : Watch} {r : State × Out}

theorem readReady_false : lucasPipeReadReady v = false ↔ v.data = [] ∧ v.writersOpen ≠ 0 := by
  simp [lucasPipeReadReady]

theorem writeReady_false :
    lucasPipeWriteReady v = false ↔ v.readersOpen ≠ 0 ∧ bufSize ≤ v.data.length := by
  simp [lucasPipeWriteReady]

def Wait.dueAt (p : PipeId) (v : Pipe) : Wait → Prop
  | .read q _ => q = p ∧ lucasPipeReadReady v = true
  | .write q _ => q = p ∧ lucasPipeWriteReady v = true
  | .mux call watches => ∃ w ∈ watches, w.pipe = p ∧ 0 < w.hits call.kind v

open Wait

theorem due_iff_dueAt {pipes' : PipeId → Pipe} (hsame : ∀ q, q ≠ p → pipes' q = pipes q)
    (h : ¬ a.due pipes) : a.due pipes' ↔ a.dueAt p (pipes' p) := by
  cases a with
  | read q count =>
    by_cases hq : q = p
    · subst hq
      simp [due, dueAt]
    · simpa [due, dueAt, hq, hsame q hq] using h
  | write q bytes =>
    by_cases hq : q = p
    · subst hq
      simp [due, dueAt]
    · simpa [due, dueAt, hq, hsame q hq] using h
  | mux call watches =>
    constructor
    · rintro ⟨w, hw, hhit⟩
      by_cases hq : w.pipe = p
      · exact ⟨w, hw, hq, hq ▸ hhit⟩
      · rw [hsame _ hq] at hhit
        exact absurd ⟨w, hw, hhit⟩ h
    · rintro ⟨w, hw, rfl, hhit⟩
      exact ⟨w, hw, hhit⟩

theorem pipeResume_waits :
    b.pipeResume.Waits a ↔ b.Waits a ∧ ∃ call watches, a = .mux call watches := by
  cases a with
  | read p count => simp [Box.pipeResume, Box.Waits]
  | write p bytes => simp [Box.pipeResume, Box.Waits]
  | mux call watches =>
    simp only [Box.pipeResume, Box.Waits, Wait.mux.injEq, exists_and_left, exists_eq', and_true]
    split_ifs with hpipe
    · rcases hpipe with h | h <;> simp [h]
    · rfl

@[simp] theorem resume_pipes : (pipeResumeSotbox s i).pipes = s.pipes := rfl

theorem resume_self : (pipeResumeSotbox s i).boxes i = (s.boxes i).pipeResume := update_self _ _ _

theorem resume_other (h : j ≠ i) : (pipeResumeSotbox s i).boxes j = s.boxes j := update_of_ne h _ _

structure Touches (p : PipeId) (s s' : State) : Prop where
  pipes : ∀ q, q ≠ p → s'.pipes q = s.pipes q
  waits : ∀ i a, (s'.boxes i).Waits a → (s.boxes i).Waits a

theorem Touches.trans (h : Touches p s s') (h' : Touches p s' s'') : Touches p s s'' where
  pipes q hq := (h'.pipes q hq).trans (h.pipes q hq)
  waits i a ha := h.waits i a (h'.waits i a ha)

theorem touches_setPipe (s : State) (p : PipeId) (v : Pipe) : Touches p s (s.setPipe p v) :=
  ⟨fun _ hq => update_of_ne hq _ _, fun _ _ => id⟩

theorem touches_resume (s : State) (p : PipeId) (i : Slot) :
    Touches p s (pipeResumeSotbox s i) where
  pipes _ _ := rfl
  waits j a ha := by
    by_cases hj : j = i
    · subst hj
      rw [resume_self] at ha
      exact (pipeResume_waits.mp ha).1
    · rwa [resume_other hj] at ha

theorem Touches.due_iff (h : Touches p s s') (hs : Awake s) (ha : (s'.boxes i).Waits a) :
    a.due s'.pipes ↔ a.dueAt p (s'.pipes p) :=
  due_iff_dueAt h.pipes (hs i a (h.waits i a ha))

theorem Touches.awake_iff (h : Touches p s s') (hs : Awake s) :
    Awake s' ↔ ∀ i a, (s'.boxes i).Waits a → ¬ a.dueAt p (s'.pipes p) :=
  forall₃_congr fun _ _ ha => not_congr (h.due_iff hs ha)

theorem sum_hits_pos {f : Watch → ℕ} : 0 < (watches.map f).sum ↔ ∃ w ∈ watches, 0 < f w := by
  simp [List.sum_pos_iff_exists_pos_nat]

theorem scan_pos :
    0 < scan call watches pipes ↔ ∃ w ∈ watches, 0 < w.hits call.kind (pipes w.pipe) := by
  rw [← sum_hits_pos]
  cases call with
  | epoll maxevents =>
    have := maxevents.pos
    simp only [scan, lt_min_iff]
    omega
  | poll => rfl
  | select => rfl

def Box.checked (pipes : PipeId → Pipe) (kind : MuxKind) (b : Box) : Box :=
  if b.scanned kind pipes > 0 then b.iomuxResume else b

@[simp] theorem iomuxCheck_pipes : (iomuxCheck s).1.pipes = s.pipes := rfl

theorem iomuxCheck_boxes : (iomuxCheck s).1.boxes i =
      (((s.boxes i).checked s.pipes .epoll).checked s.pipes .poll).checked s.pipes .select := rfl

@[simp] theorem checked_pipeWait {kind : MuxKind} :
    (b.checked pipes kind).pipeWait = b.pipeWait := by
  unfold Box.checked
  split_ifs <;> rfl

theorem checked_mux {kind : MuxKind} : (b.checked pipes kind).state = .waitingForMux call watches ↔
      b.state = .waitingForMux call watches ∧
        (call.kind = kind → ¬ 0 < scan call watches pipes) := by
  by_cases hb : b.state = .waitingForMux call watches
  · simp only [Box.checked, Box.scanned, hb]
    by_cases hkind : call.kind = kind
    · by_cases hscan : 0 < scan call watches pipes <;> simp [hkind, hscan, hb, Box.iomuxResume]
    · simp [hkind, hb]
  · refine iff_of_false (fun hc => hb ?_) fun hc => hb hc.1
    unfold Box.checked at hc
    split_ifs at hc
    · cases hc
    · exact hc

theorem iomuxCheck_mux : ((iomuxCheck s).1.boxes i).Waits (.mux call watches) ↔
      (s.boxes i).Waits (.mux call watches) ∧ ¬ 0 < scan call watches s.pipes := by
  simp only [Box.Waits, iomuxCheck_boxes, checked_mux, and_assoc]
  cases call <;> simp [MuxCall.kind]

theorem asReader_eq_some {count : ℕ} :
    b.asReader p = some count ↔ b.Waits (.read p count) := by
  unfold Box.asReader Box.Waits
  rcases b.pipeWait with _ | (⟨q, n⟩ | ⟨q, bytes⟩) <;> simp

theorem asWriter_eq_some {bytes : List UInt8} :
    b.asWriter p = some bytes ↔ b.Waits (.write p bytes) := by
  unfold Box.asWriter Box.Waits
  rcases b.pipeWait with _ | (⟨q, n⟩ | ⟨q, bytes⟩) <;> simp

theorem asReader_isSome : (b.asReader p).isSome ↔ ∃ count, b.Waits (.read p count) := by
  simp only [Option.isSome_iff_exists, asReader_eq_some]

theorem asWriter_isSome : (b.asWriter p).isSome ↔ ∃ bytes, b.Waits (.write p bytes) := by
  simp only [Option.isSome_iff_exists, asWriter_eq_some]

theorem firstReader_some {count : ℕ} (h : firstReader s p = some (i, count)) :
    (s.boxes i).Waits (.read p count) :=
  asReader_eq_some.mp (firstMap_some h)

theorem firstReader_none (h : firstReader s p = none) (i : Slot) (count : ℕ) :
    ¬ (s.boxes i).Waits (.read p count) := by
  rw [← asReader_eq_some, firstMap_none h]
  simp

theorem firstWriter_some {bytes : List UInt8} (h : firstWriter s p = some (i, bytes)) :
    (s.boxes i).Waits (.write p bytes) :=
  asWriter_eq_some.mp (firstMap_some h)

theorem firstWriter_none (h : firstWriter s p = none) (i : Slot) (bytes : List UInt8) :
    ¬ (s.boxes i).Waits (.write p bytes) := by
  rw [← asWriter_eq_some, firstMap_none h]
  simp

theorem Awake.reader (h : Awake s) {count : ℕ} (hb : (s.boxes i).Waits (.read p count)) :
    (s.pipes p).data = [] ∧ (s.pipes p).writersOpen ≠ 0 :=
  readReady_false.mp (Bool.eq_false_iff.mpr (h i _ hb))

theorem Awake.writer (h : Awake s) {bytes : List UInt8} (hb : (s.boxes i).Waits (.write p bytes)) :
    (s.pipes p).readersOpen ≠ 0 ∧ bufSize ≤ (s.pipes p).data.length :=
  writeReady_false.mp (Bool.eq_false_iff.mpr (h i _ hb))

theorem Touches.awake_iff_parked (h : Touches p s s') (hs : Awake s) : Awake (iomuxCheck s').1 ↔
      (∀ i count, (s'.boxes i).Waits (.read p count) → lucasPipeReadReady (s'.pipes p) = false) ∧
        ∀ i bytes, (s'.boxes i).Waits (.write p bytes) →
          lucasPipeWriteReady (s'.pipes p) = false := by
  -- the checks leave the pipe waits of a sotbox as they are
  have hpipe : ∀ i, ((iomuxCheck s').1.boxes i).pipeWait = (s'.boxes i).pipeWait := fun i => by
    simp only [iomuxCheck_boxes, checked_pipeWait]
  constructor
  · intro hawake
    refine ⟨fun i count hi => ?_, fun i bytes hi => ?_⟩
    · exact Bool.eq_false_iff.mpr (hawake i (.read p count) ((hpipe i).trans hi))
    · exact Bool.eq_false_iff.mpr (hawake i (.write p bytes) ((hpipe i).trans hi))
  · rintro ⟨hreaders, hwriters⟩ i a ha
    rw [iomuxCheck_pipes]
    cases a with
    | mux call watches =>
      have hscan := (iomuxCheck_mux.mp ha).2
      rwa [scan_pos] at hscan
    | read q count =>
      have hi : (s'.boxes i).Waits (.read q count) := (hpipe i).symm.trans ha
      rw [h.due_iff hs hi]
      rintro ⟨rfl, hready⟩
      rw [hreaders i count hi] at hready
      cases hready
    | write q bytes =>
      have hi : (s'.boxes i).Waits (.write q bytes) := (hpipe i).symm.trans ha
      rw [h.due_iff hs hi]
      rintro ⟨rfl, hready⟩
      rw [hwriters i bytes hi] at hready
      cases hready

theorem Touches.awake_readers (h : Touches p s s') (hs : Awake s)
    (hwriters : ∀ i bytes, ¬ (s.boxes i).Waits (.write p bytes)) :
    Awake (iomuxCheck s').1 ↔ ∀ i count, (s'.boxes i).Waits (.read p count) →
      lucasPipeReadReady (s'.pipes p) = false :=
  (h.awake_iff_parked hs).trans (and_iff_left fun i bytes hb =>
    absurd (h.waits i _ hb) (hwriters i bytes))

theorem Touches.awake_writers (h : Touches p s s') (hs : Awake s)
    (hreaders : ∀ i count, (s.boxes i).Waits (.read p count) →
      lucasPipeReadReady (s'.pipes p) = false) :
    Awake (iomuxCheck s').1 ↔ ∀ i bytes, (s'.boxes i).Waits (.write p bytes) →
      lucasPipeWriteReady (s'.pipes p) = false :=
  (h.awake_iff_parked hs).trans (and_iff_right fun i count hb =>
    hreaders i count (h.waits i _ hb))

theorem touches_wakeReaders (s : State) (p : PipeId) :
    Touches p s (lucasPipeWakeReaders s p).1 := by
  unfold lucasPipeWakeReaders
  rcases firstReader s p with _ | found
  · exact ⟨fun _ _ => rfl, fun _ _ => id⟩
  dsimp only
  split
  · exact (touches_setPipe s p _).trans (touches_resume _ p _)
  · split
    · exact touches_resume s p _
    · exact ⟨fun _ _ => rfl, fun _ _ => id⟩

@[simp] theorem setPipe_self (s : State) (p : PipeId) (v : Pipe) : (s.setPipe p v).pipes p = v :=
  update_self _ _ _

@[simp] theorem setPipe_setPipe (s : State) (p : PipeId) (v w : Pipe) :
    (s.setPipe p v).setPipe p w = s.setPipe p w := by
  simp only [State.setPipe, update_idem]

@[simp] theorem setPipe_boxes : (s.setPipe p v).boxes = s.boxes := rfl

@[simp] theorem setBox_self : (s.setBox i b).boxes i = b := update_self _ _ _

theorem setBox_other (h : j ≠ i) : (s.setBox i b).boxes j = s.boxes j := update_of_ne h _ _

theorem wakeReaders_none (hf : firstReader s p = none) : (lucasPipeWakeReaders s p).1 = s := by
  rw [lucasPipeWakeReaders, hf]

theorem wakeReaders_data {count : ℕ} (hf : firstReader s p = some (i, count))
    (hd : (s.pipes p).data ≠ []) :
    (lucasPipeWakeReaders s p).1 = pipeResumeSotbox (s.setPipe p ((s.pipes p).drain count)) i := by
  rw [lucasPipeWakeReaders, hf]
  simp only [if_pos hd]

theorem wakeReaders_eof {count : ℕ} (hf : firstReader s p = some (i, count))
    (hd : (s.pipes p).data = []) (hw : (s.pipes p).writersOpen = 0) :
    (lucasPipeWakeReaders s p).1 = pipeResumeSotbox s i := by
  rw [lucasPipeWakeReaders, hf]
  simp [hd, hw]

theorem wakeWriters_none (hf : firstWriter s p = none) : (lucasPipeWakeWriters s p).1 = s := by
  rw [lucasPipeWakeWriters, hf]

theorem wakeWriters_epipe {bytes : List UInt8} (hf : firstWriter s p = some (i, bytes))
    (hr : (s.pipes p).readersOpen = 0) : (lucasPipeWakeWriters s p).1 = pipeResumeSotbox s i := by
  rw [lucasPipeWakeWriters, hf]
  simp only [if_pos hr]

theorem wakeWriters_fill {bytes : List UInt8} (hf : firstWriter s p = some (i, bytes))
    (hr : (s.pipes p).readersOpen ≠ 0) (hnone : ∀ j count, ¬ (s.boxes j).Waits (.read p count)) :
    (lucasPipeWakeWriters s p).1 = pipeResumeSotbox (s.setPipe p ((s.pipes p).fill bytes)) i := by
  have hreader : firstReader (pipeResumeSotbox (s.setPipe p ((s.pipes p).fill bytes)) i) p =
      none := by
    cases hr' : firstReader (pipeResumeSotbox (s.setPipe p ((s.pipes p).fill bytes)) i) p with
    | none => rfl
    | some found =>
      obtain ⟨j, count⟩ := found
      exact absurd ((touches_resume _ p i).waits j _ (firstReader_some hr')) (hnone j count)
  rw [lucasPipeWakeWriters, hf]
  simp only [if_neg hr]
  split
  · exact wakeReaders_none hreader
  · rfl

theorem resumed_iff {W : Box → Prop} (hrun : ¬W (s.boxes i).pipeResume) (hi : W (s.boxes i)) :
    (∀ j, W ((pipeResumeSotbox s i).boxes j) → P) ↔
      P ∨ ∀ j k, W (s.boxes j) → W (s.boxes k) → j = k := by
  constructor
  · intro hleft
    by_cases hP : P
    · exact .inl hP
    have honly : ∀ j, W (s.boxes j) → j = i := by
      intro j hj
      by_contra hji
      exact hP (hleft j (by rwa [resume_other hji]))
    exact .inr fun j k hj hk => (honly j hj).trans (honly k hk).symm
  · rintro (hP | hlone) j hj
    · exact hP
    · by_cases hji : j = i
      · subst hji
        rw [resume_self] at hj
        exact absurd hj hrun
      · rw [resume_other hji] at hj
        exact absurd (hlone j i hj hi) hji

theorem readers_left {count : ℕ} (hi : (s.boxes i).Waits (.read p count)) :
    (∀ j m, ((pipeResumeSotbox s i).boxes j).Waits (.read p m) → P) ↔ P ∨ LoneReader s p := by
  have hleft := resumed_iff (P := P) (s := s) (i := i) (W := fun b => (b.asReader p).isSome)
    (by simp [asReader_isSome, pipeResume_waits]) (asReader_isSome.mpr ⟨count, hi⟩)
  rw [LoneReader, ← hleft]
  simp only [asReader_isSome, forall_exists_index]

theorem writers_left {bytes : List UInt8} (hi : (s.boxes i).Waits (.write p bytes)) :
    (∀ j bs, ((pipeResumeSotbox s i).boxes j).Waits (.write p bs) → P) ↔ P ∨ LoneWriter s p := by
  have hleft := resumed_iff (P := P) (s := s) (i := i) (W := fun b => (b.asWriter p).isSome)
    (by simp [asWriter_isSome, pipeResume_waits]) (asWriter_isSome.mpr ⟨bytes, hi⟩)
  rw [LoneWriter, ← hleft]
  simp only [asWriter_isSome, forall_exists_index]

theorem written_awake_iff (hs : Awake s) {bytes : List UInt8} (hbytes : bytes ≠ [])
    (hroom : (s.pipes p).data.length < bufSize) :
    Awake (written s p bytes).1 ↔ WriteSuits s p bytes := by
  have hwriters : ∀ i bs, ¬ (s.boxes i).Waits (.write p bs) := fun i bs hi =>
    absurd (hs.writer hi).2 (Nat.not_le.mpr hroom)
  have htouch := (touches_setPipe s p ((s.pipes p).fill bytes)).trans
    (touches_wakeReaders (s.setPipe p ((s.pipes p).fill bytes)) p)
  refine (htouch.awake_readers hs hwriters).trans ?_
  cases hf : firstReader s p with
  | none =>
    have hnone : ∀ i count, ¬ (s.boxes i).Waits (.read p count) := firstReader_none hf
    have hwake := wakeReaders_none (s := s.setPipe p ((s.pipes p).fill bytes)) hf
    refine iff_of_true (fun i count hi => ?_) (.inl fun i count hsome => ?_)
    · rw [hwake] at hi
      exact absurd hi (hnone i count)
    · rw [hf] at hsome
      cases hsome
  | some found =>
    obtain ⟨i, count⟩ := found
    have hi := firstReader_some hf
    obtain ⟨hempty, hopen⟩ := hs.reader hi
    have hdata : ((s.pipes p).fill bytes).data = bytes.take bufSize := by
      simp [Pipe.fill, Pipe.accepted, hempty]
    have hne : ((s.setPipe p ((s.pipes p).fill bytes)).pipes p).data ≠ [] := by
      rw [setPipe_self, hdata]
      simp [bufSize, hbytes]
    have hf' : firstReader (s.setPipe p ((s.pipes p).fill bytes)) p = some (i, count) := hf
    rw [wakeReaders_data hf' hne, setPipe_self, setPipe_setPipe, resume_pipes, setPipe_self]
    have hready : lucasPipeReadReady (((s.pipes p).fill bytes).drain count) = false ↔
        min bytes.length bufSize ≤ count := by
      have hrest : ((bytes.take bufSize).drop count = []) ↔ min bytes.length bufSize ≤ count := by
        rw [drop_eq_nil_iff, length_take, min_comm]
      rw [readReady_false, ← hrest, ← hdata]
      exact and_iff_left hopen
    have hsuits : WriteSuits s p bytes ↔ min bytes.length bufSize ≤ count ∨ LoneReader s p := by
      simp [WriteSuits, hf]
    rw [hsuits, ← hready]
    exact readers_left (s := s.setPipe p (((s.pipes p).fill bytes).drain count)) hi

theorem awake_inUse {b : Bool} : Awake (s.setPipe p { s.pipes p with inUse := b }) ↔ Awake s := by
  have hsame : ∀ q, ∃ c, (s.setPipe p { s.pipes p with inUse := b }).pipes q =
      { s.pipes q with inUse := c } := by
    intro q
    by_cases hq : q = p
    · subst hq
      exact ⟨b, setPipe_self _ _ _⟩
    · exact ⟨(s.pipes q).inUse, update_of_ne hq _ _⟩
  refine forall₃_congr fun i a _ => not_congr ?_
  cases a with
  | read q count =>
    obtain ⟨c, hc⟩ := hsame q
    simp only [due, hc]
    rfl
  | write q bytes =>
    obtain ⟨c, hc⟩ := hsame q
    simp only [due, hc]
    rfl
  | mux call watches =>
    have hhits : ∀ w : Watch, w.hits call.kind
        ((s.setPipe p { s.pipes p with inUse := b }).pipes w.pipe) =
          w.hits call.kind (s.pipes w.pipe) := by
      intro w
      obtain ⟨c, hc⟩ := hsame w.pipe
      rw [hc]
      rfl
    simp only [due, hhits]

theorem lastWriter_awake_iff (hs : Awake s) (p : PipeId) : Awake (iomuxCheck (lucasPipeWakeReaders
      (s.setPipe p { s.pipes p with writersOpen := 0 }) p).1).1 ↔ LoneReader s p := by
  have htouch := (touches_setPipe s p { s.pipes p with writersOpen := 0 }).trans
    (touches_wakeReaders (s.setPipe p { s.pipes p with writersOpen := 0 }) p)
  cases hf : firstReader s p with
  | none =>
    have hnone : ∀ i count, ¬ (s.boxes i).Waits (.read p count) := firstReader_none hf
    have hlone : LoneReader s p := by
      intro i j hi
      obtain ⟨m, hm⟩ := Option.isSome_iff_exists.mp hi
      exact absurd (asReader_eq_some.mp hm) (hnone i m)
    refine iff_of_true ?_ hlone
    rw [wakeReaders_none (s := s.setPipe p { s.pipes p with writersOpen := 0 }) hf] at htouch ⊢
    rw [htouch.awake_writers hs fun i count hi => absurd hi (hnone i count)]
    intro i bytes hi
    have hnot := hs i _ hi
    rw [setPipe_self]
    simpa [due, lucasPipeWriteReady] using hnot
  | some found =>
    obtain ⟨i, count⟩ := found
    have hi := firstReader_some hf
    obtain ⟨hempty, -⟩ := hs.reader hi
    have hwriters : ∀ j bs, ¬ (s.boxes j).Waits (.write p bs) := by
      intro j bs hj
      have hfull := (hs.writer hj).2
      rw [hempty] at hfull
      exact absurd hfull (by decide)
    have hf' : firstReader (s.setPipe p { s.pipes p with writersOpen := 0 }) p =
        some (i, count) := hf
    rw [htouch.awake_readers hs hwriters]
    rw [wakeReaders_eof hf' (by rw [setPipe_self]; exact hempty) (by rw [setPipe_self])]
    have hready : (lucasPipeReadReady { s.pipes p with writersOpen := 0 } = false) ↔ False := by
      simp [lucasPipeReadReady]
    rw [resume_pipes, setPipe_self]
    refine (readers_left (s := s.setPipe p { s.pipes p with writersOpen := 0 }) hi).trans ?_
    rw [hready, false_or]
    rfl

theorem touches_wakeWriters (s : State) (p : PipeId) :
    Touches p s (lucasPipeWakeWriters s p).1 := by
  unfold lucasPipeWakeWriters
  rcases firstWriter s p with _ | found
  · exact ⟨fun _ _ => rfl, fun _ _ => id⟩
  have hfilled := (touches_setPipe s p ((s.pipes p).fill found.2)).trans
    (touches_resume _ p found.1)
  dsimp only
  split
  · exact touches_resume s p _
  · split
    · exact hfilled.trans (touches_wakeReaders _ p)
    · exact hfilled

theorem lastReader_awake_iff (hs : Awake s) (p : PipeId) : Awake (iomuxCheck (lucasPipeWakeWriters
      (s.setPipe p { s.pipes p with readersOpen := 0 }) p).1).1 ↔ LoneWriter s p := by
  have htouch := (touches_setPipe s p { s.pipes p with readersOpen := 0 }).trans
    (touches_wakeWriters (s.setPipe p { s.pipes p with readersOpen := 0 }) p)
  have hreaders : ∀ i count, (s.boxes i).Waits (.read p count) →
      lucasPipeReadReady { s.pipes p with readersOpen := 0 } = false := by
    intro i count hi
    obtain ⟨hempty, hopen⟩ := hs.reader hi
    simp [lucasPipeReadReady, hempty, hopen]
  cases hf : firstWriter s p with
  | none =>
    have hnone : ∀ i bytes, ¬ (s.boxes i).Waits (.write p bytes) := firstWriter_none hf
    have hlone : LoneWriter s p := by
      intro i j hi
      obtain ⟨m, hm⟩ := Option.isSome_iff_exists.mp hi
      exact absurd (asWriter_eq_some.mp hm) (hnone i m)
    have hwake : (lucasPipeWakeWriters (s.setPipe p { s.pipes p with readersOpen := 0 }) p).1 =
        s.setPipe p { s.pipes p with readersOpen := 0 } := wakeWriters_none hf
    refine iff_of_true ?_ hlone
    rw [hwake] at htouch ⊢
    rw [htouch.awake_readers hs hnone]
    intro i count hi
    rw [setPipe_self]
    exact hreaders i count hi
  | some found =>
    obtain ⟨i, bytes⟩ := found
    have hi := firstWriter_some hf
    have hwake : (lucasPipeWakeWriters (s.setPipe p { s.pipes p with readersOpen := 0 }) p).1 =
        pipeResumeSotbox (s.setPipe p { s.pipes p with readersOpen := 0 }) i :=
      wakeWriters_epipe hf (by rw [setPipe_self])
    rw [hwake] at htouch ⊢
    rw [htouch.awake_writers hs (by rw [resume_pipes, setPipe_self]; exact hreaders)]
    have hready : (lucasPipeWriteReady { s.pipes p with readersOpen := 0 } = false) ↔ False := by
      simp [lucasPipeWriteReady]
    rw [resume_pipes, setPipe_self]
    refine (writers_left (s := s.setPipe p { s.pipes p with readersOpen := 0 }) hi).trans ?_
    rw [hready, false_or]
    rfl

def refilled (s : State) (p : PipeId) (count : ℕ) : Pipe :=
  ((s.pipes p).drain count).fill (((firstWriter s p).map Prod.snd).getD [])

variable {count : ℕ}

theorem refilled_nil : (refilled s p count).data = [] ↔ leftAfter s p count = [] := by
  have hpos : 0 < bufSize := by decide
  simp only [refilled, leftAfter, Pipe.fill, Pipe.accepted, Pipe.drain, append_eq_nil_iff,
    take_eq_nil_iff]
  refine and_congr_right fun hrest => ?_
  rw [hrest, length_nil, Nat.sub_zero]
  exact or_iff_right hpos.ne'

theorem refilled_full :
    bufSize ≤ (refilled s p count).data.length ↔ bufSize ≤ (leftAfter s p count).length := by
  simp only [refilled, leftAfter, Pipe.fill, Pipe.accepted, Pipe.drain, length_append,
    length_take]
  omega

theorem toNat_pos {b : Bool} : 0 < b.toNat ↔ b = true := by
  cases b <;> simp

theorem hits_pos {kind : MuxKind} : 0 < w.hits kind v ↔
      (w.side = .readEnd ∧ lucasPipeReadReady v = true ∧ w.wantIn = true) ∨
      (w.side = .writeEnd ∧ lucasPipeWriteReady v = true ∧ w.wantOut = true) ∨
      (lucasPipeHup v = true ∧ (kind = .select → w.wantExc = true)) := by
  cases kind <;> simp [Watch.hits, toNat_pos, and_assoc, or_assoc]

theorem hits_refilled {kind : MuxKind} {v' : Pipe} (hzero : ¬ 0 < w.hits kind v)
    (hdata : v.data ≠ []) (hr : v'.readersOpen = v.readersOpen) :
    0 < w.hits kind v' ↔ (w.side = .writeEnd ∧ w.wantOut = true ∧ v'.data.length < bufSize) ∨
        (v'.data = [] ∧ v'.writersOpen = 0 ∧ (kind = .select → w.wantExc = true)) := by
  rw [hits_pos, not_or, not_or] at hzero
  obtain ⟨hin, hout, -⟩ := hzero
  have hreadable : lucasPipeReadReady v = true := by simp [lucasPipeReadReady, hdata]
  have hwritable : v.readersOpen = 0 → lucasPipeWriteReady v = true := by
    intro hnone
    simp [lucasPipeWriteReady, hnone]
  rw [hits_pos]
  constructor
  · rintro (⟨hside, -, hwant⟩ | ⟨hside, hready, hwant⟩ | ⟨hhup, hexc⟩)
    · exact absurd ⟨hside, hreadable, hwant⟩ hin
    · refine .inl ⟨hside, hwant, ?_⟩
      simp only [lucasPipeWriteReady, decide_eq_true_eq, hr] at hready
      exact hready.resolve_left fun hnone => hout ⟨hside, hwritable hnone, hwant⟩
    · simp only [lucasPipeHup, decide_eq_true_eq] at hhup
      exact .inr ⟨hhup.2, hhup.1, hexc⟩
  · rintro (⟨hside, hwant, hroom⟩ | ⟨hnil, hlast, hexc⟩)
    · exact .inr (.inl ⟨hside, by simp [lucasPipeWriteReady, hroom], hwant⟩)
    · exact .inr (.inr ⟨by simp [lucasPipeHup, hnil, hlast], hexc⟩)

theorem read_wakes (hs : Awake s) (count : ℕ) (hdata : (s.pipes p).data ≠ []) :
    let s' := (lucasPipeWakeWriters (s.setPipe p ((s.pipes p).drain count)) p).1
    s'.pipes p = refilled s p count ∧
      ∀ j, s'.boxes j =
        if (firstWriter s p).map Prod.fst = some j then (s.boxes j).pipeResume else s.boxes j := by
  have hreaders : ∀ j n, ¬ ((s.setPipe p ((s.pipes p).drain count)).boxes j).Waits (.read p n) :=
    fun j n hj => hdata (hs.reader hj).1
  cases hf : firstWriter s p with
  | none =>
    have hwake := wakeWriters_none (s := s.setPipe p ((s.pipes p).drain count)) hf
    dsimp only
    rw [hwake, setPipe_self, refilled, hf]
    refine ⟨?_, fun j => ?_⟩
    · simp [Pipe.fill, Pipe.accepted]
    · simp
  | some found =>
    obtain ⟨i, bytes⟩ := found
    have hopen := (hs.writer (firstWriter_some hf)).1
    have hwake := wakeWriters_fill (s := s.setPipe p ((s.pipes p).drain count)) hf
      (by rw [setPipe_self]; exact hopen) hreaders
    dsimp only
    rw [hwake, setPipe_self, setPipe_setPipe, resume_pipes, setPipe_self, refilled, hf]
    refine ⟨rfl, fun j => ?_⟩
    by_cases hj : j = i
    · subst hj
      simp [resume_self]
    · rw [resume_other hj, setPipe_boxes, if_neg (by simpa using Ne.symm hj)]

theorem dueAt_refilled (hs : Awake s) (hdata : (s.pipes p).data ≠ [])
    (ha : (s.boxes j).Waits a) :
    a.dueAt p (refilled s p count) ↔
      (a.wantsRoom p ∧ ¬ bufSize ≤ (leftAfter s p count).length) ∨
        (a.hearsHup p ∧ leftAfter s p count = [] ∧ (s.pipes p).writersOpen = 0) := by
  have hr : (refilled s p count).readersOpen = (s.pipes p).readersOpen := rfl
  rw [← refilled_full, ← refilled_nil, Nat.not_le]
  cases a with
  | read q n =>
    simp only [dueAt, wantsRoom, hearsHup, false_and, or_self, iff_false]
    rintro ⟨rfl, -⟩
    exact hdata (hs.reader ha).1
  | write q bytes =>
    simp only [dueAt, wantsRoom, hearsHup, false_and, or_false]
    refine and_congr_right fun hq => ?_
    subst hq
    simp [lucasPipeWriteReady, hr, (hs.writer ha).1]
  | mux call watches =>
    have hzero : ∀ w ∈ watches, ¬ 0 < w.hits call.kind (s.pipes w.pipe) := by
      intro w hwatch hhit
      exact hs j _ ha ⟨w, hwatch, hhit⟩
    simp only [dueAt, wantsRoom, hearsHup]
    constructor
    · rintro ⟨w, hwatch, rfl, hhit⟩
      rcases (hits_refilled (hzero w hwatch) hdata hr).mp hhit with
        ⟨hside, hout, hroom⟩ | ⟨hnil, hlast, hexc⟩
      · exact .inl ⟨⟨w, hwatch, rfl, hside, hout⟩, hroom⟩
      · exact .inr ⟨⟨w, hwatch, rfl, hexc⟩, hnil, hlast⟩
    · rintro (⟨⟨w, hwatch, rfl, hside, hout⟩, hroom⟩ | ⟨⟨w, hwatch, rfl, hexc⟩, hnil, hlast⟩)
      · exact ⟨w, hwatch, rfl,
          (hits_refilled (hzero w hwatch) hdata hr).mpr (.inl ⟨hside, hout, hroom⟩)⟩
      · exact ⟨w, hwatch, rfl,
          (hits_refilled (hzero w hwatch) hdata hr).mpr (.inr ⟨hnil, hlast, hexc⟩)⟩

theorem read_awake_iff (hs : Awake s) {count : ℕ} (hdata : (s.pipes p).data ≠ []) :
    Awake (lucasPipeWakeWriters (s.setPipe p ((s.pipes p).drain count)) p).1 ↔
      ReadSuits s p count := by
  obtain ⟨hpipe, hboxes⟩ := read_wakes hs count hdata
  have htouch := (touches_setPipe s p ((s.pipes p).drain count)).trans (touches_wakeWriters _ p)
  rw [htouch.awake_iff hs, hpipe]
  -- the writer that is resumed is all that goes
  have hstay : ∀ j a, ((lucasPipeWakeWriters (s.setPipe p ((s.pipes p).drain count)) p).1.boxes
      j).Waits a ↔ (s.boxes j).Waits a ∧
        ¬ ∃ bytes, a = .write p bytes ∧ firstWriter s p = some (j, bytes) := by
    intro j a
    rw [hboxes j]
    split_ifs with hfirst
    · obtain ⟨⟨i, bytes⟩, hf, rfl⟩ := Option.map_eq_some_iff.mp hfirst
      rw [pipeResume_waits, hf]
      refine and_congr_right fun ha => ?_
      have hi : (s.boxes i).pipeWait = some (.write p bytes) := firstWriter_some hf
      cases a with
      | read q n => simp [Box.Waits, hi] at ha
      | write q bs => simp_all [Box.Waits]
      | mux call watches => simp
    · refine (and_iff_left ?_).symm
      rintro ⟨bytes, -, hf⟩
      rw [hf] at hfirst
      exact hfirst rfl
  unfold ReadSuits
  simp only [hstay]
  constructor
  · intro hnone
    refine ⟨or_iff_not_imp_left.mpr fun hroom j a ha hwants => ?_, ?_⟩
    · by_contra hother
      exact hnone j a ⟨ha, hother⟩ ((dueAt_refilled hs hdata ha).mpr (.inl ⟨hwants, hroom⟩))
    · by_contra hend
      push Not at hend
      obtain ⟨hnil, hlast, j, a, ha, hhup⟩ := hend
      refine hnone j a ⟨ha, ?_⟩ ((dueAt_refilled hs hdata ha).mpr (.inr ⟨hhup, hnil, hlast⟩))
      rintro ⟨bytes, rfl, -⟩
      exact hhup
  · rintro ⟨hroom, hend⟩ j a ⟨ha, hother⟩ hdue
    rcases (dueAt_refilled hs hdata ha).mp hdue with ⟨hwants, hnot⟩ | ⟨hhup, hnil, hlast⟩
    · exact hother (hroom.resolve_left hnot j a ha hwants)
    · exact (hend.resolve_left (not_not_intro hnil)).resolve_left (not_not_intro hlast) j a ha hhup

theorem Awake.park (hs : Awake s)
    (hb : ∀ a, b.Waits a → (s.boxes i).Waits a ∨ ¬ a.due s.pipes) : Awake (s.setBox i b) := by
  intro j a ha
  by_cases hj : j = i
  · subst hj
    rw [setBox_self] at ha
    rcases hb a ha with hold | hnot
    · exact hs j a hold
    · exact hnot
  · rw [setBox_other hj] at ha
    exact hs j a ha

theorem Awake.setPipe (hs : Awake s)
    (hread : lucasPipeReadReady v = true → lucasPipeReadReady (s.pipes p) = true)
    (hwrite : lucasPipeWriteReady v = true → lucasPipeWriteReady (s.pipes p) = true)
    (hhup : lucasPipeHup v = true → lucasPipeHup (s.pipes p) = true) : Awake (s.setPipe p v) := by
  rw [(touches_setPipe s p v).awake_iff hs, setPipe_self]
  intro i a ha hdue
  apply hs i a ha
  cases a with
  | read q count =>
    obtain ⟨rfl, hready⟩ := hdue
    exact hread hready
  | write q bytes =>
    obtain ⟨rfl, hready⟩ := hdue
    exact hwrite hready
  | mux call watches =>
    obtain ⟨w, hw, rfl, hhit⟩ := hdue
    refine ⟨w, hw, hits_pos.mpr ?_⟩
    rcases hits_pos.mp hhit with ⟨hside, hready, hwant⟩ | ⟨hside, hready, hwant⟩ | ⟨hend, hexc⟩
    · exact .inl ⟨hside, hread hready, hwant⟩
    · exact .inr (.inl ⟨hside, hwrite hready, hwant⟩)
    · exact .inr (.inr ⟨hhup hend, hexc⟩)

theorem waitMany_awake (hs : Awake s) (i : Slot) (call : MuxCall) (watches : List Watch)
    (blocking capOk : Bool) : Awake (waitMany s i call watches blocking capOk).1 := by
  unfold waitMany
  dsimp only
  split
  · exact hs
  rename_i hscan
  split
  · exact hs
  split
  · exact hs
  · rw [gt_iff_lt, scan_pos] at hscan
    refine hs.park fun a ha => ?_
    cases a with
    | mux call' watches' =>
      obtain ⟨rfl, rfl⟩ := BoxState.waitingForMux.inj ha
      exact .inr hscan
    | read q n => exact .inl ha
    | write q bytes => exact .inl ha

theorem ifInUse_awake_iff (hs : Awake s) (h : Awake r.1 ↔ P) :
    Awake (ifInUse s p r).1 ↔ ((s.pipes p).inUse = true → P) := by
  unfold ifInUse
  split
  · rename_i huse
    rw [h]
    exact ⟨fun hP _ => hP, fun hP => hP huse⟩
  · rename_i huse
    exact iff_of_true hs fun hu => absurd hu huse

variable {capOk : Bool}

theorem lucasPipeRead_awake_iff (hs : Awake s) : Awake (lucasPipeRead s i p count capOk).1 ↔
      (count ≠ 0 → (s.pipes p).data ≠ [] → ReadSuits s p count) := by
  unfold lucasPipeRead
  dsimp only
  by_cases hcount : count = 0
  · rw [if_pos hcount]
    exact iff_of_true hs fun hne => absurd hcount hne
  rw [if_neg hcount]
  by_cases hdata : (s.pipes p).data ≠ []
  · rw [if_pos hdata]
    exact (read_awake_iff hs hdata).trans ⟨fun h _ _ => h, fun h => h hcount hdata⟩
  rw [if_neg hdata]
  refine iff_of_true ?_ fun _ hne => absurd hne hdata
  split
  · exact hs
  rename_i hopen
  split
  · exact hs
  have hnot : lucasPipeReadReady (s.pipes p) = false :=
    readReady_false.mpr ⟨not_not.mp hdata, hopen⟩
  exact hs.park fun a ha => .inr (by cases a <;> simp_all [PipeWait.park, Box.Waits, due])

theorem WriteSuits.of_full (hs : Awake s) (hfull : ¬ (s.pipes p).data.length < bufSize)
    (bytes : List UInt8) : WriteSuits s p bytes := by
  right
  intro i j hi
  obtain ⟨m, hm⟩ := Option.isSome_iff_exists.mp hi
  rw [(hs.reader (asReader_eq_some.mp hm)).1] at hfull
  exact absurd (by decide) hfull

variable {bytes : List UInt8}

theorem write_awake_iff (hs : Awake s) {full : State × Out}
    (hfull : (s.pipes p).readersOpen ≠ 0 → ¬ (s.pipes p).data.length < bufSize → Awake full.1) :
    Awake (if bytes = [] then (s, [(i, .count 0)])
      else if (s.pipes p).readersOpen = 0 then (s, [(i, .epipe)])
      else if (s.pipes p).data.length < bufSize then
        ((written s p bytes).1,
          (written s p bytes).2 ++ [(i, .count ((s.pipes p).accepted bytes).length)])
      else full).1 ↔ (bytes ≠ [] → (s.pipes p).readersOpen ≠ 0 → WriteSuits s p bytes) := by
  by_cases hbytes : bytes = []
  · rw [if_pos hbytes]
    exact iff_of_true hs fun hne => absurd hbytes hne
  rw [if_neg hbytes]
  by_cases hnone : (s.pipes p).readersOpen = 0
  · rw [if_pos hnone]
    exact iff_of_true hs fun _ hne => absurd hnone hne
  rw [if_neg hnone]
  by_cases hroom : (s.pipes p).data.length < bufSize
  · rw [if_pos hroom]
    exact (written_awake_iff hs hbytes hroom).trans ⟨fun h _ _ => h, fun h => h hbytes hnone⟩
  · rw [if_neg hroom]
    exact iff_of_true (hfull hnone hroom) fun _ _ => .of_full hs hroom bytes

theorem lucasPipeWrite_awake_iff (hs : Awake s) : Awake (lucasPipeWrite s i p bytes capOk).1 ↔
      (bytes ≠ [] → (s.pipes p).readersOpen ≠ 0 → WriteSuits s p bytes) := by
  refine write_awake_iff hs fun hnone hroom => ?_
  split
  · exact hs
  have hnot : lucasPipeWriteReady (s.pipes p) = false :=
    writeReady_false.mpr ⟨hnone, Nat.not_lt.mp hroom⟩
  exact hs.park fun a ha => .inr (by cases a <;> simp_all [PipeWait.park, Box.Waits, due])

theorem lucasPipeWriteKbuf_awake_iff (hs : Awake s) : Awake (lucasPipeWriteKbuf s i p bytes).1 ↔
      (bytes ≠ [] → (s.pipes p).readersOpen ≠ 0 → WriteSuits s p bytes) :=
  write_awake_iff hs fun _ _ => hs

theorem close_awake_iff (hs : Awake s) {n m : ℕ} {last more : State} {out : Out}
    (hlast : Awake last ↔ P) (hmore : 1 < n → Awake more) :
    Awake (if n = 0 then (s, []) else if n = 1 then
        (if m = 0 then last.setPipe p { last.pipes p with inUse := false } else last, out)
      else (more, [])).1 ↔ (n = 1 → P) := by
  by_cases hzero : n = 0
  · rw [if_pos hzero]
    exact iff_of_true hs fun hone => absurd (hzero.symm.trans hone) (by decide)
  rw [if_neg hzero]
  by_cases hone : n = 1
  · rw [if_pos hone]
    dsimp only
    split
    · rw [awake_inUse, hlast]
      exact ⟨fun h _ => h, fun h => h hone⟩
    · rw [hlast]
      exact ⟨fun h _ => h, fun h => h hone⟩
  · rw [if_neg hone]
    exact iff_of_true (hmore (by omega)) fun h => absurd h hone

theorem lucasPipeCloseReader_awake_iff (hs : Awake s) :
    Awake (lucasPipeCloseReader s p).1 ↔ ((s.pipes p).readersOpen = 1 → LoneWriter s p) := by
  refine close_awake_iff hs (lastReader_awake_iff hs p) fun hmore => hs.setPipe id ?_ id
  simp only [lucasPipeWriteReady, decide_eq_true_eq]
  omega

theorem lucasPipeCloseWriter_awake_iff (hs : Awake s) :
    Awake (lucasPipeCloseWriter s p).1 ↔ ((s.pipes p).writersOpen = 1 → LoneReader s p) := by
  refine close_awake_iff hs (lastWriter_awake_iff hs p) fun hmore => hs.setPipe ?_ id ?_
  · simp only [lucasPipeReadReady, decide_eq_true_eq]
    rintro (hdata | hzero)
    · exact .inl hdata
    · omega
  · simp only [lucasPipeHup, decide_eq_true_eq]
    omega

def Closed (s : State) : Prop := ∀ p, (s.pipes p).inUse = false → (s.pipes p).readersOpen = 0

def SameEnds (s s' : State) : Prop := ∀ q, (s'.pipes q).inUse = (s.pipes q).inUse ∧
    (s'.pipes q).readersOpen = (s.pipes q).readersOpen

theorem SameEnds.trans (h : SameEnds s s') (h' : SameEnds s' s'') :
    SameEnds s s'' := fun q => ⟨(h' q).1.trans (h q).1, (h' q).2.trans (h q).2⟩

theorem SameEnds.closed (h : SameEnds s s') (hs : Closed s) : Closed s' := by
  intro p hp
  rw [(h p).2]
  exact hs p ((h p).1 ▸ hp)

theorem sameEnds_setPipe (hu : v.inUse = (s.pipes p).inUse)
    (hr : v.readersOpen = (s.pipes p).readersOpen) : SameEnds s (s.setPipe p v) := by
  intro q
  by_cases hq : q = p
  · subst hq
    rw [setPipe_self]
    exact ⟨hu, hr⟩
  · rw [(touches_setPipe s p v).pipes q hq]
    exact ⟨rfl, rfl⟩

theorem sameEnds_wakeReaders : SameEnds s (lucasPipeWakeReaders s p).1 := by
  unfold lucasPipeWakeReaders
  rcases firstReader s p with _ | found
  · exact fun _ => ⟨rfl, rfl⟩
  dsimp only
  split
  · exact sameEnds_setPipe rfl rfl
  · split <;> exact fun _ => ⟨rfl, rfl⟩

theorem sameEnds_wakeWriters : SameEnds s (lucasPipeWakeWriters s p).1 := by
  unfold lucasPipeWakeWriters
  rcases firstWriter s p with _ | found
  · exact fun _ => ⟨rfl, rfl⟩
  have hfill : SameEnds s
      (pipeResumeSotbox (s.setPipe p ((s.pipes p).fill found.2)) found.1) :=
    sameEnds_setPipe rfl rfl
  dsimp only
  split
  · exact fun _ => ⟨rfl, rfl⟩
  · split
    · exact hfill.trans sameEnds_wakeReaders
    · exact hfill

theorem sameEnds_written : SameEnds s (written s p bytes).1 := by
  have hfill : SameEnds s (s.setPipe p ((s.pipes p).fill bytes)) := sameEnds_setPipe rfl rfl
  exact hfill.trans sameEnds_wakeReaders

theorem sameEnds_lucasPipeRead : SameEnds s (lucasPipeRead s i p count capOk).1 := by
  have hdrain : SameEnds s (s.setPipe p ((s.pipes p).drain count)) := sameEnds_setPipe rfl rfl
  unfold lucasPipeRead
  dsimp only
  split_ifs
  · exact fun _ => ⟨rfl, rfl⟩
  · exact hdrain.trans sameEnds_wakeWriters
  all_goals exact fun _ => ⟨rfl, rfl⟩

theorem sameEnds_lucasPipeWrite : SameEnds s (lucasPipeWrite s i p bytes capOk).1 := by
  unfold lucasPipeWrite
  dsimp only
  split_ifs
  · exact fun _ => ⟨rfl, rfl⟩
  · exact fun _ => ⟨rfl, rfl⟩
  · exact sameEnds_written
  all_goals exact fun _ => ⟨rfl, rfl⟩

theorem sameEnds_lucasPipeWriteKbuf : SameEnds s (lucasPipeWriteKbuf s i p bytes).1 := by
  unfold lucasPipeWriteKbuf
  dsimp only
  split_ifs
  · exact fun _ => ⟨rfl, rfl⟩
  · exact fun _ => ⟨rfl, rfl⟩
  · exact sameEnds_written
  · exact fun _ => ⟨rfl, rfl⟩

variable {blocking : Bool}

theorem sameEnds_waitMany : SameEnds s (waitMany s i call watches blocking capOk).1 := by
  unfold waitMany
  dsimp only
  split_ifs <;> exact fun _ => ⟨rfl, rfl⟩

theorem Closed.setPipe (hs : Closed s) (hv : v.inUse = false → v.readersOpen = 0) :
    Closed (s.setPipe p v) := by
  intro q hq
  by_cases hqp : q = p
  · subst hqp
    rw [setPipe_self] at hq ⊢
    exact hv hq
  · rw [(touches_setPipe s p v).pipes q hqp] at hq ⊢
    exact hs q hq

theorem Closed.ifInUse (hs : Closed s) (hr : (s.pipes p).inUse = true → Closed r.1) :
    Closed (Pipes.ifInUse s p r).1 := by
  unfold Pipes.ifInUse
  split
  · rename_i huse
    exact hr huse
  · exact hs

theorem lucasPipeCloseReader_closed (hs : Closed s) (huse : (s.pipes p).inUse = true) :
    Closed (lucasPipeCloseReader s p).1 := by
  have hset : ∀ n, Closed (s.setPipe p { s.pipes p with readersOpen := n }) := fun n =>
    hs.setPipe fun hno => absurd (huse.symm.trans hno) (by decide)
  unfold lucasPipeCloseReader
  dsimp only
  split_ifs
  · exact hs
  · refine (sameEnds_wakeWriters.closed (hset 0)).setPipe fun _ => ?_
    exact (sameEnds_wakeWriters p).2.trans (congrArg Pipe.readersOpen (setPipe_self _ _ _))
  · exact sameEnds_wakeWriters.closed (hset 0)
  · exact hset _

theorem lucasPipeCloseWriter_closed (hs : Closed s) (huse : (s.pipes p).inUse = true) :
    Closed (lucasPipeCloseWriter s p).1 := by
  have hset : ∀ n, Closed (s.setPipe p { s.pipes p with writersOpen := n }) := fun n =>
    hs.setPipe fun hno => absurd (huse.symm.trans hno) (by decide)
  unfold lucasPipeCloseWriter
  dsimp only
  split_ifs with hzero hone hlast
  · exact hs
  · exact (sameEnds_wakeReaders.closed (hset 0)).setPipe fun _ => hlast
  · exact sameEnds_wakeReaders.closed (hset 0)
  · exact hset _

theorem step_closed (s : State) (i : Input) (hs : Closed s) : Closed (step s i).1 := by
  cases i with
  | alloc =>
    change Closed (lucasPipeAlloc s)
    unfold lucasPipeAlloc
    split
    · exact hs
    · exact hs.setPipe nofun
  | read i p count capOk =>
    exact hs.ifInUse fun _ => sameEnds_lucasPipeRead.closed hs
  | write i p bytes capOk =>
    exact hs.ifInUse fun _ => sameEnds_lucasPipeWrite.closed hs
  | writeKbuf i p bytes =>
    exact hs.ifInUse fun _ => sameEnds_lucasPipeWriteKbuf.closed hs
  | closeReader p => exact hs.ifInUse (lucasPipeCloseReader_closed hs)
  | closeWriter p => exact hs.ifInUse (lucasPipeCloseWriter_closed hs)
  | addReader p =>
    refine hs.ifInUse fun huse => ?_
    exact hs.setPipe fun hno => absurd (huse.symm.trans hno) (by decide)
  | addWriter p =>
    refine hs.ifInUse fun huse => ?_
    exact hs.setPipe fun hno => absurd (huse.symm.trans hno) (by decide)
  | epollWait i maxevents watches blocking capOk =>
    change Closed (iomuxEpollWait s i maxevents watches blocking capOk).1
    unfold iomuxEpollWait
    split
    · exact sameEnds_waitMany.closed hs
    · exact hs
  | poll i watches blocking capOk =>
    exact sameEnds_waitMany.closed hs
  | select i watches blocking capOk =>
    exact sameEnds_waitMany.closed hs
  | leave i => exact hs

theorem lucasPipeAlloc_awake (hs : Awake s) (hc : Closed s) : Awake (lucasPipeAlloc s) := by
  unfold lucasPipeAlloc
  rcases hf : first fun p => !(s.pipes p).inUse with _ | p
  · exact hs
  have hfree : (s.pipes p).inUse = false := by simpa using first_some hf
  refine hs.setPipe nofun (fun _ => ?_) nofun
  simp [lucasPipeWriteReady, hc p hfree]

theorem step_awake_iff (hs : Awake s) (hc : Closed s) {i : Input} :
    Awake (step s i).1 ↔ Uncrowded s i := by
  cases i with
  | alloc => exact iff_of_true (lucasPipeAlloc_awake hs hc) trivial
  | read i p count capOk =>
    exact ifInUse_awake_iff hs (lucasPipeRead_awake_iff hs)
  | write i p bytes capOk =>
    exact ifInUse_awake_iff hs (lucasPipeWrite_awake_iff hs)
  | writeKbuf i p bytes =>
    exact ifInUse_awake_iff hs (lucasPipeWriteKbuf_awake_iff hs)
  | closeReader p => exact ifInUse_awake_iff hs (lucasPipeCloseReader_awake_iff hs)
  | closeWriter p => exact ifInUse_awake_iff hs (lucasPipeCloseWriter_awake_iff hs)
  | addReader p =>
    have hadd : Awake (lucasPipeAddReader s p, ([] : Out)).1 := by
      refine hs.setPipe id ?_ id
      simp only [lucasPipeWriteReady, decide_eq_true_eq]
      omega
    exact iff_of_true ((ifInUse_awake_iff hs (iff_true_intro hadd)).mpr fun _ => trivial) trivial
  | addWriter p =>
    have hadd : Awake (lucasPipeAddWriter s p, ([] : Out)).1 := by
      refine hs.setPipe ?_ id ?_
      · simp only [lucasPipeReadReady, decide_eq_true_eq]
        rintro (hdata | hzero)
        · exact .inl hdata
        · omega
      · simp [lucasPipeHup]
    exact iff_of_true ((ifInUse_awake_iff hs (iff_true_intro hadd)).mpr fun _ => trivial) trivial
  | epollWait i maxevents watches blocking capOk =>
    have hwait : Awake (iomuxEpollWait s i maxevents watches blocking capOk).1 := by
      unfold iomuxEpollWait
      split
      · exact waitMany_awake hs i _ watches blocking capOk
      · exact hs
    exact iff_of_true hwait trivial
  | poll i watches blocking capOk =>
    have hwait := waitMany_awake hs i .poll watches blocking capOk
    exact iff_of_true hwait trivial
  | select i watches blocking capOk =>
    have hwait := waitMany_awake hs i .select watches blocking capOk
    exact iff_of_true hwait trivial
  | leave i => exact iff_of_true (hs.park fun a ha => by cases a <;> cases ha) trivial

theorem start_awake : Awake State.start := fun _ a ha => by cases a <;> cases ha

theorem start_closed : Closed State.start := fun _ _ => rfl

def Box.muxWaits (b : Box) : List Wait :=
  match b.state with
  | .waitingForMux call watches => [.mux call watches]
  | _ => []

def Box.waits (b : Box) : List Wait :=
  match b.pipeWait with
  | some (.read p count) => .read p count :: b.muxWaits
  | some (.write p bytes) => .write p bytes :: b.muxWaits
  | none => b.muxWaits

def Input.overwrites (s : State) (out : Out) (j : Slot) : Input → List Wait
  -- A call that parks writes over these calls of its sotbox: a pipe wait over both fields, the
  -- others over the state.
  | .read i _ _ _ | .write i _ _ _ =>
    if i = j ∧ (i, .deferred) ∈ out then (s.boxes j).waits else []
  | .epollWait i _ _ _ _ | .poll i _ _ _ | .select i _ _ _ =>
    if i = j ∧ (i, .deferred) ∈ out then (s.boxes j).muxWaits else []
  | _ => []

structure Parked extends State where
  forgotten : Slot → List Wait

def Parked.start : Parked := ⟨State.start, fun _ => []⟩

def parkedStep (s : Parked) (input : Input) : Parked × Out :=
  let (t, out) := step s.toState input
  let forgotten := match input with
    | .leave i => update s.forgotten i []
    | _ => fun j => s.forgotten j ++ input.overwrites s.toState out j
  (⟨t, forgotten⟩, out)

def Parked.NoneLeft (s : Parked) : Prop :=
  Awake s.toState ∧ ∀ j, ∀ a ∈ s.forgotten j, ¬ a.due s.pipes

def Alone (e : Entry Parked Input Out) : Prop :=
  ∀ j, e.input.overwrites e.pre.toState e.reply j = []

instance (e : Entry Parked Input Out) : Decidable (Alone e) :=
  inferInstanceAs (Decidable (∀ j, e.input.overwrites e.pre.toState e.reply j = []))

theorem parkedStep_forgotten {s : Parked} (i : Input) (halone : Alone (entry parkedStep s i))
    (hs : ∀ j, s.forgotten j = []) (j : Slot) : (parkedStep s i).1.forgotten j = [] := by
  have hover := halone j
  cases i with
  | leave i =>
    change update s.forgotten i [] j = []
    by_cases hj : j = i
    · subst hj
      exact update_self _ _ _
    · rw [update_of_ne hj]
      exact hs j
  | _ => exact append_eq_nil_iff.mpr ⟨hs j, hover⟩

theorem noneLeft_iff {s : Parked} (hs : ∀ j, s.forgotten j = []) :
    s.NoneLeft ↔ Awake s.toState :=
  and_iff_left fun j a ha => by simp [hs j] at ha

/-- A thread parks in a read and another one in `epoll_wait`; a third one writes. -/
def siblingRun : List Input :=
  [.alloc, .read 0 0 4 true, .epollWait 0 1 [⟨0, .writeEnd, true, false, false⟩] true true,
    .write 0 0 [1, 2] true]

def twoReaders : List Input :=
  [.alloc, .addReader 0, .read 0 0 10 true, .read 1 0 10 true, .closeWriter 0]

end SotOs.Orch.Pipes
