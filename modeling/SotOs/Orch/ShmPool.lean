import SotOs.Lib.Simulation
import SotOs.Lib.Slots

/-! Shared pixel pools (`src/orch/shm_pool.c`): a pool is counted as referenced by its pool object
and by the buffers made from it, and is released when the count comes down to zero. -/

namespace SotOs.Orch.ShmPools

open Machine Slots Option Function Finset

abbrev PoolId := Fin 4

def bufWireMax : ℕ := 8

def maxFrames : ℕ := 1024

structure Pool where
  refcount : ℤ
  nframes : ℕ
  owner : UInt32
  ownerHasConn : Bool
  connFd : UInt64
  poolWireId : UInt32
  bufWireIds : Fin bufWireMax → UInt32

abbrev Pools := PoolId → Option Pool

/-- `framesOk` tells whether the frames and their copies could be had. -/
def poolAlloc (s : Pools) (size : ℕ) (owner : UInt32) (framesOk : Bool) : Pools :=
  let nframes := (size + 4095) / 4096
  if size = 0 ∨ maxFrames < nframes then s
  else match first fun i => (s i).isNone with
    | none => s
    | some i =>
      if framesOk then Function.update s i (some ⟨1, nframes, owner, false, 0, 0, fun _ => 0⟩)
      else s

def shmUnref (s : Pools) (i : PoolId) (p : Pool) : Pools :=
  let refcount := if 0 < p.refcount then p.refcount - 1 else p.refcount
  Function.update s i (if refcount ≤ 0 then none else some { p with refcount })

def poolAttach (s : Pools) (i : PoolId) (owner : UInt32) (connFd : UInt64) (wireId : UInt32) :
    Pools :=
  Function.update s i ((s i).map fun p =>
    { p with owner, connFd, ownerHasConn := true, poolWireId := wireId })

def Pool.names (p : Pool) (owner : UInt32) (connFd : UInt64) (obj : UInt32) : Bool :=
  p.ownerHasConn && p.owner == owner && p.connFd == connFd &&
    (p.poolWireId == obj || (first fun b => p.bufWireIds b == obj).isSome)

/-- The request `opcode` to the object `obj`; only the first pool that knows the object is asked. -/
def wireEvent (s : Pools) (owner : UInt32) (connFd : UInt64) (obj opcode newId : UInt32) : Pools :=
  if obj = 0 then s
  else match firstMap fun i => (s i).filter fun p => p.names owner connFd obj with
    | none => s
    | some (i, p) =>
      if p.poolWireId = obj then
        if opcode = 0 then match first fun b => p.bufWireIds b == 0 with
          | none => s
          | some b => Function.update s i (some { p with
              refcount := p.refcount + 1, bufWireIds := Function.update p.bufWireIds b newId })
        else if opcode = 1 then shmUnref s i { p with poolWireId := 0 }
        else s
      else match first fun b => p.bufWireIds b == obj with
        | none => s
        | some b =>
          if opcode = 0 then
            shmUnref s i { p with bufWireIds := Function.update p.bufWireIds b 0 }
          else s

inductive Input
  | alloc (size : ℕ) (owner : UInt32) (framesOk : Bool)
  | attach (i : PoolId) (owner : UInt32) (connFd : UInt64) (wireId : UInt32)
  | wire (owner : UInt32) (connFd : UInt64) (obj opcode newId : UInt32)

def step (s : Pools) : Input → Pools × Unit
  | .alloc size owner framesOk => (poolAlloc s size owner framesOk, ())
  | .attach i owner connFd wireId => (poolAttach s i owner connFd wireId, ())
  | .wire owner connFd obj opcode newId => (wireEvent s owner connFd obj opcode newId, ())

/-- A pool with what refers to it: nothing yet while it is `fresh`, then its pool objects and the
buffers made from it, those that are not destroyed. -/
structure Shared where
  owner : UInt32
  ownerHasConn : Bool
  connFd : UInt64
  fresh : Bool
  objs : Multiset UInt32
  bufs : Multiset UInt32

def Shared.inUse (a : Shared) : Prop := a.fresh = true ∨ a.objs ≠ 0 ∨ a.bufs ≠ 0

instance (a : Shared) : Decidable a.inUse := inferInstanceAs (Decidable (_ ∨ _ ∨ _))

def Shared.kept (a : Shared) : Option Shared := if a.inUse then some a else none

def Shared.names (a : Shared) (owner : UInt32) (connFd : UInt64) (obj : UInt32) : Bool :=
  a.ownerHasConn && a.owner == owner && a.connFd == connFd && (obj ∈ a.objs || obj ∈ a.bufs)

def Shared.asked (a : Shared) (obj opcode newId : UInt32) : Shared :=
  if obj ∈ a.objs then
    if opcode = 0 then { a with bufs := newId ::ₘ a.bufs }
    else if opcode = 1 then { a with objs := a.objs.erase obj }
    else a
  else if opcode = 0 then { a with bufs := a.bufs.erase obj }
  else a

abbrev SharedPools := PoolId → Option Shared

def target (t : SharedPools) (owner : UInt32) (connFd : UInt64) (obj : UInt32) :
    Option (PoolId × Shared) :=
  firstMap fun i => (t i).filter fun a => a.names owner connFd obj

def protocolStep (t : SharedPools) : Input → SharedPools × Unit
  | .alloc size owner framesOk =>
    if size = 0 ∨ maxFrames < (size + 4095) / 4096 ∨ framesOk = false then (t, ())
    else match first fun i => (t i).isNone with
      | none => (t, ())
      | some i => (Function.update t i (some ⟨owner, false, 0, true, 0, 0⟩), ())
  | .attach i owner connFd wireId =>
    (Function.update t i ((t i).map fun a =>
      { a with owner, connFd, ownerHasConn := true, fresh := false,
               objs := wireId ::ₘ a.objs }), ())
  | .wire owner connFd obj opcode newId =>
    match target t owner connFd obj with
    | none => (t, ())
    | some (i, a) => (Function.update t i (a.asked obj opcode newId).kept, ())

def inBounds (t : SharedPools) : Input → Bool
  -- Ids are not 0, a pool gets one pool object in its life, and no buffer is forgotten.
  | .alloc _ _ _ => true
  | .attach i _ _ wireId => wireId ≠ 0 && (t i).all (·.fresh)
  | .wire owner connFd obj opcode newId => (target t owner connFd obj).all fun (_, a) =>
      decide (obj ∈ a.objs → opcode = 0 → newId ≠ 0 ∧ a.bufs.card < bufWireMax)

def entry (id : UInt32) : Multiset UInt32 := if id = 0 then 0 else {id}

def remembered (ids : Fin bufWireMax → UInt32) : Multiset UInt32 := ∑ b, entry (ids b)

variable {ids : Fin bufWireMax → UInt32} {b : Fin bufWireMax} {id obj : UInt32} {p : Pool}
  {a : Shared} {s : Pools} {t : SharedPools} {i : PoolId}

theorem remembered_update (ids : Fin bufWireMax → UInt32) (b : Fin bufWireMax) (id : UInt32) :
    entry (ids b) + remembered (Function.update ids b id) = entry id + remembered ids := by
  have hrest : ∀ f : Fin bufWireMax → UInt32,
      remembered f = entry (f b) + ∑ c ∈ univ.erase b, entry (f c) := fun f =>
    (add_sum_erase _ _ (mem_univ b)).symm
  have hsame : ∑ c ∈ univ.erase b, entry (Function.update ids b id c) =
      ∑ c ∈ univ.erase b, entry (ids c) := by
    refine sum_congr rfl fun c hc => ?_
    rw [update_of_ne (ne_of_mem_erase hc)]
  rw [hrest (Function.update ids b id), hrest ids, hsame, update_self, add_left_comm]

theorem remembered_store (hfree : ids b = 0) (hid : id ≠ 0) :
    remembered (Function.update ids b id) = id ::ₘ remembered ids := by
  have hsum := remembered_update ids b id
  rwa [hfree, entry, if_pos rfl, zero_add, entry, if_neg hid, Multiset.singleton_add] at hsum

theorem remembered_drop (hb : ids b = id) (hid : id ≠ 0) :
    remembered (Function.update ids b 0) = (remembered ids).erase id := by
  have hsum := remembered_update ids b 0
  rw [hb, entry, if_neg hid, entry, if_pos rfl, zero_add, Multiset.singleton_add] at hsum
  rw [← hsum, Multiset.erase_cons_head]

theorem mem_entry {x : UInt32} : id ∈ entry x ↔ id ≠ 0 ∧ x = id := by
  unfold entry
  split_ifs with hx
  · simp only [Multiset.notMem_zero, false_iff, not_and, hx]
    exact fun h => h.symm
  · rw [Multiset.mem_singleton]
    exact ⟨fun h => ⟨h ▸ hx, h.symm⟩, fun h => h.2.symm⟩

theorem mem_remembered (hid : id ≠ 0) : id ∈ remembered ids ↔ ∃ b, ids b = id := by
  simp [remembered, Multiset.mem_sum, mem_entry, hid]

theorem zero_notMem_remembered : (0 : UInt32) ∉ remembered ids := by
  simp [remembered, Multiset.mem_sum, mem_entry]

theorem exists_free (h : (remembered ids).card < bufWireMax) : ∃ b, ids b = 0 := by
  by_contra hnone
  push Not at hnone
  have hcard : (remembered ids).card = ∑ b : Fin bufWireMax, 1 := by
    rw [remembered, Multiset.card_sum]
    refine sum_congr rfl fun b _ => ?_
    rw [entry, if_neg (hnone b), Multiset.card_singleton]
  rw [hcard] at h
  simp at h

theorem first_beq_isSome : (first fun b => ids b == id).isSome = true ↔ ∃ b, ids b = id := by
  constructor
  · intro h
    obtain ⟨b, hb⟩ := isSome_iff_exists.mp h
    exact ⟨b, by simpa using first_some hb⟩
  · rintro ⟨b, rfl⟩
    obtain ⟨c, hc⟩ := first_isSome (p := fun c => ids c == ids b) (j := b) (beq_self_eq_true _)
    rw [hc]
    rfl

structure Known (p : Pool) (a : Shared) : Prop where
  owner : p.owner = a.owner
  conn : p.connFd = a.connFd
  attached : p.ownerHasConn = a.ownerHasConn
  objs : entry p.poolWireId = a.objs
  none_yet : a.fresh = true → a.objs = 0
  bufs : remembered p.bufWireIds = a.bufs

structure Tracks (p : Pool) (a : Shared) : Prop extends Known p a where
  count : p.refcount = a.fresh.toNat + a.objs.card + a.bufs.card
  held : a.inUse

def Agrees (s : Pools) (t : SharedPools) : Prop := ∀ i, Option.Rel Tracks (s i) (t i)

theorem Agrees.update {x : Option Pool} {y : Option Shared} (h : Agrees s t) (i : PoolId)
    (hi : Option.Rel Tracks x y) : Agrees (Function.update s i x) (Function.update t i y) := by
  intro j
  by_cases hj : j = i
  · subst hj
    rwa [update_self, update_self]
  · rw [update_of_ne hj, update_of_ne hj]
    exact h j

theorem Agrees.cases (h : Agrees s t) (i : PoolId) :
    s i = none ∧ t i = none ∨ ∃ p a, s i = some p ∧ t i = some a ∧ Tracks p a := by
  have hi := h i
  generalize s i = x at hi ⊢
  generalize t i = y at hi ⊢
  cases hi with
  | none => exact .inl ⟨rfl, rfl⟩
  | some htracks => exact .inr ⟨_, _, rfl, rfl, htracks⟩

theorem Agrees.isNone (h : Agrees s t) (i : PoolId) : (s i).isNone = (t i).isNone := by
  rcases h.cases i with ⟨hs, ht⟩ | ⟨p, a, hs, ht, -⟩ <;> rw [hs, ht] <;> rfl

theorem Tracks.wire_iff (h : Tracks p a) (hobj : obj ≠ 0) :
    p.poolWireId = obj ↔ obj ∈ a.objs := by
  rw [← h.objs, mem_entry, and_iff_right hobj]

theorem Tracks.names (h : Tracks p a) (hobj : obj ≠ 0) (owner : UInt32) (connFd : UInt64) :
    p.names owner connFd obj = a.names owner connFd obj := by
  have hbufs : (first fun b => p.bufWireIds b == obj).isSome = decide (obj ∈ a.bufs) := by
    rw [Bool.eq_iff_iff, first_beq_isSome, decide_eq_true_iff, ← h.bufs, mem_remembered hobj]
  have hwire : (p.poolWireId == obj) = decide (obj ∈ a.objs) := by
    rw [Bool.eq_iff_iff, beq_iff_eq, decide_eq_true_iff]
    exact h.wire_iff hobj
  rw [Pool.names, Shared.names, h.owner, h.conn, h.attached, hwire, hbufs]

theorem Agrees.target_zero (h : Agrees s t) {owner : UInt32} {connFd : UInt64} :
    ShmPools.target t owner connFd 0 = none := by
  rw [ShmPools.target, firstMap, first_eq_none]
  · rfl
  intro i
  rcases h.cases i with ⟨-, ht⟩ | ⟨p, a, -, ht, htracks⟩
  · rw [ht]
    rfl
  have hobjs : (0 : UInt32) ∉ a.objs := by simp [← htracks.objs, mem_entry]
  have hbufs : (0 : UInt32) ∉ a.bufs := by
    rw [← htracks.bufs]
    exact zero_notMem_remembered
  simp [ht, Shared.names, hobjs, hbufs]

theorem Agrees.target (h : Agrees s t) (hobj : obj ≠ 0) (owner : UInt32) (connFd : UInt64) :
    (firstMap fun i => (s i).filter fun p => p.names owner connFd obj) = none ∧
        ShmPools.target t owner connFd obj = none ∨
      ∃ i p a, (firstMap fun i => (s i).filter fun p => p.names owner connFd obj) = some (i, p) ∧
        ShmPools.target t owner connFd obj = some (i, a) ∧ s i = some p ∧ t i = some a ∧
        Tracks p a ∧ a.names owner connFd obj = true := by
  have hsame : ∀ i, ((s i).filter fun p => p.names owner connFd obj).isSome =
      ((t i).filter fun a => a.names owner connFd obj).isSome := by
    intro i
    rcases h.cases i with ⟨hs, ht⟩ | ⟨p, a, hs, ht, htracks⟩
    · rw [hs, ht]
      rfl
    · rw [hs, ht, filter_some, filter_some, htracks.names hobj]
      split_ifs <;> rfl
  unfold ShmPools.target firstMap
  rw [first_congr hsame]
  cases hf : first fun i => ((t i).filter fun a => a.names owner connFd obj).isSome with
  | none => exact .inl ⟨rfl, rfl⟩
  | some i =>
    obtain ⟨a, ha⟩ := isSome_iff_exists.mp (first_some hf)
    obtain ⟨hta, hnames⟩ := filter_eq_some_iff.mp ha
    rcases h.cases i with ⟨-, ht⟩ | ⟨p, a', hp, ht, htracks⟩
    · rw [ht] at hta
      cases hta
    obtain rfl := some.inj (ht.symm.trans hta)
    refine .inr ⟨i, p, a', ?_, ?_, hp, ht, htracks, hnames⟩
    · simp [hp, htracks.names hobj, hnames]
    · simp [ht, hnames]

theorem Agrees.unref (h : Agrees s t) (hknown : Known p a)
    (hcount : p.refcount = a.fresh.toNat + a.objs.card + a.bufs.card + 1) :
    Agrees (shmUnref s i p) (Function.update t i a.kept) := by
  have hpos : 0 < p.refcount := by omega
  rw [shmUnref, if_pos hpos]
  apply h.update
  have hzero : p.refcount - 1 ≤ 0 ↔ ¬a.inUse := by
    rw [hcount, Shared.inUse, not_or, not_or, not_not, not_not, ← Multiset.card_eq_zero,
      ← Multiset.card_eq_zero, ← Bool.toNat_eq_one]
    have := a.fresh.toNat_le
    omega
  unfold Shared.kept
  by_cases hgone : p.refcount - 1 ≤ 0
  · rw [if_pos hgone, if_neg (hzero.mp hgone)]
    exact .none
  · have hheld := not_not.mp (mt hzero.mpr hgone)
    rw [if_neg hgone, if_pos hheld]
    exact .some ⟨{ hknown with }, by simp only; omega, hheld⟩

theorem Agrees.wireEvent (h : Agrees s t) (owner : UInt32) (connFd : UInt64)
    {opcode newId : UInt32} (hok : inBounds t (.wire owner connFd obj opcode newId) = true) :
    Agrees (ShmPools.wireEvent s owner connFd obj opcode newId)
      (protocolStep t (.wire owner connFd obj opcode newId)).1 := by
  unfold ShmPools.wireEvent
  simp only [protocolStep]
  by_cases hobj : obj = 0
  · subst hobj
    rw [if_pos rfl, h.target_zero]
    exact h
  rw [if_neg hobj]
  rcases h.target hobj owner connFd with ⟨hs, ht⟩ | ⟨i, p, a, hs, ht, hp, ha, htracks, hnames⟩
  · rw [hs, ht]
    exact h
  have hstay : Agrees s (Function.update t i a.kept) := by
    rw [Shared.kept, if_pos htracks.held, ← ha, update_eq_self]
    exact h
  have hcount := htracks.count
  simp only [hs, ht]
  by_cases hwire : obj ∈ a.objs
  · have hone : a.objs = {obj} := by
      rw [← htracks.objs, entry, (htracks.wire_iff hobj).mpr hwire, if_neg hobj]
    have hused : ∀ bufs, { a with bufs }.inUse := fun _ => by simp [Shared.inUse, hone]
    rw [if_pos ((htracks.wire_iff hobj).mpr hwire), Shared.asked, if_pos hwire]
    by_cases hcreate : opcode = 0
    · simp only [inBounds, ht, all_some, decide_eq_true_eq] at hok
      obtain ⟨hid, hroom⟩ := hok hwire hcreate
      rw [← htracks.bufs] at hroom
      obtain ⟨b, hb⟩ := isSome_iff_exists.mp (first_beq_isSome.mpr (exists_free hroom))
      have hfree : p.bufWireIds b = 0 := by simpa using first_some hb
      rw [if_pos hcreate, if_pos hcreate, hb, Shared.kept, if_pos (hused _)]
      refine h.update i (.some ⟨{ htracks with bufs := ?_ }, ?_, hused _⟩)
      · rw [remembered_store hfree hid, htracks.bufs]
      · simp only [Multiset.card_cons]
        omega
    · rw [if_neg hcreate, if_neg hcreate]
      split_ifs with hdestroy
      · rw [hone] at hcount ⊢
        refine h.unref { htracks with objs := ?_, none_yet := ?_ } ?_
        · simp [entry]
        · simp
        · simp only [Multiset.card_singleton, Multiset.erase_singleton,
            Multiset.card_zero] at hcount ⊢
          omega
      · exact hstay
  · have hmem : obj ∈ a.bufs := by
      simp only [Shared.names, Bool.and_eq_true, Bool.or_eq_true, beq_iff_eq, hwire, false_or,
        decide_eq_true_eq] at hnames
      exact hnames.2
    have hslot := hmem
    rw [← htracks.bufs, mem_remembered hobj] at hslot
    obtain ⟨b, hb⟩ := isSome_iff_exists.mp (first_beq_isSome.mpr hslot)
    have hfound : p.bufWireIds b = obj := by simpa using first_some hb
    rw [if_neg (mt (htracks.wire_iff hobj).mp hwire), hb, Shared.asked, if_neg hwire]
    simp only
    split_ifs with hdestroy
    · refine h.unref { htracks with bufs := ?_ } ?_
      · rw [remembered_drop hfound hobj, htracks.bufs]
      · have hcard := Multiset.card_erase_add_one hmem
        simp only
        omega
    · exact hstay

theorem step_agrees (h : Agrees s t) {input : Input} (hok : inBounds t input = true) :
    Agrees (step s input).1 (protocolStep t input).1 := by
  cases input with
  | alloc size owner framesOk =>
    simp only [step, poolAlloc, protocolStep, first_congr h.isNone]
    cases hfirst : first fun i => (t i).isNone with
    | none => split_ifs <;> exact h
    | some i =>
      cases framesOk with
      | false => simpa using h
      | true =>
        simp only [Bool.true_eq_false, or_false, if_true]
        split_ifs
        · exact h
        · refine h.update i (.some ⟨⟨rfl, rfl, rfl, rfl, fun _ => rfl, ?_⟩, rfl, .inl rfl⟩)
          exact sum_const_zero
  | attach i owner connFd wireId =>
    refine h.update i ?_
    rcases h.cases i with ⟨hs, ht⟩ | ⟨p, a, hs, ht, htracks⟩
    · rw [hs, ht]
      exact .none
    simp only [inBounds, ht, all_some, Bool.and_eq_true, decide_eq_true_eq] at hok
    have hnone := htracks.none_yet hok.2
    have hcount := htracks.count
    rw [hok.2, hnone] at hcount
    rw [hs, ht]
    refine .some ⟨⟨rfl, rfl, rfl, ?_, nofun, htracks.bufs⟩, ?_, .inr (.inl ?_)⟩
    · change entry wireId = wireId ::ₘ a.objs
      rw [hnone, entry, if_neg hok.1, Multiset.cons_zero]
    · simpa [hnone] using hcount
    · simp
  | wire owner connFd obj opcode newId => exact h.wireEvent owner connFd hok

def noPools : Pools := fun _ => none

def noShared : SharedPools := fun _ => none

/-- A pool is in use exactly as long as it waits for its pool object, or a pool object or a buffer
of it is not destroyed. -/
theorem released_with_last_object (inputs : List Input)
    (hok : ∀ e ∈ trace protocolStep noShared inputs, inBounds e.pre e.input = true) (i : PoolId) :
    let t := exec protocolStep noShared inputs
    ((exec step noPools inputs i).isSome ↔ ∃ a, t i = some a) ∧
      ∀ a, t i = some a → a.fresh = true ∨ a.objs ≠ 0 ∨ a.bufs ≠ 0 := by
  have hrun := (simulation step protocolStep (R := Agrees) (f := id) (g := id)
    (Q := fun _ => True) (P := fun e => inBounds e.pre e.input = true)
    (fun s t input h _ hok => ⟨step_agrees h hok, rfl⟩) (s := noPools) (t := noShared)
    (fun _ => .none) inputs (fun _ _ => trivial) (by simpa using hok)).1
  rw [List.map_id] at hrun
  rcases hrun.cases i with ⟨hs, ht⟩ | ⟨p, a, hs, ht, htracks⟩
  · simp [hs, ht]
  · simpa [hs, ht, Shared.inUse] using htracks.held

def tidyRun : List Input :=
  [.alloc 4096 7 true, .attach 0 7 3 1, .wire 7 3 1 0 2, .wire 7 3 1 0 3, .wire 7 3 1 1 0,
    .wire 7 3 2 0 0, .wire 7 3 3 0 0]

theorem released_with_last_object_tidy : ((exec step noPools tidyRun 0).isSome ↔
        ∃ a, exec protocolStep noShared tidyRun 0 = some a) ∧
      exec protocolStep noShared tidyRun 0 = none :=
  ⟨(released_with_last_object tidyRun (by decide +kernel) 0).1, by
    have hnone : (exec protocolStep noShared tidyRun 0).isNone := by decide +kernel
    exact isNone_iff_eq_none.mp hnone⟩

def ninthBuffer : List Input :=
  [.alloc 4096 7 true, .attach 0 7 3 1] ++
    (List.range 9).map (fun k => .wire 7 3 1 0 (2 + k.toUInt32)) ++ [.wire 7 3 1 1 0] ++
    (List.range 8).map fun k => .wire 7 3 (2 + k.toUInt32) 0 0

theorem released_under_buffer : (exec step noPools ninthBuffer 0).isSome = false ∧
      (exec protocolStep noShared ninthBuffer 0).map (·.bufs) = some {10} := by
  decide +kernel

end SotOs.Orch.ShmPools
