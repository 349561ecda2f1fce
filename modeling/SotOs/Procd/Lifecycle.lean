import SotOs.Lib.Machine
import SotOs.Procd.Effect

/-! The life of a process over whole request sequences: its slot moves forward only, it exits once,
it is waited for once and with the code of that exit, and its parent was alive when it was created.
-/

namespace SotOs.Procd

open Machine Function

abbrev Exchange := Entry Server Request (List Event × Reply)

def Exchange.post (e : Exchange) : Server := (dispatch e.pre e.input).1

def lifeOrder : List ProcState := [.free, .nascent, .running, .zombie, .dead]

def Forward (a b : ProcState) : Prop :=
  a ∈ lifeOrder ∧ b ∈ lifeOrder ∧ lifeOrder.idxOf a ≤ lifeOrder.idxOf b

instance (a b : ProcState) : Decidable (Forward a b) := inferInstanceAs (Decidable (_ ∧ _ ∧ _))

def ProcState.live (st : ProcState) : Prop := st = .nascent ∨ st = .running ∨ st = .stopped

instance (st : ProcState) : Decidable st.live := inferInstanceAs (Decidable (_ ∨ _ ∨ _))

def codesOf (i : Slot) (told : List (UInt32 × UInt32)) : List UInt32 :=
  (told.filter fun t => t.1 = slotNumber i).map fun t => t.2

def exits (i : Slot) (tr : List Exchange) : List UInt32 :=
  codesOf i (tr.flatMap fun e => exitsIn e.reply.1)

def waits (i : Slot) (tr : List Exchange) : List UInt32 :=
  codesOf i (tr.filterMap fun e => handedOut e.input e.reply.2)

def Creates (e : Exchange) (i : Slot) : Prop :=
  (e.pre.procs i).state = .free ∧ (e.post.procs i).state ≠ .free

structure ParentLive (e : Exchange) (i : Slot) : Prop where
  caller : ∀ caller, forkCaller e.input = some caller →
    ∃ c, procdTableGet caller = some c ∧ (e.pre.procs c).state.live
  parent : ∀ j, procdTableGet (e.post.procs i).ppid = some j → j ≠ 0 → (e.pre.procs j).state.live

structure Orderly (tr : List Exchange) : Prop where
  forward : ∀ e ∈ tr, ∀ i, Forward (e.pre.procs i).state (e.post.procs i).state
  exits_once : ∀ i, (exits i tr).length ≤ 1
  waits_once : ∀ i, (waits i tr).IsPrefix (exits i tr)
  parents : ∀ e ∈ tr, ∀ i, Creates e i → ParentLive e i

def Names (slot : UInt32) (P : Slot → Prop) : Prop :=
  match procdTableGet slot with
  | none => True
  | some i => P i

instance (slot : UInt32) (P : Slot → Prop) [DecidablePred P] : Decidable (Names slot P) := by
  unfold Names
  split <;> infer_instance

variable {i j : Slot} {st : ProcState} {req : Request} {p child : Proc} {evs : List Event}
  {r : Reply} {caller : UInt32} {s' : Server}

theorem Names.get {slot : UInt32} {P : Slot → Prop} (h : Names slot P)
    (hi : procdTableGet slot = some i) : P i := by
  rwa [Names, hi] at h

def LiveParent (s : Server) (slot : UInt32) : Prop :=
  Names slot fun j => j ≠ 0 → (s.procs j).state.live

instance (s : Server) (slot : UInt32) : Decidable (LiveParent s slot) :=
  inferInstanceAs (Decidable (Names _ _))

/-- No exit and no exec of a zombie, and no process created, while there is room, for a caller or a
parent that is gone. -/
def Timely (e : Exchange) : Prop :=
  match e.input with
  | .exit caller _ => Names caller fun i => (e.pre.procs i).state ≠ .zombie
  | .exec caller => Names caller fun i => (e.pre.procs i).state ≠ .zombie
  | .spawn caller _ _ _ => freeSlot e.pre ≠ none → LiveParent e.pre caller
  | .fork caller => freeSlot e.pre ≠ none →
      Names caller fun i => (e.pre.procs i).tier ≤ procTier2 → (e.pre.procs i).state.live
  | .clone caller flags _ _ => freeSlot e.pre ≠ none →
      flags &&& cloneUnsupported = 0 → flags &&& lxCloneThread = 0 →
        ∀ i ∈ callerSlot e.pre caller, (e.pre.procs i).state ≠ .zombie ∧
          (flags &&& lxCloneParent ≠ 0 → LiveParent e.pre (e.pre.procs i).ppid)
  | _ => True

instance (e : Exchange) : Decidable (Timely e) := by
  unfold Timely
  split <;> infer_instance

structure Numbered (s : Server) : Prop where
  reserved : (s.procs 0).state = .dead
  given : ∀ i, i ≠ 0 → ((s.procs i).state = .free ↔ s.nextPid.toNat ≤ i.val)
  slot : ∀ i, i ≠ 0 → (s.procs i).state ≠ .free → (s.procs i).slot = slotNumber i
  pid : ∀ i, i ≠ 0 → (s.procs i).state ≠ .free → (s.procs i).syntheticPid = slotNumber i
  bounds : 1 ≤ s.nextPid.toNat ∧ s.nextPid.toNat ≤ procdMaxProcs

theorem numbered_init : Numbered procdTableInit where
  reserved := by decide
  given := by decide +kernel
  slot := by decide +kernel
  pid := by decide +kernel
  bounds := by decide

theorem Numbered.freeSlot_val {s : Server} (h : Numbered s) (hi : freeSlot s = some i) :
    i.val = s.nextPid.toNat := by
  obtain ⟨hne, hfree⟩ := freeSlot_some hi
  have hle := (h.given i hne).mp hfree
  have hi' := i.isLt
  by_contra hval
  -- otherwise the slot numbered by the pid is free and comes before
  have hlt : s.nextPid.toNat < i.val := by omega
  have hnz : (⟨s.nextPid.toNat, by omega⟩ : Slot) ≠ 0 := by
    intro h0
    have hv := congrArg Fin.val h0
    have := h.bounds.1
    simp at hv
    omega
  have hbefore := Slots.first_min hi (j := ⟨s.nextPid.toNat, by omega⟩) hlt
  exact of_decide_eq_false hbefore ⟨hnz, (h.given _ hnz).mpr le_rfl⟩

def Told (st : ProcState) (code : UInt32) (exits waits : List UInt32) : Prop :=
  match st with
  | .free | .nascent | .running => exits = [] ∧ waits = []
  | .stopped => False
  | .zombie => exits = [code] ∧ waits = []
  | .dead => waits = exits ∧ exits.length ≤ 1

theorem Told.once {code : UInt32} {exits waits : List UInt32} (h : Told st code exits waits) :
    exits.length ≤ 1 ∧ waits.IsPrefix exits := by
  cases st <;> simp only [Told] at h
  case dead => exact ⟨h.2, by rw [h.1]⟩
  all_goals simp [h.1, h.2]

theorem Told.ordered {code : UInt32} {exits waits : List UInt32} (h : Told st code exits waits) :
    st ∈ lifeOrder := by
  cases st <;> first | decide | exact h.elim

theorem forward_refl (h : st ∈ lifeOrder) : Forward st st := ⟨h, h, le_rfl⟩

theorem forward_of_live (h : st.live) (hns : st ≠ .stopped) :
    Forward st .running ∧ Forward st .zombie := by
  revert h hns
  cases st <;> decide

theorem zombie_to_dead : Forward .zombie .dead := by decide

structure LifeInv (tr : List Exchange) (s : Server) : Prop where
  numbered : Numbered s
  told : ∀ i, Told (s.procs i).state (s.procs i).exitCode.toUInt32 (exits i tr) (waits i tr)

theorem lifeInv_init : LifeInv [] procdTableInit := by
  refine ⟨numbered_init, fun i => ?_⟩
  by_cases hi : i = 0
  · subst hi
    exact ⟨rfl, Nat.zero_le 1⟩
  · have hstate : (procdTableInit.procs i).state = .free := by
      simp [procdTableInit, hi, Proc.blank]
    rw [hstate]
    exact ⟨rfl, rfl⟩

structure LifeStep (tr : List Exchange) (s : Server) (req : Request) (out : Outcome) : Prop where
  numbered : Numbered out.1
  told : ∀ i, Told (out.1.procs i).state (out.1.procs i).exitCode.toUInt32
    (exits i tr ++ codesOf i (exitsIn out.2.1))
    (waits i tr ++ codesOf i (handedOut req out.2.2).toList)
  forward : ∀ i, Forward (s.procs i).state (out.1.procs i).state
  caller : ∀ i, (s.procs i).state = .free → (out.1.procs i).state ≠ .free →
    ∀ caller, forkCaller req = some caller →
      ∃ c, procdTableGet caller = some c ∧ (s.procs c).state.live
  parent : ∀ i, (s.procs i).state = .free → (out.1.procs i).state ≠ .free →
    ∀ j, procdTableGet (out.1.procs i).ppid = some j → j ≠ 0 → (s.procs j).state.live

section
variable {tr : List Exchange} {s : Server}

theorem LifeInv.forward_same (h : LifeInv tr s) : Forward (s.procs i).state (s.procs i).state :=
  forward_refl (h.told i).ordered

theorem LifeInv.aside (h : LifeInv tr s) {out : Outcome}
    (hprocs : ∀ j, Aside (s.procs j) (out.1.procs j)) (hnext : out.1.nextPid = s.nextPid)
    (hq : exitsIn out.2.1 = []) (hk : handedOut req out.2.2 = none) :
    LifeStep tr s req out where
  numbered := by
    refine ⟨?_, fun i hi => ?_, fun i hi hne => ?_, fun i hi hne => ?_, ?_⟩
    · rw [(hprocs 0).state]
      exact h.numbered.reserved
    · rw [(hprocs i).state, hnext]
      exact h.numbered.given i hi
    · rw [(hprocs i).state] at hne
      rw [(hprocs i).slot]
      exact h.numbered.slot i hi hne
    · rw [(hprocs i).state] at hne
      rw [(hprocs i).pid]
      exact h.numbered.pid i hi hne
    · rw [hnext]
      exact h.numbered.bounds
  told := by
    intro i
    rw [(hprocs i).state, (hprocs i).exitCode, hq, hk]
    simpa [codesOf] using h.told i
  forward := by
    intro i
    rw [(hprocs i).state]
    exact h.forward_same
  caller := by
    intro i hfree hne
    rw [(hprocs i).state] at hne
    exact absurd hfree hne
  parent := by
    intro i hfree hne
    rw [(hprocs i).state] at hne
    exact absurd hfree hne

theorem Numbered.setProc (h : Numbered s) (hi : i ≠ 0) (hthere : (s.procs i).state ≠ .free)
    (hslot : p.slot = (s.procs i).slot) (hpid : p.syntheticPid = (s.procs i).syntheticPid)
    (hstate : p.state ≠ .free) : Numbered (s.setProc i p) := by
  refine ⟨?_, fun j hj => ?_, fun j hj hne => ?_, fun j hj hne => ?_, h.bounds⟩
  · rw [setProc_ne (Ne.symm hi)]
    exact h.reserved
  · by_cases hji : j = i
    · subst hji
      rw [setProc_self, iff_false_left hstate]
      exact fun hle => hthere ((h.given j hj).mpr hle)
    · rw [setProc_ne hji]
      exact h.given j hj
  · by_cases hji : j = i
    · subst hji
      rw [setProc_self, hslot]
      exact h.slot j hj hthere
    · rw [setProc_ne hji] at hne ⊢
      exact h.slot j hj hne
  · by_cases hji : j = i
    · subst hji
      rw [setProc_self, hpid]
      exact h.pid j hj hthere
    · rw [setProc_ne hji] at hne ⊢
      exact h.pid j hj hne

theorem codesOf_single_self {c : UInt32} : codesOf i [(slotNumber i, c)] = [c] := by
  simp [codesOf]

theorem codesOf_single_ne (h : j ≠ i) {c : UInt32} : codesOf j [(slotNumber i, c)] = [] := by
  have hne : slotNumber i ≠ slotNumber j := fun he => h (slotNumber_inj he).symm
  simp [codesOf, hne]

theorem LifeInv.change (h : LifeInv tr s) (hi : i ≠ 0) (hthere : (s.procs i).state ≠ .free)
    (hslot : p.slot = (s.procs i).slot) (hpid : p.syntheticPid = (s.procs i).syntheticPid)
    (hfwd : Forward (s.procs i).state p.state)
    (htold : Told p.state p.exitCode.toUInt32 (exits i tr ++ codesOf i (exitsIn evs))
      (waits i tr ++ codesOf i (handedOut req r).toList))
    (hothers : ∀ j, j ≠ i → codesOf j (exitsIn evs) = [] ∧
      codesOf j (handedOut req r).toList = []) : LifeStep tr s req (s.setProc i p, evs, r) := by
  have hstate : p.state ≠ .free := by
    intro hfree
    rw [hfree] at hfwd
    revert hthere hfwd
    cases (s.procs i).state <;> decide
  have hsame : ∀ j, (s.procs j).state = .free → ((s.setProc i p).procs j).state ≠ .free → False := by
    intro j hfree hne
    by_cases hji : j = i
    · exact hthere (hji ▸ hfree)
    · rw [setProc_ne hji] at hne
      exact hne hfree
  refine ⟨h.numbered.setProc hi hthere hslot hpid hstate, fun j => ?_, fun j => ?_,
    fun j hfree hne => (hsame j hfree hne).elim, fun j hfree hne => (hsame j hfree hne).elim⟩
  · by_cases hji : j = i
    · subst hji
      rw [setProc_self]
      exact htold
    · rw [setProc_ne hji, (hothers j hji).1, (hothers j hji).2]
      simpa using h.told j
  · by_cases hji : j = i
    · subst hji
      rw [setProc_self]
      exact hfwd
    · rw [setProc_ne hji]
      exact h.forward_same

theorem LifeInv.caller_alive (h : LifeInv tr s) (hcall : callerSlot s caller = some i)
    (hz : (s.procs i).state ≠ .zombie) :
    i ≠ 0 ∧ (s.procs i).state.live ∧ (s.procs i).state ≠ .stopped ∧
      exits i tr = [] ∧ waits i tr = [] := by
  obtain ⟨-, hfree, hdead⟩ := callerSlot_some hcall
  have htold := h.told i
  refine ⟨?_, ?_⟩
  · rintro rfl
    exact hdead h.numbered.reserved
  · generalize (s.procs i).state = st at *
    cases st <;> simp_all [Told, ProcState.live]

theorem LifeInv.exited (h : LifeInv tr s) {status : Int32} (hcall : callerSlot s caller = some i)
    (hz : (s.procs i).state ≠ .zombie)
    (htells : exitsIn evs = [((s.procs i).slot, status.toUInt32)]) :
    LifeStep tr s (.exit caller status)
      (s.setProc i { s.procs i with state := .zombie, exitCode := status }, evs, r) := by
  obtain ⟨hi, hlive, hns, hex, hwt⟩ := h.caller_alive hcall hz
  have hthere := (callerSlot_some hcall).2.1
  rw [h.numbered.slot i hi hthere] at htells
  refine h.change hi hthere rfl rfl ?_ ?_ fun j hj => ⟨?_, rfl⟩
  · exact (forward_of_live hlive hns).2
  · rw [hex, hwt, htells, codesOf_single_self]
    exact ⟨rfl, rfl⟩
  · rw [htells, codesOf_single_ne hj]

theorem LifeInv.execed (h : LifeInv tr s) (hcall : callerSlot s caller = some i)
    (hz : (s.procs i).state ≠ .zombie) (hq : exitsIn evs = []) :
    LifeStep tr s (.exec caller) (s.setProc i { s.procs i with state := .running }, evs, r) := by
  obtain ⟨hi, hlive, hns, hex, hwt⟩ := h.caller_alive hcall hz
  refine h.change hi (callerSlot_some hcall).2.1 rfl rfl ?_ ?_ fun j _ => ⟨?_, rfl⟩
  · exact (forward_of_live hlive hns).1
  · rw [hex, hwt, hq]
    exact ⟨rfl, rfl⟩
  · rw [hq]
    rfl

theorem slotNumber_pos : ∀ i : Slot, i ≠ 0 → 0 < (slotNumber i).toInt32 := by decide +kernel

theorem LifeInv.reaped (h : LifeInv tr s) {which options : Int32} (hi : i ≠ 0)
    (hz : (s.procs i).state = .zombie) (hq : exitsIn evs = [])
    (hres : r.result = (s.procs i).syntheticPid.toInt32) (hslot : r.outSlot = (s.procs i).slot)
    (hcode : r.outExtra.toUInt32 = (s.procs i).exitCode.toUInt32) :
    LifeStep tr s (.wait caller which options)
      (s.setProc i { s.procs i with state := .dead }, evs, r) := by
  have hthere : (s.procs i).state ≠ .free := by
    rw [hz]
    decide
  rw [h.numbered.pid i hi hthere] at hres
  rw [h.numbered.slot i hi hthere] at hslot
  have hout : (handedOut (.wait caller which options) r).toList =
      [(slotNumber i, (s.procs i).exitCode.toUInt32)] := by
    simp only [handedOut, hres, slotNumber_pos i hi, if_true, hslot, hcode, Option.toList_some]
  have htold := h.told i
  rw [hz] at htold
  refine h.change hi hthere rfl rfl ?_ ?_ fun j hj => ⟨?_, ?_⟩
  · rw [hz]
    exact zombie_to_dead
  · rw [hq, hout, htold.1, htold.2, codesOf_single_self]
    exact ⟨rfl, le_rfl⟩
  · rw [hq]
    rfl
  · rw [hout, codesOf_single_ne hj]

theorem Numbered.created (h : Numbered s) (hfree : freeSlot s = some i) (hnew : Newborn s i child)
    (hprocs : s'.procs = update s.procs i child) (hnext : s'.nextPid = s.nextPid + 1) :
    Numbered s' := by
  obtain ⟨hi, hblank⟩ := freeSlot_some hfree
  have hval := h.freeSlot_val hfree
  have hlt : i.val < 256 := i.isLt
  have hnat : s'.nextPid.toNat = i.val + 1 := by
    rw [hnext, UInt32.toNat_add, ← hval, UInt32.toNat_one]
    omega
  have hself : s'.procs i = child := by rw [hprocs, update_self]
  have hother : ∀ j, j ≠ i → s'.procs j = s.procs j := fun j hj => by
    rw [hprocs, update_of_ne hj]
  refine ⟨?_, fun j hj => ?_, fun j hj hne => ?_, fun j hj hne => ?_, ?_⟩
  · rw [hother 0 (Ne.symm hi)]
    exact h.reserved
  · by_cases hji : j = i
    · subst hji
      rw [hself, hnew.state, hnat]
      simp
    · have hvne : j.val ≠ i.val := fun hv => hji (Fin.ext hv)
      rw [hother j hji, h.given j hj, hnat, ← hval]
      omega
  · by_cases hji : j = i
    · subst hji
      rw [hself, hnew.slot]
    · rw [hother j hji] at hne ⊢
      exact h.slot j hj hne
  · by_cases hji : j = i
    · subst hji
      rw [hself, hnew.pid, slotNumber, hval, UInt32.ofNat_toNat]
    · rw [hother j hji] at hne ⊢
      exact h.pid j hj hne
  · rw [hnat]
    exact ⟨Nat.le_add_left 1 _, hlt⟩

theorem Numbered.pid_names (h : Numbered s) {c : Slot} (hlive : (s.procs c).state.live)
    (hj : procdTableGet (s.procs c).syntheticPid = some j) : j = c := by
  have hc : c ≠ 0 := by
    rintro rfl
    rw [h.reserved] at hlive
    revert hlive
    decide
  have hthere : (s.procs c).state ≠ .free := by
    intro hf
    rw [hf] at hlive
    revert hlive
    decide
  rw [h.pid c hc hthere, tableGet_eq_some] at hj
  exact (slotNumber_inj hj).symm

theorem LifeInv.born_caller (h : LifeInv tr s) (hfree : freeSlot s = some i)
    (hborn : Born s i child req) (hq : Timely (entry dispatch s req))
    (hcaller : forkCaller req = some caller) :
    ∃ c, procdTableGet caller = some c ∧ (s.procs c).state.live := by
  have hroom : freeSlot s ≠ none := by simp [hfree]
  cases hborn with
  | spawned hp => cases hcaller
  | forked hget htier hp =>
    obtain ⟨⟩ := hcaller
    exact ⟨_, hget, (hq hroom).get hget htier⟩
  | cloned hcall hns hflags hp =>
    obtain ⟨⟩ := hcaller
    have hz := (hq hroom hns hflags _ hcall).1
    exact ⟨_, (callerSlot_some hcall).1, (h.caller_alive hcall hz).2.1⟩

theorem LifeInv.born_parent (h : LifeInv tr s) (hfree : freeSlot s = some i)
    (hborn : Born s i child req) (hq : Timely (entry dispatch s req))
    (hj : procdTableGet child.ppid = some j) (hj0 : j ≠ 0) : (s.procs j).state.live := by
  have hroom : freeSlot s ≠ none := by simp [hfree]
  cases hborn with
  | spawned hp =>
    rw [hp] at hj
    exact Names.get (hq hroom) hj hj0
  | @forked caller c hget htier hp =>
    have hlive : (s.procs c).state.live := (hq hroom).get hget htier
    have hci : c ≠ i := by
      rintro rfl
      rw [(freeSlot_some hfree).2] at hlive
      revert hlive
      decide
    rw [hp hci] at hj
    rwa [h.numbered.pid_names hlive hj]
  | @cloned caller flags tls ptr c hcall hns hflags hp =>
    obtain ⟨hz, hparent⟩ := hq hroom hns hflags c hcall
    have hlive := (h.caller_alive hcall hz).2.1
    rw [hp] at hj
    split_ifs at hj with hflag
    · exact Names.get (hparent hflag) hj hj0
    · rwa [h.numbered.pid_names hlive hj]

theorem LifeInv.created (h : LifeInv tr s) (hfree : freeSlot s = some i) (hnew : Newborn s i child)
    (hborn : Born s i child req) (hprocs : s'.procs = update s.procs i child)
    (hnext : s'.nextPid = s.nextPid + 1) (hquiet : exitsIn evs = []) (hk : handedOut req r = none)
    (hq : Timely (entry dispatch s req)) : LifeStep tr s req (s', evs, r) := by
  have hself : s'.procs i = child := by rw [hprocs, update_self]
  have hother : ∀ j, j ≠ i → s'.procs j = s.procs j := fun j hj => by
    rw [hprocs, update_of_ne hj]
  have hblank := (freeSlot_some hfree).2
  have honly : ∀ j, (s.procs j).state = .free → (s'.procs j).state ≠ .free → j = i := by
    intro j hf hne
    by_contra hji
    rw [hother j hji] at hne
    exact hne hf
  refine ⟨h.numbered.created hfree hnew hprocs hnext, fun j => ?_, fun j => ?_,
    fun j _ _ caller hcaller => h.born_caller hfree hborn hq hcaller, fun j hf hne k hk' hk0 => ?_⟩
  · rw [hquiet, hk]
    by_cases hji : j = i
    · subst hji
      have htold := h.told j
      rw [hblank] at htold
      simpa [hself, hnew.state, Told, codesOf] using htold
    · simpa [hother j hji, codesOf] using h.told j
  · by_cases hji : j = i
    · subst hji
      rw [hself, hnew.state, hblank]
      decide
    · rw [hother j hji]
      exact h.forward_same
  · obtain rfl := honly j hf hne
    rw [hself] at hk'
    exact h.born_parent hfree hborn hq hk' hk0

theorem LifeInv.step (h : LifeInv tr s) (req : Request)
    (hq : Timely (entry dispatch s req)) : LifeStep tr s req (dispatch s req) := by
  have heff := dispatch_effect s req
  generalize dispatch s req = out at heff
  cases heff with
  | aside hprocs hnext hquiet hk => exact h.aside hprocs hnext hquiet hk
  | created hfree hnew hborn hprocs hnext hquiet hk =>
    exact h.created hfree hnew hborn hprocs hnext hquiet hk hq
  | exited hcall htells =>
    exact h.exited hcall (Names.get hq (callerSlot_some hcall).1) htells
  | execed hcall hquiet => exact h.execed hcall (Names.get hq (callerSlot_some hcall).1) hquiet
  | reaped hi hz hquiet hres hslot hcode => exact h.reaped hi hz hquiet hres hslot hcode

end

variable {tr : List Exchange} {e : Exchange}

theorem exits_snoc : exits i (tr ++ [e]) = exits i tr ++ codesOf i (exitsIn e.reply.1) := by
  simp [exits, codesOf]

theorem waits_snoc :
    waits i (tr ++ [e]) = waits i tr ++ codesOf i (handedOut e.input e.reply.2).toList := by
  cases hout : handedOut e.input e.reply.2 <;> simp [waits, codesOf, hout]

theorem lives_in_order (reqs : List Request)
    (h : ∀ e ∈ trace dispatch procdTableInit reqs, Timely e) :
    Orderly (trace dispatch procdTableInit reqs) := by
  have hrun := trace_induction_of dispatch
    (P := fun tr s => LifeInv tr s ∧
      ∀ e ∈ tr, (∀ i, Forward (e.pre.procs i).state (Exchange.post e |>.procs i).state) ∧
        ∀ i, Creates e i → ParentLive e i)
    (Q := Timely) ⟨lifeInv_init, List.forall_mem_nil _⟩
    (fun tr s req hq ih => by
      have hstep := ih.1.step req hq
      refine ⟨⟨hstep.numbered, fun i => ?_⟩, List.forall_mem_append.mpr ⟨ih.2, ?_⟩⟩
      · rw [exits_snoc, waits_snoc]
        exact hstep.told i
      · rw [List.forall_mem_singleton]
        exact ⟨hstep.forward, fun i hc =>
          ⟨hstep.caller i hc.1 hc.2, hstep.parent i hc.1 hc.2⟩⟩) reqs h
  exact ⟨fun e he => (hrun.2 e he).1, fun i => (hrun.1.told i).once.1,
    fun i => (hrun.1.told i).once.2, fun e he => (hrun.2 e he).2⟩

def shortLife : List Request := [.spawn 0 0 0 [], .fork 1, .exec 2, .exit 2 5, .wait 1 (-1) 0]

theorem short_life_in_order : Orderly (trace dispatch procdTableInit shortLife) ∧
      waits 2 (trace dispatch procdTableInit shortLife) = [5] :=
  ⟨lives_in_order shortLife (by decide +kernel), by decide +kernel⟩

def exitTwice : List Request := [.spawn 0 0 0 [], .exit 1 7, .exit 1 9]

theorem exit_twice_published : ¬ Orderly (trace dispatch procdTableInit exitTwice) :=
  fun h => absurd (h.exits_once 1) (by decide +kernel)

end SotOs.Procd
