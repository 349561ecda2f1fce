import SotOs.Lib.Machine
import SotOs.Lib.RingStore

/-! The newest events of the trace rings, picked by a bounded insertion. -/

namespace SotOs.Sottrace
open List RingStore

abbrev ringN : ℕ := 128
abbrev nRings : ℕ := 9

structure Event where
  pid : UInt32
  type : UInt16
  timestamp : UInt64
  deriving DecidableEq

structure Ring where
  headSeq : UInt64
  entries : Fin ringN → Event

abbrev Rings := Fin nRings → Ring

def ringPublish (r : Ring) (ev : Event) : Ring :=
  ⟨r.headSeq + 1, Function.update r.entries (Fin.ofNat ringN r.headSeq.toNat) ev⟩

/-- The cells that an event was put into: all of them once the ring has gone round. -/
def Ring.Holds (r : Ring) (k : Fin ringN) : Prop :=
  k.val < r.headSeq.toNat ∨ ringN ≤ r.headSeq.toNat

def Ring.used (r : Ring) : ℕ := min r.headSeq.toNat ringN

def Ring.slots (r : Ring) : List (Fin ringN) :=
  (range r.used).map fun k => Fin.ofNat ringN (r.headSeq.toNat - r.used + k)

abbrev Entry := Fin nRings × Fin ringN

variable (rings : Rings)

def eventAt (p : Entry) : Event := (rings p.1).entries p.2

def stamp (p : Entry) : ℕ := (eventAt rings p).timestamp.toNat

def stored : List Entry := (finRange nRings).flatMap fun i => (rings i).slots.map (Prod.mk i)

def bubble (p : Entry) : List Entry → List Entry
  -- The swap loop. The output array is given from its last cell down, each cell as the entry it was
  -- copied from.
  | [] => [p]
  | q :: out => if stamp rings q < stamp rings p then q :: bubble p out else p :: q :: out

def insertRecent (max : ℕ) (out : List Entry) (p : Entry) : List Entry :=
  if out.length < max then bubble rings p out
  else
    match out with
    | [] => []
    | last :: out' => if stamp rings last < stamp rings p then bubble rings p out' else out

def peekRecent (max : UInt32) : List Event × UInt32 :=
  if max = 0 then ([], 0)
  else
    (((stored rings).foldl (insertRecent rings max.toNat) []).reverse.map (eventAt rings),
      .ofNat ((finRange nRings).map fun i => (rings i).used).sum)

structure Newest (max : ℕ) (seen out left : List Entry) : Prop where
  perm : (out ++ left).Perm seen
  length : out.length = min max seen.length
  sorted : out.Pairwise fun p q => stamp rings p ≤ stamp rings q
  newer : ∀ p ∈ out, ∀ q ∈ left, stamp rings q ≤ stamp rings p

variable {rings} {max : ℕ} {seen out left : List Entry} {p : Entry}

theorem bubble_eq : bubble rings p out =
    out.orderedInsert (fun p q => stamp rings p ≤ stamp rings q) p := by
  induction out with
  | nil => rfl
  | cons q out ih => simp only [bubble, orderedInsert_cons, ih, ← not_lt, ite_not]

theorem bubble_sorted (h : out.Pairwise fun p q => stamp rings p ≤ stamp rings q) :
    (bubble rings p out).Pairwise fun p q => stamp rings p ≤ stamp rings q := by
  have : Std.Total fun p q => stamp rings p ≤ stamp rings q := ⟨fun _ _ => le_total _ _⟩
  have : IsTrans Entry fun p q => stamp rings p ≤ stamp rings q := ⟨fun _ _ _ => le_trans⟩
  rw [bubble_eq]
  exact h.orderedInsert _ _

theorem bubble_perm : (bubble rings p out).Perm (p :: out) := bubble_eq ▸ perm_orderedInsert ..

theorem Newest.insert (hmax : 0 < max) (h : Newest rings max seen out left) :
    ∃ left', Newest rings max (seen ++ [p]) (insertRecent rings max out p) left' := by
  have hperm : (p :: (out ++ left)).Perm (seen ++ [p]) :=
    (h.perm.cons p).trans (perm_append_singleton p seen).symm
  have hlen := h.length
  have hseen := hperm.length_eq
  simp only [length_cons, length_append, length_nil] at hseen
  have hcount : ∀ {l : List Entry}, l.length = min max (out.length + left.length + 1) →
      l.length = min max (seen ++ [p]).length := fun hl => by simpa [← hseen] using hl
  unfold insertRecent
  split_ifs with hroom
  · obtain rfl : left = [] := length_eq_zero_iff.mp (by omega)
    refine ⟨[], (bubble_perm.append_right []).trans hperm, hcount ?_, bubble_sorted h.sorted, ?_⟩
    · rw [bubble_perm.length_eq, length_cons]
      omega
    · exact fun _ _ => forall_mem_nil _
  cases out with
  | nil => exact absurd hmax hroom
  | cons last out =>
    obtain ⟨hlast, hsorted⟩ := pairwise_cons.mp h.sorted
    have hle := h.newer last mem_cons_self
    dsimp only
    split_ifs with hnew
    · refine ⟨last :: left, ?_, hcount ?_, bubble_sorted hsorted,
        fun q hq => forall_mem_cons.mpr ?_⟩
      · exact (bubble_perm.append_right _).trans ((perm_middle.cons p).trans hperm)
      · simp only [bubble_perm.length_eq, length_cons] at hlen hroom ⊢
        omega
      · rcases mem_cons.mp (bubble_perm.mem_iff.mp hq) with rfl | hq
        · exact ⟨hnew.le, fun r hr => (hle r hr).trans hnew.le⟩
        · exact ⟨hlast q hq, h.newer q (mem_cons_of_mem _ hq)⟩
    · refine ⟨p :: left, perm_middle.trans hperm, hcount ?_, h.sorted, fun q hq => ?_⟩
      · omega
      · refine forall_mem_cons.mpr ⟨(not_lt.mp hnew).trans ?_, h.newer q hq⟩
        rcases mem_cons.mp hq with rfl | hq
        · exact le_rfl
        · exact hlast q hq

theorem Newest.fold (hmax : 0 < max) (more : List Entry) (h : Newest rings max seen out left) :
    ∃ left', Newest rings max (seen ++ more) (more.foldl (insertRecent rings max) out) left' := by
  induction more generalizing seen out left with
  | nil => exact ⟨left, (append_nil seen).symm ▸ h⟩
  | cons p more ih =>
    obtain ⟨left', h'⟩ := h.insert (p := p) hmax
    rw [append_cons]
    exact ih h'

theorem slots_nodup (r : Ring) : r.slots.Nodup := by
  refine (nodup_map_iff_inj_on nodup_range).mpr fun k hk l hl heq => ?_
  have hused : r.used ≤ 128 := min_le_right _ _
  have hmod : (r.headSeq.toNat - r.used + k) % 128 = (r.headSeq.toNat - r.used + l) % 128 :=
    congrArg Fin.val heq
  rw [mem_range] at hk hl
  omega

theorem mem_slots {r : Ring} {k : Fin ringN} : k ∈ r.slots ↔ r.Holds k := by
  have hk : k.val < 128 := k.isLt
  have hmin : min r.headSeq.toNat 128 = r.used := rfl
  simp only [Ring.slots, Ring.Holds, mem_map, mem_range]
  constructor
  · rintro ⟨n, hn, rfl⟩
    have hval : (Fin.ofNat ringN (r.headSeq.toNat - r.used + n)).val =
      (r.headSeq.toNat - r.used + n) % 128 := rfl
    omega
  · intro hheld
    -- the one of the last numbers that the cell is given to
    let n := (k.val + 128 * r.headSeq.toNat - (r.headSeq.toNat - r.used)) % 128
    refine ⟨n, by omega, Fin.ext ?_⟩
    change (r.headSeq.toNat - r.used + n) % 128 = k.val
    omega

theorem stored_nodup (rings : Rings) : (stored rings).Nodup := by
  refine nodup_flatMap.mpr ⟨fun i _ => ?_, ?_⟩
  · exact (slots_nodup _).map (Prod.mk_right_injective i)
  · refine (nodup_finRange nRings).imp fun hne p hp hq => ?_
    obtain ⟨_, -, rfl⟩ := mem_map.mp hp
    obtain ⟨_, -, heq⟩ := mem_map.mp hq
    exact hne (congrArg Prod.fst heq).symm

theorem stored_length (rings : Rings) :
    (stored rings).length = ((finRange nRings).map fun i => (rings i).used).sum := by
  simp [stored, length_flatMap, Ring.slots]

theorem stored_length_lt (rings : Rings) : (stored rings).length < 2 ^ 32 := by
  refine (stored_nodup rings).length_le_card.trans_lt ?_
  simp [nRings, ringN]

theorem mem_stored {rings : Rings} : p ∈ stored rings ↔ (rings p.1).Holds p.2 := by
  rw [← mem_slots]
  simp only [stored, mem_flatMap, mem_finRange, true_and, mem_map, Prod.ext_iff]
  exact ⟨fun ⟨_, _, hk, rfl, rfl⟩ => hk, fun hk => ⟨p.1, p.2, hk, rfl, rfl⟩⟩

structure Answers (rings : Rings) (max : UInt32) (out left : List Entry) : Prop where
  events : (peekRecent rings max).1 = out.reverse.map (eventAt rings)
  distinct : (out ++ left).Nodup
  all : ∀ p, p ∈ out ++ left ↔ (rings p.1).Holds p.2
  count : out.length = min max.toNat (out ++ left).length
  sorted : out.Pairwise fun p q => stamp rings p ≤ stamp rings q
  newer : ∀ p ∈ out, ∀ q ∈ left, stamp rings q ≤ stamp rings p
  total : (peekRecent rings max).2.toNat = (out ++ left).length

theorem peekRecent_answers (rings : Rings) (max : UInt32) (hmax : max ≠ 0) :
    ∃ out left, Answers rings max out left := by
  have hpos : 0 < max.toNat := Nat.pos_of_ne_zero fun h => hmax (UInt32.toNat_inj.mp h)
  have hnil : Newest rings max.toNat [] [] [] :=
    ⟨.refl _, by simp, .nil, fun _ hp => absurd hp not_mem_nil⟩
  obtain ⟨left, h⟩ := hnil.fold hpos (stored rings)
  refine ⟨_, left, ?_, h.perm.nodup_iff.mpr (stored_nodup rings), ?_, ?_, h.sorted, h.newer, ?_⟩
  · rw [peekRecent, if_neg hmax]
  · exact fun p => h.perm.mem_iff.trans mem_stored
  · rw [h.perm.length_eq, h.length]
  · rw [h.perm.length_eq, peekRecent, if_neg hmax, ← stored_length]
    exact Nat.mod_eq_of_lt (stored_length_lt rings)

def published (log : List Event) : Ring := log.foldl ringPublish ⟨0, fun _ => ⟨0, 0, 0⟩⟩

theorem published_kept (log : List Event) : log.length < 2 ^ 64 →
    (published log).headSeq.toNat = log.length ∧
      Kept (Fin.ofNat ringN) log (published log).entries := by
  induction log using reverseRecOn with
  | nil => exact fun _ => ⟨rfl, kept_nil⟩
  | append_singleton log ev ih =>
    intro hfew
    rw [length_append, length_singleton] at hfew ⊢
    obtain ⟨hhead, hkept⟩ := ih (by omega)
    rw [published, foldl_concat, ← published, ringPublish, hhead]
    refine ⟨?_, hkept.snoc ev⟩
    rw [UInt64.toNat_add, hhead]
    exact Nat.mod_eq_of_lt hfew

theorem holds_iff_published {log : List Event} (hfew : log.length < 2 ^ 64) (k : Fin ringN)
    (ev : Event) : (published log).Holds k ∧ (published log).entries k = ev ↔
      ∃ j, log[j]? = some ev ∧ log.length ≤ j + 128 ∧ j % 128 = k := by
  obtain ⟨hhead, hkept⟩ := published_kept log hfew
  have hlast : ∀ j (hj : j < log.length), log.length ≤ j + 128 → j % 128 = k →
      (published log).entries k = log[j] := by
    intro j hj hnear hcell
    obtain rfl : Fin.ofNat ringN j = k := Fin.ext hcell
    refine hkept j hj fun i hji hi heq => ?_
    have hmod : i % 128 = j % 128 := congrArg Fin.val heq
    omega
  have hk : k.val < 128 := k.isLt
  rw [Ring.Holds, hhead]
  constructor
  · rintro ⟨hheld, rfl⟩
    have hj : log.length - 1 - (log.length - 1 - k) % 128 < log.length := by omega
    refine ⟨_, (getElem?_eq_getElem hj).trans ?_, by omega, by omega⟩
    rw [hlast _ hj (by omega) (by omega)]
  · rintro ⟨j, hget, hnear, hcell⟩
    obtain ⟨hj, rfl⟩ := List.getElem?_eq_some_iff.mp hget
    exact ⟨by omega, hlast j hj hnear hcell⟩

def twoRings : Rings := fun i => published
  (if i = 0 then [⟨1, 2, 30⟩, ⟨1, 3, 10⟩] else if i = 1 then [⟨4, 5, 20⟩] else [])

theorem peekRecent_answers_two : (2 : UInt32) ≠ 0 ∧
    peekRecent twoRings 2 = ([⟨1, 2, 30⟩, ⟨4, 5, 20⟩], 3) ∧
      ∃ out left, Answers twoRings 2 out left :=
  ⟨by decide, by decide +kernel, peekRecent_answers twoRings 2 (by decide)⟩

end SotOs.Sottrace
