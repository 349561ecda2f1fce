import SotOs.Lucas.Backend

/-! The writable binary store (`src/lucas/backends_rwbinstore.c`): an index of sixteen names before
a region that is only ever appended to. -/

namespace SotOs.RwBin
open LittleEndian (encode take_encode)
open Sotfs Lucas Machine Function Overlay List Option

def rwbinOffset : ℕ := 256 * 1024 * 1024
def rwbinDataOffset : ℕ := rwbinOffset + 4096
def rwbinEnd : ℕ := rwbinOffset + 12 * 1024 * 1024
def rwbinMagic : ℕ := 0x4e425752
def maxEntries : ℕ := 16
def nameBytes : ℕ := 64

structure Entry where
  name : List UInt8
  offset : ℕ
  size : ℕ

/-- `sotfs_rwbin_header_t`, but for what never changes. -/
structure Index where
  count : ℕ
  nextFree : ℕ
  entries : List Entry

def Entry.encode (e : Entry) : List UInt8 :=
  e.name ++ List.replicate (nameBytes - e.name.length) 0 ++
    (LittleEndian.encode 8 e.offset ++ LittleEndian.encode 8 e.size)

def Index.encode (x : Index) : List UInt8 :=
  LittleEndian.encode 4 rwbinMagic ++ (LittleEndian.encode 4 1 ++ (LittleEndian.encode 4 x.count ++
    (LittleEndian.encode 4 0 ++ (LittleEndian.encode 8 x.nextFree ++
      x.entries.flatMap Entry.encode))))

def indexBytes : ℕ := 24 + 80 * maxEntries

def decodeEntries : ℕ → List UInt8 → List Entry
  | 0, _ => []
  | n + 1, bs =>
    let (offset, rest) := LittleEndian.take 8 (bs.drop nameBytes)
    let (size, rest) := LittleEndian.take 8 rest
    ⟨(bs.take nameBytes).takeWhile (· ≠ 0), offset, size⟩ :: decodeEntries n rest

def emptyIndex : Index := ⟨0, rwbinDataOffset, List.replicate maxEntries ⟨[], 0, 0⟩⟩

def load (st : Storage) : Index :=
  -- The index behind the magic; a region without one, or with a count out of range, is empty.
  match st.readBlock rwbinOffset indexBytes with
  | none => emptyIndex
  | some bs =>
    let (magic, bs) := LittleEndian.take 4 bs
    let (_, bs) := LittleEndian.take 4 bs
    let (count, bs) := LittleEndian.take 4 bs
    let (_, bs) := LittleEndian.take 4 bs
    let (nextFree, bs) := LittleEndian.take 8 bs
    if magic ≠ rwbinMagic ∨ maxEntries < count then emptyIndex
    else ⟨count, nextFree, decodeEntries maxEntries bs⟩

structure State where
  st : Storage
  index : Index
  init : Bool

def lazyInit (s : State) : State := if s.init then s else ⟨s.st, load s.st, true⟩

def Entry.isNamed (name : List UInt8) (e : Entry) : Bool := e.name = name.take nameBytes

def Index.lookup (x : Index) (name : List UInt8) : Option Entry :=
  (x.entries.take x.count).find? (Entry.isNamed name)

def rwbinstoreRead (name : CStr) (cap : ℕ) (s : State) : State × Except ℤ (List UInt8) :=
  if cap = 0 then (s, .error (-22))
  else
    let s := lazyInit s
    match s.index.lookup name.bytes with
    | none => (s, .error (-2))
    | some e => match s.st.readBlock e.offset (min e.size cap) with
      | none => (s, .error (-5))
      | some bytes => (s, .ok bytes)

def Index.dataOff (x : Index) : ℕ := (x.nextFree + 4095) / 4096 * 4096

def putAt (idx : ℕ) (name bytes : List UInt8) (s : State) : State × ℤ :=
  -- The name is cut to the field, and the index in memory is the new one even if unwritten.
  if rwbinEnd < s.index.dataOff + bytes.length then (s, -28)
  else
    let (st, rc) := s.st.writeBlock s.index.dataOff bytes
    if rc < 0 then ({ s with st }, -5)
    else
      let index : Index := ⟨s.index.count, s.index.dataOff + bytes.length,
        s.index.entries.set idx ⟨name.take (nameBytes - 1), s.index.dataOff, bytes.length⟩⟩
      let (st, rc) := st.writeBlock rwbinOffset index.encode
      ({ s with st, index }, if rc < 0 then -5 else 0)

def rwbinstoreWrite (name : CStr) (bytes : List UInt8) (s : State) : State × ℤ :=
  -- A new name takes its place in the table before anything is known to fit.
  let s := lazyInit s
  if bytes = [] then (s, -22)
  else match (s.index.entries.take s.index.count).findIdx? (Entry.isNamed name.bytes) with
    | some idx => putAt idx name.bytes bytes s
    | none =>
      if maxEntries ≤ s.index.count then (s, -28)
      else putAt s.index.count name.bytes bytes
        { s with index := { s.index with count := s.index.count + 1 } }

inductive Op where
  | write (name : CStr) (bytes : List UInt8)
  | reinit

def step (s : State) : Op → State × ℤ
  | .write name bytes => rwbinstoreWrite name bytes s
  | .reinit => (lazyInit { s with init := false }, 0)

abbrev Contents := List UInt8 → Option (List UInt8)

def storeStep (v : State × Contents) (op : Op) : (State × Contents) × ℤ :=
  let (s, rc) := step v.1 op
  ((s, match op with
    | .write name bytes => if rc = 0 then update v.2 name.bytes (some bytes) else v.2
    | .reinit => v.2), rc)

def Answers (v : State × Contents) : Prop := ∀ (name : CStr) (cap : ℕ), cap ≠ 0 →
    (∀ bytes, v.2 name.bytes = some bytes → bytes.length ≤ cap) →
    (rwbinstoreRead name cap v.1).2 = match v.2 name.bytes with
      | some bytes => .ok bytes
      | none => .error (-2)

def Completes (st : Storage) (k : ℕ) : Prop := (st.faults[k]?).join = none

instance (st : Storage) (k : ℕ) : Decidable (Completes st k) :=
  inferInstanceAs (Decidable (_ = none))

/-- The name fits its field, a new place goes with room for the bytes, which are written, and where
bytes are written so is the index. -/
def Suits (s : State) : Op → Prop
  | .reinit => True
  | .write name bytes =>
    let index := (lazyInit s).index
    let fits := index.dataOff + bytes.length ≤ rwbinEnd
    bytes ≠ [] → (index.lookup name.bytes = none → index.count < maxEntries) →
      name.bytes.length < nameBytes ∧ (index.lookup name.bytes = none → fits ∧ Completes s.st 0) ∧
        (fits → Completes s.st 0 → Completes s.st 1)

structure FreshDisk where
  st : Storage
  room : rwbinEnd ≤ st.capacity
  fresh : load st = emptyIndex

def FreshDisk.start (d : FreshDisk) : State × Contents := (⟨d.st, emptyIndex, false⟩, fun _ => none)

structure Entry.Fits (e : Entry) : Prop where
  name : e.name.length < nameBytes
  noNul : 0 ∉ e.name
  offset : e.offset < 256 ^ 8
  size : e.size < 256 ^ 8

variable {e : Entry} {es : List Entry} {x : Index} {st' : Storage} {off : ℕ} {name' : List UInt8}

theorem Entry.length_encode (h : e.Fits) : e.encode.length = 80 := by
  have hname := h.name
  simp only [Entry.encode, length_append, length_replicate, LittleEndian.length_encode]
  rw [nameBytes] at hname ⊢
  omega

theorem length_flatMap_encode (h : ∀ e ∈ es, e.Fits) :
    (es.flatMap Entry.encode).length = 80 * es.length := by
  induction es with
  | nil => rfl
  | cons e es ih =>
    rw [forall_mem_cons] at h
    rw [flatMap_cons, length_append, Entry.length_encode h.1, ih h.2, length_cons]
    omega

theorem decodeEntries_encode (h : ∀ e ∈ es, e.Fits) :
    decodeEntries es.length (es.flatMap Entry.encode) = es := by
  induction es with
  | nil => rfl
  | cons e es ih =>
    rw [forall_mem_cons] at h
    obtain ⟨⟨hname, hnul, hoffset, hsize⟩, hes⟩ := h
    have hfield : (e.name ++ replicate (nameBytes - e.name.length) 0).length = nameBytes := by
      rw [length_append, length_replicate]
      omega
    have hcut : (e.name ++ replicate (nameBytes - e.name.length) 0).takeWhile (· ≠ 0) =
        e.name := by
      obtain ⟨k, hk⟩ := Nat.exists_eq_add_of_lt hname
      rw [takeWhile_append_of_pos fun b hb => by simpa using ne_of_mem_of_not_mem hb hnul,
        show nameBytes - e.name.length = k + 1 by omega, replicate_succ]
      simp
    rw [flatMap_cons, Entry.encode, length_cons, decodeEntries, append_assoc,
      drop_left' hfield, take_left' hfield, hcut, append_assoc,
      take_encode 8 hoffset]
    simp only
    rw [take_encode 8 hsize]
    simp only
    rw [ih hes]

structure Index.Fits (x : Index) : Prop where
  count : x.count ≤ maxEntries
  nextFree : x.nextFree < 256 ^ 8
  length : x.entries.length = maxEntries
  entries : ∀ e ∈ x.entries, e.Fits

theorem Index.length_encode (h : x.Fits) : x.encode.length = indexBytes := by
  simp only [Index.encode, length_append, LittleEndian.length_encode,
    length_flatMap_encode h.entries, h.length, indexBytes]
  omega

theorem load_encode {st : Storage} (h : x.Fits) (hroom : rwbinOffset + indexBytes ≤ st.capacity)
    (hbytes : read st.bytes rwbinOffset indexBytes = x.encode) : load st = x := by
  have hcount : x.count < 256 ^ 4 := h.count.trans_lt (by decide)
  have hentries := decodeEntries_encode h.entries
  rw [h.length] at hentries
  rw [load, Storage.readBlock, if_neg (Nat.not_lt.mpr hroom), hbytes, Index.encode]
  simp only [take_encode 4 (show rwbinMagic < 256 ^ 4 by decide),
    take_encode 4 (show 1 < 256 ^ 4 by decide), take_encode 4 hcount,
    take_encode 4 (show 0 < 256 ^ 4 by decide), take_encode 8 h.nextFree,
    hentries]
  rw [if_neg]
  have hle := h.count
  simp only [ne_eq, not_true_eq_false, false_or, not_lt]
  exact hle

theorem load_write {st : Storage} {data : List UInt8} (hoff : rwbinDataOffset ≤ off)
    (hcap : st'.capacity = st.capacity) (hbytes : st'.bytes = write st.bytes off data) :
    load st' = load st := by
  have hread : st'.readBlock rwbinOffset indexBytes = st.readBlock rwbinOffset indexBytes := by
    have hfront : rwbinOffset + indexBytes ≤ off := le_trans (by decide) hoff
    rw [Storage.readBlock, Storage.readBlock, hcap, hbytes, read_write_disjoint (.inl hfront)]
  rw [load, load, hread]

theorem isNamed_iff {name : List UInt8} (h : name.length < nameBytes) (he : e.name = name) :
    e.isNamed name' = decide (name' = name) := by
  have hiff : e.name = name'.take nameBytes ↔ name' = name := by
    rw [he]
    constructor
    · intro hname
      have hlen : (name'.take nameBytes).length < nameBytes := hname ▸ h
      rw [length_take] at hlen
      rw [hname, take_of_length_le (by omega)]
    · rintro rfl
      rw [take_of_length_le h.le]
  simp only [Entry.isNamed, hiff]

theorem find_set {name : List UInt8} (h : name.length < nameBytes) {new : Entry}
    (hnew : new.name = name) :
    ∀ {idx : ℕ}, es.findIdx? (Entry.isNamed name) = some idx →
      (es.set idx new).find? (Entry.isNamed name') =
        if name' = name then some new else es.find? (Entry.isNamed name') := by
  induction es with
  | nil =>
    intro idx hidx
    simp at hidx
  | cons e es ih =>
    intro idx hidx
    rw [findIdx?_cons] at hidx
    by_cases he : e.isNamed name = true
    · rw [if_pos he] at hidx
      obtain ⟨⟩ := hidx
      have hename : e.name = name := by
        simpa [Entry.isNamed, take_of_length_le h.le] using he
      rw [set_cons_zero, List.find?_cons, List.find?_cons, isNamed_iff h hnew,
        isNamed_iff h hename]
      by_cases hn : name' = name <;> simp [hn]
    · rw [if_neg he] at hidx
      obtain ⟨k, hk, rfl⟩ := map_eq_some_iff.mp hidx
      rw [set_cons_succ, List.find?_cons, List.find?_cons, ih hk]
      rcases hother : e.isNamed name' with _ | _
      · rfl
      have hn : name' ≠ name := by
        rintro rfl
        exact he hother
      simp [hn]

def Index.Spans (x : Index) (e : Entry) : Prop :=
  rwbinDataOffset ≤ e.offset ∧ e.offset + e.size ≤ x.nextFree ∧ e.offset + e.size ≤ rwbinEnd

structure Stored (st : Storage) (m : Contents) : Prop where
  room : rwbinEnd ≤ st.capacity
  fits : (load st).Fits
  free : rwbinDataOffset ≤ (load st).nextFree
  live : ∀ e ∈ (load st).entries.take (load st).count, (load st).Spans e
  contents : ∀ name, m name =
    ((load st).lookup name).map fun e => read st.bytes e.offset e.size

def Kept (v : State × Contents) : Prop :=
  Stored v.1.st v.2 ∧ (v.1.init = true → v.1.index = load v.1.st)

variable {st : Storage} {m : Contents} {v : State × Contents} {name bytes : List UInt8} {idx : ℕ}

theorem Kept.lazyInit_eq (h : Kept v) : lazyInit v.1 = ⟨v.1.st, load v.1.st, true⟩ := by
  obtain ⟨⟨st, index, init⟩, m⟩ := v
  rcases init with _ | _
  · rfl
  have hindex : index = load st := h.2 rfl
  rw [hindex]
  rfl

theorem Kept.answers (h : Kept v) : Answers v := by
  intro name cap hcap hlarge
  have hcontents := h.1.contents name.bytes
  rw [rwbinstoreRead, if_neg hcap]
  simp only [h.lazyInit_eq]
  rcases hf : (load v.1.st).lookup name.bytes with _ | e
  · rw [hf] at hcontents
    rw [hcontents]
    rfl
  rw [hf, map_some] at hcontents
  have hsize : e.size ≤ cap := by
    have hlen := hlarge _ hcontents
    rwa [length_read] at hlen
  obtain ⟨-, -, hend⟩ := h.1.live e (mem_of_find?_eq_some hf)
  rw [hcontents]
  simp only [Nat.min_eq_left hsize, Storage.readBlock,
    if_neg (Nat.not_lt.mpr (hend.trans h.1.room))]

theorem nextFree_le_dataOff (x : Index) : x.nextFree ≤ x.dataOff := by
  rw [Index.dataOff]
  omega

theorem Stored.scratch (h : Stored st m) {data : List UInt8} (hcap : st'.capacity = st.capacity)
    (hbytes : st'.bytes = write st.bytes (load st).dataOff data) :
    load st' = load st ∧ Stored st' m := by
  have hoff := nextFree_le_dataOff (load st)
  have hload : load st' = load st := load_write (h.free.trans hoff) hcap hbytes
  refine ⟨hload, ?_⟩
  constructor
  case room => rw [hcap]; exact h.room
  case fits => rw [hload]; exact h.fits
  case free => rw [hload]; exact h.free
  case live => rw [hload]; exact h.live
  case contents =>
    intro name
    rw [hload, h.contents name]
    rcases hf : (load st).lookup name with _ | e
    · rfl
    obtain ⟨-, hend, -⟩ := h.live e (mem_of_find?_eq_some hf)
    rw [map_some, map_some, hbytes, read_write_disjoint (.inl (hend.trans hoff))]

theorem Stored.replaced (h : Stored st m) (hx : x.Fits) (hcap : st'.capacity = st.capacity)
    (hbytes : st'.bytes = write st.bytes rwbinOffset x.encode) {n : Entry}
    (hnew : x.Spans n) (hread : read st.bytes n.offset n.size = bytes)
    (hfree : (load st).nextFree ≤ x.nextFree)
    (hmem : ∀ e ∈ x.entries.take x.count, e = n ∨ e ∈ (load st).entries.take (load st).count)
    (hlookup : ∀ name', x.lookup name' = if name' = name then some n else (load st).lookup name') :
    load st' = x ∧ Stored st' (update m name (some bytes)) := by
  have hroom : rwbinOffset + indexBytes ≤ st'.capacity := by
    rw [hcap]
    exact le_trans (by decide) h.room
  have hload : load st' = x := by
    refine load_encode hx hroom ?_
    rw [hbytes, ← Index.length_encode hx]
    exact read_write_same ..
  have hbehind : ∀ {e : Entry}, rwbinDataOffset ≤ e.offset →
      read st'.bytes e.offset e.size = read st.bytes e.offset e.size := by
    intro e he
    rw [hbytes]
    refine read_write_disjoint (.inr ?_)
    rw [Index.length_encode hx]
    exact le_trans (by decide) he
  have hlive : ∀ e ∈ x.entries.take x.count, x.Spans e := by
    intro e he
    rcases hmem e he with rfl | hold
    · exact hnew
    · obtain ⟨hstart, hend, hlast⟩ := h.live e hold
      exact ⟨hstart, hend.trans hfree, hlast⟩
  refine ⟨hload, ?_⟩
  constructor
  case room => rw [hcap]; exact h.room
  case fits => rw [hload]; exact hx
  case free => rw [hload]; exact h.free.trans hfree
  case live => rw [hload]; exact hlive
  case contents =>
    intro name'
    rw [hload, hlookup, update_apply]
    split_ifs
    · rw [map_some, hbehind hnew.1, hread]
    · rw [h.contents name']
      cases hf : (load st).lookup name' with
      | none => rfl
      | some e =>
        rw [map_some, map_some, hbehind (h.live e (mem_of_find?_eq_some hf)).1]

theorem writeBlock_cases {buf : List UInt8} (hroom : off + buf.length ≤ st.capacity) :
    ∃ st' rc, st.writeBlock off buf = (st', rc) ∧ st'.capacity = st.capacity ∧
      st'.faults = st.faults.tail ∧
      ((¬Completes st 0 ∧ rc < 0 ∧ ∃ data, st'.bytes = write st.bytes off data) ∨
        (Completes st 0 ∧ ¬rc < 0 ∧ st'.bytes = write st.bytes off buf)) := by
  rw [Storage.writeBlock, if_neg (Nat.not_lt.mpr hroom)]
  obtain ⟨image, capacity, faults⟩ := st
  have hrc : ¬(buf.length : ℤ) < 0 := Int.not_lt.mpr (Int.natCast_nonneg _)
  rcases faults with _ | ⟨f, faults⟩
  · exact ⟨_, _, rfl, rfl, rfl, .inr ⟨rfl, hrc, rfl⟩⟩
  cases f with
  | none => exact ⟨_, _, rfl, rfl, rfl, .inr ⟨rfl, hrc, rfl⟩⟩
  | some f => exact ⟨_, _, rfl, rfl, rfl, .inl ⟨by simp [Completes], f.neg, _, rfl⟩⟩

structure Places (x : Index) (name : List UInt8) (count idx : ℕ) : Prop where
  le : count ≤ maxEntries
  mem : ∀ new, ∀ e ∈ (x.entries.set idx new).take count, e = new ∨ e ∈ x.entries.take x.count
  find : ∀ new name', new.name = name →
    ((x.entries.set idx new).take count).find? (Entry.isNamed name') =
      if name' = name then some new else x.lookup name'

theorem Stored.indexed (h : Stored st m) {count : ℕ} (hplaces : Places (load st) name count idx)
    (hname : name.length < nameBytes) (hnul : 0 ∉ name) (hoff : (load st).nextFree ≤ off)
    (hend : off + bytes.length ≤ rwbinEnd) (hread : read st.bytes off bytes.length = bytes)
    (hdone : Completes st 0)
    (hx : x = ⟨count, off + bytes.length, (load st).entries.set idx ⟨name, off, bytes.length⟩⟩) :
    ∃ st' rc, st.writeBlock rwbinOffset x.encode = (st', rc) ∧ ¬rc < 0 ∧ load st' = x ∧
      Stored st' (update m name (some bytes)) := by
  have hlast : rwbinEnd < 256 ^ 8 := by decide
  have hfits : x.Fits := by
    subst hx
    refine ⟨hplaces.le, hend.trans_lt hlast, by rw [length_set, h.fits.length], ?_⟩
    intro e he
    rcases mem_or_eq_of_mem_set he with hold | rfl
    · exact h.fits.entries e hold
    · exact ⟨hname, hnul, by simp only; omega, by simp only; omega⟩
  have hroom : rwbinOffset + x.encode.length ≤ st.capacity := by
    rw [Index.length_encode hfits]
    exact le_trans (by decide) h.room
  obtain ⟨st', rc, hw, hcap, -, hend'⟩ := writeBlock_cases hroom
  obtain ⟨-, hrc, hbytes⟩ := hend'.resolve_left fun hfault => hfault.1 hdone
  refine ⟨st', rc, hw, hrc, ?_⟩
  have hnew : x.Spans ⟨name, off, bytes.length⟩ := ⟨h.free.trans hoff, by rw [hx], hend⟩
  subst hx
  exact h.replaced hfits hcap hbytes hnew hread
    (hoff.trans (Nat.le_add_right ..)) (hplaces.mem _) fun name' => hplaces.find _ name' rfl

theorem Stored.put (h : Stored st m) {count : ℕ} (hplaces : Places (load st) name count idx)
    (hname : name.length < nameBytes) (hnul : 0 ∉ name) (hclaims : count = (load st).count ∨
      (load st).dataOff + bytes.length ≤ rwbinEnd ∧ Completes st 0)
    (hindex : (load st).dataOff + bytes.length ≤ rwbinEnd → Completes st 0 → Completes st 1) :
    Kept ((putAt idx name bytes ⟨st, { load st with count }, true⟩).1,
      if (putAt idx name bytes ⟨st, { load st with count }, true⟩).2 = 0
      then update m name (some bytes) else m) := by
  -- a write that is given up leaves the index as it was, since it took no new place
  have hgivenUp : ∀ {st' : Storage}, load st' = load st → Stored st' m →
      ¬((load st).dataOff + bytes.length ≤ rwbinEnd ∧ Completes st 0) →
      Kept (⟨st', { load st with count }, true⟩, m) := by
    intro st' hload hst' hfailed
    refine ⟨hst', fun _ => ?_⟩
    rw [hclaims.resolve_right hfailed, hload]
  rw [putAt, show ({ load st with count } : Index).dataOff = (load st).dataOff from rfl]
  by_cases hfits : (load st).dataOff + bytes.length ≤ rwbinEnd
  · rw [if_neg (Nat.not_lt.mpr hfits)]
    obtain ⟨st₁, rc, hw, hcap, hfaults, ⟨hfault, hrc, data, hbytes⟩ | ⟨hdone, hrc, hbytes⟩⟩ :=
      writeBlock_cases (hfits.trans h.room)
    · simp only [hw, if_pos hrc]
      obtain ⟨hload, hst⟩ := h.scratch hcap hbytes
      exact hgivenUp hload hst fun hok => hfault hok.2
    · obtain ⟨hload, hst⟩ := h.scratch hcap hbytes
      have hdone₁ : Completes st₁ 0 := by
        rw [Completes, hfaults, getElem?_tail]
        exact hindex hfits hdone
      have hread : read st₁.bytes (load st).dataOff bytes.length = bytes := by
        rw [hbytes]
        exact read_write_same ..
      rw [← hload] at hplaces
      obtain ⟨st₂, rc₂, hw₂, hrc₂, hload₂, hst₂⟩ := hst.indexed hplaces hname hnul
        (by rw [hload]; exact nextFree_le_dataOff _) hfits hread hdone₁ rfl
      rw [hload] at hw₂ hload₂
      simp only [hw, if_neg hrc, take_of_length_le (Nat.le_sub_one_of_lt hname), hw₂,
        if_neg hrc₂, if_true]
      exact ⟨hst₂, fun _ => hload₂.symm⟩
  · rw [if_pos (Nat.not_le.mp hfits)]
    exact hgivenUp rfl h fun hok => hfits hok.1

theorem Places.replace (hx : x.Fits) (hname : name.length < nameBytes)
    (hidx : (x.entries.take x.count).findIdx? (Entry.isNamed name) = some idx) :
    Places x name x.count idx := by
  refine ⟨hx.count, ?_, ?_⟩
  · intro new e he
    rw [take_set] at he
    exact (mem_or_eq_of_mem_set he).symm
  · intro new name' hnew
    rw [take_set]
    exact find_set hname hnew hidx

theorem Places.append (hx : x.Fits) (hname : name.length < nameBytes) (hnone : x.lookup name = none)
    (hroom : x.count < maxEntries) : Places x name (x.count + 1) x.count := by
  have htake : ∀ new, (x.entries.set x.count new).take (x.count + 1) =
      x.entries.take x.count ++ [new] := by
    intro new
    have hlen : x.count < (x.entries.set x.count new).length := by
      rwa [length_set, hx.length]
    rw [take_succ_eq_append_getElem hlen, getElem_set_self, take_set_of_le le_rfl]
  refine ⟨hroom, ?_, ?_⟩
  · intro new e he
    rw [htake, mem_append, mem_singleton] at he
    exact he.symm
  · intro new name' hnew
    have hlast : [new].find? (Entry.isNamed name') = if name' = name then some new else none := by
      rw [List.find?_singleton, isNamed_iff hname hnew]
      simp only [decide_eq_true_eq]
    rw [htake, List.find?_append, hlast]
    change (x.lookup name').or _ = _
    by_cases hn : name' = name
    · rw [if_pos hn, if_pos hn, hn, hnone, none_or]
    · rw [if_neg hn, if_neg hn, or_none]

theorem lookup_eq_none_iff : x.lookup name = none ↔
    (x.entries.take x.count).findIdx? (Entry.isNamed name) = none := by
  simp only [Index.lookup, List.find?_eq_none, findIdx?_eq_none_iff, Bool.not_eq_true]

theorem storeStep_kept {op : Op} (h : Kept v) (hsuits : Suits v.1 op) :
    Kept (storeStep v op).1 := by
  cases op with
  | reinit => exact ⟨h.1, fun _ => rfl⟩
  | write name bytes =>
    have hunchanged : Kept (⟨v.1.st, load v.1.st, true⟩, v.2) := ⟨h.1, fun _ => rfl⟩
    rw [Suits, h.lazyInit_eq, lookup_eq_none_iff] at hsuits
    simp only [storeStep, step, rwbinstoreWrite, h.lazyInit_eq]
    by_cases hempty : bytes = []
    · simp only [if_pos hempty]
      exact hunchanged
    simp only [if_neg hempty]
    cases hidx : ((load v.1.st).entries.take (load v.1.st).count).findIdx?
        (Entry.isNamed name.bytes) with
    | some idx =>
      obtain ⟨hname, -, hindex⟩ := hsuits hempty (by rw [hidx]; exact nofun)
      exact h.1.put (Places.replace h.1.fits hname hidx) hname name.noNul (.inl rfl) hindex
    | none =>
      by_cases hfull : maxEntries ≤ (load v.1.st).count
      · simp only [if_pos hfull]
        exact hunchanged
      · have hroom := Nat.not_le.mp hfull
        obtain ⟨hname, hclaims, hindex⟩ := hsuits hempty fun _ => hroom
        simp only [if_neg hfull]
        exact h.1.put (Places.append h.1.fits hname (lookup_eq_none_iff.mpr hidx) hroom) hname
          name.noNul (.inr (hclaims hidx)) hindex

theorem FreshDisk.kept (d : FreshDisk) : Kept d.start := by
  refine ⟨?_, nofun⟩
  have hload : load d.start.1.st = emptyIndex := d.fresh
  constructor
  case room => exact d.room
  case fits =>
    rw [hload]
    refine ⟨by decide, by decide, rfl, ?_⟩
    intro e he
    obtain rfl := eq_of_mem_replicate he
    exact ⟨by decide, not_mem_nil, by decide, by decide⟩
  case free => rw [hload]; exact le_rfl
  case live => rw [hload]; exact nofun
  case contents => rw [hload]; exact fun _ => rfl

/-- Wherever each write suits, a read gives the last successful write, also across reloads. -/
theorem store_answers (d : FreshDisk) (ops : List Op)
    (hsuits : ∀ e ∈ trace storeStep d.start ops, Suits e.pre.1 e.input) (k : ℕ) :
    Answers (exec storeStep d.start (ops.take k)) := by
  refine Kept.answers ?_
  refine exec_invariant_of storeStep (P := Kept) (Q := fun e => Suits e.pre.1 e.input)
    ?_ d.kept _ ?_
  · exact fun v op hop hv => storeStep_kept hv hop
  · intro e he
    rw [trace_take] at he
    exact hsuits e (mem_of_mem_take he)

theorem load_unmarked {bs : List UInt8} (h : st.readBlock rwbinOffset indexBytes = some bs)
    (hmagic : (LittleEndian.take 4 bs).1 ≠ rwbinMagic) : load st = emptyIndex := by
  rw [load, h]
  exact if_pos (.inl hmagic)

def zeroDisk (faults : List (Option Fault)) : FreshDisk where
  st := ⟨fun _ => 0, rwbinEnd, faults⟩
  room := le_rfl
  fresh := by
    have hroom : ¬rwbinEnd < rwbinOffset + indexBytes := by decide
    have hmagic : (LittleEndian.take 4 (read (fun _ => 0) rwbinOffset indexBytes)).1 ≠
        rwbinMagic := by decide +kernel
    exact load_unmarked (if_neg hroom) hmagic

def nameA : CStr := ⟨[97], by decide⟩

def nameB : CStr := ⟨[98], by decide⟩

def rewrites : List Op :=
  [.write nameA [1], .write nameB [2, 3], .write nameA [4], .reinit]

theorem store_answers_rewrites : Answers (exec storeStep (zeroDisk []).start rewrites) ∧
      (exec storeStep (zeroDisk []).start rewrites).2 nameA.bytes = some [4] := by
  refine ⟨store_answers (zeroDisk []) rewrites ?_ 4, by decide +kernel⟩
  simp only [rewrites, trace, forall_mem_cons]
  refine ⟨fun _ _ => ?_, fun _ _ => ?_, fun _ _ => ?_, trivial, forall_mem_nil _⟩
  · exact ⟨by decide, fun _ => ⟨by decide +kernel, rfl⟩, fun _ _ => rfl⟩
  · exact ⟨by decide, fun _ => ⟨by decide +kernel, by decide +kernel⟩, fun _ _ => by decide +kernel⟩
  · exact ⟨by decide, fun _ => ⟨by decide +kernel, by decide +kernel⟩, fun _ _ => by decide +kernel⟩

def writeThenRead (faults : List (Option Fault)) (name asked : CStr) : ℤ × Except ℤ (List UInt8) :=
  let (s, rc) := rwbinstoreWrite name [1] (zeroDisk faults).start.1
  (rc, (rwbinstoreRead asked 1 s).2)

def longName : CStr := ⟨List.replicate nameBytes 97, by decide⟩

def deviceError : Fault := ⟨0, -5, eio_neg⟩

theorem write_not_as_told : writeThenRead [] longName longName = (0, .error (-2)) ∧
      writeThenRead [some deviceError] nameA ⟨[], by decide⟩ = (-5, .ok []) ∧
      writeThenRead [none, some deviceError] nameA nameA = (-5, .ok [1]) := by
  decide +kernel

end SotOs.RwBin
