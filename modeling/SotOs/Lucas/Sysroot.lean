import SotOs.Lucas.Lookup

/-! Reading a directory of the sysroot call by call; the cursor is put back before a record that
does not fit. -/

namespace SotOs.Lucas.Sysroot
open Sotfs Machine List

inductive EntryType
  | dir | file | lnk
  deriving DecidableEq

structure Entry where
  path : List UInt8
  type : EntryType

structure Table where
  entries : List Entry
  distinct : (entries.map Entry.path).Nodup

def join (dir name : List UInt8) : List UInt8 := if dir = [] then name else dir ++ slash :: name

def childName (dir path : List UInt8) : Option Name :=
  (if dir = [] then some path else path.dropPrefix? (dir ++ [slash])).filter
    fun p => p ≠ [] ∧ slash ∉ p

def dtype : EntryType → ℕ
  | .dir => 4
  | .lnk => 10
  | .file => 8

def record (dir : List UInt8) (e : Entry × ℕ) : Option Dirent :=
  (childName dir e.1.path).map fun p => ⟨e.2 + 1, e.2 + 1, direntReclen p, dtype e.1.type, p⟩

def getdentsLoop (dir : List UInt8) (count : ℕ) : List (Entry × ℕ) → (out : List Dirent) →
    (written : ℕ) → List (Entry × ℕ) × Except ℤ (List Dirent)
  -- The cursor is kept as the entries from it on, with their numbers.
  | [], out, _ => ([], .ok out)
  | e :: rest, out, written => match record dir e with
    | none => getdentsLoop dir count rest out written
    | some de =>
      if count < written + de.reclen then (e :: rest, if written = 0 then .error (-22) else .ok out)
      else getdentsLoop dir count rest (out ++ [de]) (written + de.reclen)

def opGetdents (handle : Option Entry) (count : ℕ) (cursor : List (Entry × ℕ)) :
    List (Entry × ℕ) × Except ℤ (List Dirent) :=
  if handle.any fun e => e.type ≠ .dir then (cursor, .error (-20))
  else getdentsLoop (handle.elim [] Entry.path) count cursor [] 0

variable {dir path : List UInt8} {name : Name} {e : Entry × ℕ} {de : Dirent}

theorem childName_iff : childName dir path = some name ↔
    path = join dir name ∧ name ≠ [] ∧ slash ∉ name := by
  unfold childName join
  split_ifs
  · simp
  · simp [Option.filter_eq_some_iff, dropPrefix?_eq_some_iff]

theorem record_pos (h : record dir e = some de) : 0 < de.reclen := by
  obtain ⟨p, -, rfl⟩ := Option.map_eq_some_iff.mp h
  simp only [direntReclen]
  omega

theorem getdentsLoop_spec (dir : List UInt8) (count : ℕ) (cursor : List (Entry × ℕ)) :
    ∀ (out : List Dirent) (written : ℕ), (written = 0 ↔ out = []) → ∃ next more,
      cursor.filterMap (record dir) = more ++ next.filterMap (record dir) ∧
      getdentsLoop dir count cursor out written =
        (next, if out ++ more = [] ∧ next.filterMap (record dir) ≠ [] then .error (-22)
          else .ok (out ++ more)) ∧
      ∀ de ∈ (cursor.filterMap (record dir)).head?, more = [] ↔ count < written + de.reclen := by
  induction cursor with
  | nil => exact fun _ _ _ => ⟨[], [], rfl, by simp [getdentsLoop], by simp⟩
  | cons e rest ih =>
    intro out written h
    rw [getdentsLoop]
    cases hrec : record dir e with
    | none =>
      rw [filterMap_cons_none hrec]
      exact ih out written h
    | some de =>
      rw [filterMap_cons_some hrec]
      by_cases hfull : count < written + de.reclen
      · refine ⟨e :: rest, [], ?_, ?_, ?_⟩
        · rw [filterMap_cons_some hrec]
          rfl
        · simp [filterMap_cons_some hrec, hfull, h]
        · simpa using hfull
      · have hpos : written + de.reclen = 0 ↔ out ++ [de] = [] := by
          have := record_pos hrec
          simp
          omega
        obtain ⟨next, more, hsplit, hloop, -⟩ := ih _ _ hpos
        refine ⟨next, de :: more, ?_, ?_, ?_⟩
        · rw [hsplit, cons_append]
        · simpa [hfull] using hloop
        · simpa using hfull

structure DirHandle (r : Table) where
  entry : Option Entry
  isDir : ∀ e ∈ entry, e ∈ r.entries ∧ e.type = .dir

variable {r : Table} (d : DirHandle r)

def DirHandle.base : List UInt8 := d.entry.elim [] Entry.path

variable (cursor : List (Entry × ℕ))

def DirHandle.left : List Dirent := cursor.filterMap (record d.base)

variable (s : List (Entry × ℕ) × List Dirent) (count : ℕ)

def call :
    (List (Entry × ℕ) × List Dirent) × Except ℤ (List Dirent) :=
  let (next, out) := opGetdents d.entry count s.1
  ((next, s.2 ++ out.toOption.getD []), out)

theorem call_spec : ∃ next more,
    d.left s.1 = more ++ d.left next ∧
      call d s count = ((next, s.2 ++ more),
        if more = [] ∧ d.left next ≠ [] then .error (-22) else .ok more) ∧
      ∀ de ∈ (d.left s.1).head?, more = [] ↔ count < de.reclen := by
  obtain ⟨next, more, hsplit, hloop, hfits⟩ := getdentsLoop_spec d.base count s.1 [] 0 (by simp)
  have hdir : ¬d.entry.any fun e => e.type ≠ .dir := by
    rcases h : d.entry with _ | e
    · simp
    · simp [(d.isDir e h).2]
  have hcall : opGetdents d.entry count s.1 =
      (next, if more = [] ∧ d.left next ≠ [] then .error (-22) else .ok more) :=
    (if_neg hdir).trans hloop
  refine ⟨next, more, hsplit, ?_, fun de hde => ?_⟩
  · rw [call, hcall]
    by_cases hfail : more = [] ∧ d.left next ≠ []
    · rw [if_pos hfail, hfail.1]
      rfl
    · rw [if_neg hfail]
      rfl
  · rw [hfits de hde, Nat.zero_add]

theorem left_nodup : ((d.left r.entries.zipIdx).map Dirent.name).Nodup := by
  have hnames : (d.left r.entries.zipIdx).map Dirent.name =
      (r.entries.map Entry.path).filterMap (childName d.base) := by
    conv_rhs => rw [← zipIdx_map_fst 0 r.entries, map_map, filterMap_map]
    rw [DirHandle.left, map_filterMap]
    simp [record, Function.comp_def]
  rw [hnames]
  refine r.distinct.filterMap fun path path' name h h' => ?_
  rw [(childName_iff.mp h).1, (childName_iff.mp h').1]

/-- The entry number `i` of the table, as a record of the directory that its path stands in. -/
def Child (de : Dirent) : Prop := ∃ i e, r.entries[i]? = some e ∧ e.path = join d.base de.name ∧
  de.name ≠ [] ∧ slash ∉ de.name ∧
    de = ⟨i + 1, i + 1, direntReclen de.name, dtype e.type, de.name⟩

theorem mem_left_iff (de : Dirent) : de ∈ d.left r.entries.zipIdx ↔ Child d de := by
  simp only [DirHandle.left, mem_filterMap, record, Option.map_eq_some_iff, childName_iff]
  constructor
  · rintro ⟨⟨e, i⟩, he, name, ⟨hpath, hne, hslash⟩, rfl⟩
    exact ⟨i, e, mem_zipIdx_iff_getElem?.mp he, hpath, hne, hslash, rfl⟩
  · rintro ⟨i, e, he, hpath, hne, hslash, hde⟩
    exact ⟨(e, i), mem_zipIdx_iff_getElem?.mpr he, de.name, ⟨hpath, hne, hslash⟩, hde.symm⟩

/-- In every run of calls, what was read and what is left are the children of the directory, each
once. The next call returns nothing exactly at the end, and fails exactly if its buffer is too small
for the next record. -/
theorem getdents_exactly_once (r : Table) (d : DirHandle r) (counts : List ℕ) (count : ℕ) :
    let s := exec (call d) (r.entries.zipIdx, []) counts
    ∃ rest, s.2 ++ rest = d.left r.entries.zipIdx ∧ (∀ de, de ∈ s.2 ++ rest ↔ Child d de) ∧
      ((d.left r.entries.zipIdx).map Dirent.name).Nodup ∧
      ((call d s count).2 = .ok [] ↔ rest = []) ∧
      ∀ de ∈ rest.head?, if count < de.reclen then (call d s count).2 = .error (-22)
        else ∃ out, (call d s count).2 = .ok (de :: out) := by
  have hrun : ∀ s, exec (call d) (r.entries.zipIdx, []) counts = s →
      s.2 ++ d.left s.1 = d.left r.entries.zipIdx := by
    rintro s rfl
    apply exec_invariant (call d) (P := fun s => s.2 ++ d.left s.1 = d.left r.entries.zipIdx)
    · intro s count h
      obtain ⟨next, more, hleft, hcall, -⟩ := call_spec d s count
      rw [hcall, append_assoc, ← hleft, h]
    · rfl
  intro s
  obtain ⟨next, more, hleft, hcall, hfits⟩ := call_spec d s count
  have hread := hrun s rfl
  refine ⟨d.left s.1, hread, fun de => by rw [hread, mem_left_iff], left_nodup d, ?_, ?_⟩
  · rw [hcall, hleft]
    by_cases hmore : more = []
    · by_cases hnext : d.left next = [] <;> simp [hmore, hnext]
    · simp [hmore]
  · intro de hde
    rw [hcall]
    have hfit := hfits de hde
    cases more with
    | nil =>
      have hnext : d.left next ≠ [] := by
        rintro hnil
        simp [hleft, hnil] at hde
      rw [if_pos (hfit.mp rfl), if_pos ⟨rfl, hnext⟩]
    | cons first out =>
      obtain rfl : first = de := by simpa [hleft] using hde
      rw [if_neg fun h => by simpa using hfit.mpr h]
      exact ⟨out, rfl⟩

end SotOs.Lucas.Sysroot
