import SotOs.Lib.Paging
import SotOs.Lucas.Lookup
import SotOs.Lucas.Reach

/-! Listing a directory call by call: the iterator is past an entry when the buffer turns out too
small for it. -/

namespace SotOs.Lucas
open Sotfs Machine Slots List Paging

structure OpenDir (s : Fs) where
  h : Fin handlePool
  i : Fin maxInodes
  slot : handleSlot s h = some i
  dir : (s.graph.inodes i).map (·.kind) = some .dir

def visibleFrom (env : Env) (hiddenRoots : List Name) {s : Fs} (d : OpenDir s) (next : ℕ) :
    List Dirent :=
  ((List.finRange maxEdges).drop next).filterMap (dirEntry env hiddenRoots (toId d.i) s)

def listDir (env : Env) (hiddenRoots : List Name) (s : Fs) (h : Fin handlePool) (counts : ℕ → ℕ) :
    ℕ → ℕ → ℕ → Option (List Dirent)
  | 0, _, _ => none
  | fuel + 1, n, next => match opGetdents env hiddenRoots h (counts n) next s with
    | (_, .error _) => none
    | (_, .ok []) => some []
    | (next, .ok (de :: out)) =>
      (listDir env hiddenRoots s h counts fuel (n + 1) next).map ((de :: out) ++ ·)

theorem drop_finRange (k : Fin maxEdges) :
    (List.finRange maxEdges).drop k = k :: (List.finRange maxEdges).drop (k + 1) := by
  have hlt : k.val < (finRange maxEdges).length := by
    rw [length_finRange]
    exact k.isLt
  rw [drop_eq_getElem_cons hlt, getElem_finRange]
  rfl

theorem getdentsLoop_fill {entry : Fin maxEdges → Option Dirent} {count m : ℕ} : ∀ next written,
    maxEdges - next = m →
    (getdentsLoop entry count ((List.finRange maxEdges).drop next) written).2 =
        (fill Dirent.reclen count
          (((List.finRange maxEdges).drop next).filterMap entry) written).1 ∧
      ((List.finRange maxEdges).drop
          (getdentsLoop entry count ((List.finRange maxEdges).drop next) written).1).filterMap entry =
        (fill Dirent.reclen count
          (((List.finRange maxEdges).drop next).filterMap entry) written).2 := by
  induction m with
  | zero =>
    intro next written hm
    have hdrop : ∀ n, maxEdges ≤ n → (finRange maxEdges).drop n = [] := by
      intro n hn
      rw [drop_eq_nil_iff, length_finRange]
      exact hn
    rw [hdrop next (by omega), getdentsLoop, hdrop maxEdges le_rfl]
    exact ⟨rfl, rfl⟩
  | succ m ih =>
    intro next written hm
    have hlt : next < maxEdges := by omega
    have hnext : maxEdges - (next + 1) = m := by omega
    rw [drop_finRange ⟨next, hlt⟩, getdentsLoop]
    rcases hentry : entry ⟨next, hlt⟩ with _ | de
    · rw [filterMap_cons_none hentry]
      exact ih (next + 1) written hnext
    rw [filterMap_cons_some hentry, fill]
    simp only
    split_ifs
    · simp only [and_self]
    · obtain ⟨hout, hleft⟩ := ih (next + 1) (written + de.reclen) hnext
      simp only [hout, hleft, and_self]

variable {s : Fs} {k j : Fin maxEdges}

variable {env : Env} {counts : ℕ → ℕ}

theorem listDir_eq (hiddenRoots : List Name) {d : OpenDir s} {fuel : ℕ} :
    ∀ n next, listDir env hiddenRoots s d.h counts fuel n next =
      drain Dirent.reclen counts fuel n (visibleFrom env hiddenRoots d next) := by
  induction fuel with
  | zero => exact fun _ _ => rfl
  | succ fuel ih =>
    intro n next
    obtain ⟨hout, hleft⟩ := getdentsLoop_fill next 0 rfl
    rw [listDir, drain]
    have hcall : opGetdents env hiddenRoots d.h (counts n) next s =
        ((getdentsLoop (dirEntry env hiddenRoots (toId d.i) s) (counts n)
          ((finRange maxEdges).drop next) 0).1,
        .ok (fill Dirent.reclen (counts n) (visibleFrom env hiddenRoots d next) 0).1) := by
      unfold opGetdents
      simp only [d.slot, d.dir, ne_eq, not_true_eq_false, if_false]
      rw [hout]
      rfl
    rw [hcall]
    cases hfill : (fill Dirent.reclen (counts n) (visibleFrom env hiddenRoots d next) 0).1 with
    | nil => rfl
    | cons de out =>
      simp only [reduceCtorEq, if_false]
      rw [ih, visibleFrom, hleft]
      rfl

/-- Every visible entry is listed once exactly if all of them fit into the first buffer. -/
theorem listing_exact_iff (env : Env) (hiddenRoots : List Name) (s : Fs) (d : OpenDir s)
    (counts : ℕ → ℕ) :
    (∃ fuel out, listDir env hiddenRoots s d.h counts fuel 0 0 = some out ∧
        out.Perm (visibleFrom env hiddenRoots d 0)) ↔
      ((visibleFrom env hiddenRoots d 0).map Dirent.reclen).sum ≤ counts 0 := by
  simp only [listDir_eq]
  exact drain_perm_iff Dirent.reclen counts 0 (visibleFrom env hiddenRoots d 0)

theorem listDir_ends (hiddenRoots : List Name) {d : OpenDir s} :
    (listDir env hiddenRoots s d.h counts (maxEdges + 1) 0 0).isSome = true := by
  rw [listDir_eq]
  apply drain_isSome
  have hle := length_filterMap_le (dirEntry env hiddenRoots (toId d.i) s)
    ((finRange maxEdges).drop 0)
  rw [drop_zero, length_finRange] at hle
  rw [visibleFrom, drop_zero]
  omega

def twoFiles : List (Env × FsOp) :=
  [(bootEnv, .open 0 pathA oCreat 0), (bootEnv, .open 0 pathB oCreat 0),
    (bootEnv, .open 0 pathRoot 0 0)]

def twoDir : OpenDir (exec fsStep (freshFs blankImage 0) twoFiles) where
  h := ⟨2, by decide⟩
  i := 0
  slot := by decide +kernel
  dir := by decide +kernel

theorem one_file_lost : ∃ s : Fs, s = exec fsStep (lazyInit blankImage 0) twoFiles ∧
      ∃ (d : OpenDir s) (counts : ℕ → ℕ),
        (∀ n, ∀ de ∈ visibleFrom bootEnv [] d 0, de.reclen ≤ counts n) ∧
        ¬∃ fuel out, listDir bootEnv [] s d.h counts fuel 0 0 = some out ∧
          out.Perm (visibleFrom bootEnv [] d 0) := by
  refine ⟨_, rfl, ?_⟩
  rw [boot_eq]
  have hsizes : (visibleFrom bootEnv [] twoDir 0).map Dirent.reclen = [24, 24] := by decide +kernel
  refine ⟨twoDir, fun _ => 24, fun _ de hde => ?_, ?_⟩
  · have hsize := mem_map_of_mem (f := Dirent.reclen) hde
    rw [hsizes] at hsize
    simp only [mem_cons, not_mem_nil, or_false, or_self] at hsize
    exact hsize.le
  · simp only [listDir_eq]
    rw [drain_perm_iff, hsizes]
    decide

end SotOs.Lucas
