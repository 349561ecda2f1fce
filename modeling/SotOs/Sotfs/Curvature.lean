import SotOs.Sotfs.Graph

/-! The curvature monitor (`src/sotfs/graph_curvature.c`). The values are small integers, exact as
`double`; the rule on the mean is not here. -/

namespace SotOs.Sotfs
open Slots Finset

def Edge.touches (e : Edge) (n : ℤ) : Bool := e.parentId == n || e.childId == n

def Edge.joins (e : Edge) (x z : ℤ) : Bool :=
  e.parentId == x && e.childId == z || e.parentId == z && e.childId == x

variable (g : Graph)

def edgesAt (n : ℤ) : Finset (Fin maxEdges) := {i | (g.edges i).any (·.touches n)}

def degree (n : ℤ) : ℕ := #(edgesAt g n)

def joined (x z : ℤ) : Prop := ∃ i, (g.edges i).any (·.joins x z)

scoped instance (x z : ℤ) : Decidable (joined g x z) := inferInstanceAs (Decidable (∃ _, _))

def commonNeighbours (e : Edge) : Finset (Fin maxInodes) :=
  {z | toId z ≠ e.parentId ∧ toId z ≠ e.childId ∧ (g.inodes z).isSome ∧
    joined g e.parentId (toId z) ∧ joined g e.childId (toId z)}

def trianglesThrough (e : Edge) : ℕ := #(commonNeighbours g e)

def curvatureForman (i : Fin maxEdges) : ℤ :=
  match g.edges i with
  | none => 0
  | some e => (degree g e.parentId + degree g e.childId - trianglesThrough g e : ℤ) - 2

def recomputeAll : Fin maxEdges → ℤ := curvatureForman g

def curvatureMinEdge (curvature : Fin maxEdges → ℤ) : Option (Fin maxEdges) × ℤ :=
  (List.finRange maxEdges).foldl (fun (found, minK) i =>
    if (g.edges i).isSome && (found.isNone || decide (curvature i < minK)) then
      (some i, curvature i)
    else (found, minK)) (none, 0)

/-- Rule 2 of `sotfs_graph_curvature_on_commit`: what is told to the anomaly service. -/
def lateralReport (exempt : UInt32 → Bool) (pid : UInt32) : Option (UInt32 × ℕ) :=
  let minRaw := (curvatureMinEdge g (recomputeAll g)).2 * 1000
  if minRaw < -1000 ∧ ¬ (pid == 0 || exempt pid) then some (pid, minRaw.natAbs) else none

variable {g} {i : Fin maxEdges} {e : Edge} {x : ℤ}

theorem touches_iff : e.touches x = true ↔ e.parentId = x ∨ e.childId = x := by
  simp [Edge.touches]

theorem joins_iff {z : ℤ} : e.joins x z = true ↔
    e.parentId = x ∧ e.childId = z ∨ e.parentId = z ∧ e.childId = x := by
  simp [Edge.joins]

theorem mem_edgesAt : i ∈ edgesAt g x ↔ (g.edges i).any (·.touches x) = true := by
  simp only [edgesAt, mem_filter, mem_univ, true_and]

theorem triangles_lt_degree (he : g.edges i = some e) (hx : e.parentId = x ∨ e.childId = x) :
    trianglesThrough g e < degree g x := by
  have hedge : ∀ z ∈ commonNeighbours g e, ∃ k ∈ (edgesAt g x).erase i,
      (g.edges k).any (·.joins x (toId z)) ∧ toId z ≠ x := by
    intro z hz
    simp only [commonNeighbours, mem_filter, mem_univ, true_and] at hz
    obtain ⟨hparent, hchild, -, hp, hc⟩ := hz
    obtain ⟨k, hk⟩ : joined g x (toId z) := by rcases hx with rfl | rfl <;> assumption
    refine ⟨k, mem_erase.mpr ⟨?_, mem_edgesAt.mpr ?_⟩, hk, by omega⟩
    · rintro rfl
      simp only [he, Option.any_some, joins_iff] at hk
      omega
    · obtain ⟨d, hd, hjoins⟩ := (Option.any_eq_true _ _).mp hk
      rw [joins_iff] at hjoins
      simp only [hd, Option.any_some, touches_iff]
      omega
  choose! f hf hjoins hne using hedge
  have hinj : Set.InjOn f (commonNeighbours g e) := by
    intro z hz z' hz' hsame
    have hjoin' := hjoins z' hz'
    obtain ⟨d, hd, hjoin⟩ := (Option.any_eq_true _ _).mp (hjoins z hz)
    rw [← hsame, hd, Option.any_some, joins_iff] at hjoin'
    have hz0 := hne z hz
    rw [joins_iff] at hjoin
    exact toId_injective (by omega)
  have hi : i ∈ edgesAt g x := by
    rw [mem_edgesAt, he, Option.any_some, touches_iff]
    exact hx
  exact (card_le_card_of_injOn f hf hinj).trans_lt (card_erase_lt_of_mem hi)

theorem forman_ge (he : g.edges i = some e) :
    (max (degree g e.parentId) (degree g e.childId) : ℤ) - 1 ≤ curvatureForman g i := by
  have hparent := triangles_lt_degree he (.inl rfl)
  have hchild := triangles_lt_degree he (.inr rfl)
  simp only [curvatureForman, he]
  omega

theorem recomputeAll_nonneg (g : Graph) (i : Fin maxEdges) : 0 ≤ recomputeAll g i := by
  cases he : g.edges i with
  | none => simp [recomputeAll, curvatureForman, he]
  | some e =>
    have hge := forman_ge he
    have hparent := triangles_lt_degree he (.inl rfl)
    exact le_trans (by omega) hge

theorem minEdge_nonneg {curvature : Fin maxEdges → ℤ} (h : ∀ i, 0 ≤ curvature i) :
    0 ≤ (curvatureMinEdge g curvature).2 := by
  refine List.foldlRecOn _ _ (motive := fun r : _ × ℤ => 0 ≤ r.2) le_rfl fun r hr i _ => ?_
  dsimp only
  split_ifs
  · exact h i
  · exact hr

/-- The curvature of an edge is at least the larger degree less one, and rule 2 never reports. -/
theorem lateral_never_reported (g : Graph) :
    (∀ i e, g.edges i = some e →
      (max (degree g e.parentId) (degree g e.childId) : ℤ) - 1 ≤ curvatureForman g i ∧
        0 ≤ curvatureForman g i) ∧
    0 ≤ (curvatureMinEdge g (recomputeAll g)).2 ∧
    ∀ exempt pid, lateralReport g exempt pid = none := by
  have hmin := minEdge_nonneg (g := g) (recomputeAll_nonneg g)
  refine ⟨fun i e he => ⟨forman_ge he, recomputeAll_nonneg g i⟩, hmin, fun exempt pid => ?_⟩
  simp only [lateralReport]
  rw [if_neg fun hlow => by omega]

end SotOs.Sotfs
