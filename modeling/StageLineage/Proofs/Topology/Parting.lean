import StageLineage.Proofs.Nesting

/-! Where the directories of parents part. A stage with several parents stands below a join that is made at the greatest
    path which begins the directories of all of them, and that path depends on the set of these directories alone. -/

namespace StageLineage.Topology

/-- The common part of the directories of some parents, one of which is given apart. -/
def parting (p : String × LineagePath) (rest : List (String × LineagePath)) : LineagePath :=
  rest.foldl (fun common q => common.common q.2) p.2

/-- Several parents are placed below where their directories part. -/
theorem place_of_ofParents {id : String} {segment join : Segment} {p : String × LineagePath}
    {rest : List (String × LineagePath)} (hrest : rest ≠ [])
    (hjoin : Segment.ofParents ((p :: rest).map (·.1)) = .ok join) :
    place id segment (p :: rest) = .ok (((parting p rest).child join).child segment) := by
  obtain ⟨q, rest, rfl⟩ := List.exists_cons_of_ne_nil hrest
  rw [List.map_cons] at hjoin
  simp only [place, hjoin]
  rfl

/-- Being a beginning is a partial order of paths, in which the common part of two paths is their meet. The directories
    of parents therefore part at the meet of all of them, whatever their order is and however often one is repeated. -/
theorem parting_isGLB :
    IsPartialOrder LineagePath (fun p q => p.isPrefixOf q = true) ∧
    (∀ p q : LineagePath, p ≤ q ↔ p.isPrefixOf q = true) ∧
    (∀ p q : LineagePath, (p.common q).isPrefixOf p = true ∧ (p.common q).isPrefixOf q = true ∧
      ∀ r : LineagePath, r.isPrefixOf p = true → r.isPrefixOf q = true → r.isPrefixOf (p.common q) = true) ∧
    ∀ (p : String × LineagePath) (rest : List (String × LineagePath)),
      IsGLB {dir | dir ∈ (p :: rest).map (·.2)} (parting p rest) ∧
      (∀ x ∈ p :: rest, (parting p rest).isPrefixOf x.2 = true) ∧
      (∀ q rest', (∀ dir, dir ∈ (q :: rest').map (·.2) ↔ dir ∈ (p :: rest).map (·.2)) →
        parting q rest' = parting p rest) ∧
      ∀ id segment join, rest ≠ [] → Segment.ofParents ((p :: rest).map (·.1)) = .ok join →
        place id segment (p :: rest) = .ok (((parting p rest).child join).child segment) := by
  refine ⟨inferInstanceAs (IsPartialOrder LineagePath (· ≤ ·)), fun _ _ => Iff.rfl, fun p q => ?_, fun p rest => ?_⟩
  · obtain ⟨hp, hq⟩ := LineagePath.le_common_iff.mp (le_refl (p.common q))
    exact ⟨hp, hq, fun r hrp hrq => LineagePath.le_common_iff.mpr ⟨hrp, hrq⟩⟩
  · have hmeet := isGLB_foldl_common p rest
    refine ⟨hmeet, fun x hx => hmeet.1 (List.mem_map_of_mem hx), fun q rest' => foldl_common_congr, ?_⟩
    exact fun id segment join => place_of_ofParents

def leftParent : String × LineagePath := ("left", ⟨[.stage "r", .stage "left"]⟩)

def deepParent : String × LineagePath := ("deep", ⟨[.stage "r", .stage "right", .stage "deep"]⟩)

/-- Two parents part below the stage above both, in whatever order they are given, also if one is given twice. -/
theorem parting_deep :
    IsGLB {dir | dir ∈ [leftParent, deepParent].map (·.2)} ⟨[.stage "r"]⟩ ∧
    parting deepParent [leftParent, deepParent] = ⟨[.stage "r"]⟩ ∧
    place "merge" (.stage "merge") [leftParent, deepParent] =
      .ok ⟨[.stage "r", .join ["deep", "left"], .stage "merge"]⟩ := by
  obtain ⟨-, -, -, hparting⟩ := parting_isGLB
  obtain ⟨hmeet, -, hcongr, hplace⟩ := hparting leftParent [deepParent]
  have hbase : parting leftParent [deepParent] = ⟨[.stage "r"]⟩ := by decide
  have hjoin : Segment.ofParents ([leftParent, deepParent].map (·.1)) = .ok (.join ["deep", "left"]) := by cbv
  have hsame : ∀ dir, dir ∈ [deepParent, leftParent, deepParent].map (·.2) ↔ dir ∈ [leftParent, deepParent].map (·.2) := by
    simp
  refine ⟨hbase ▸ hmeet, (hcongr deepParent [leftParent, deepParent] hsame).trans hbase, ?_⟩
  rw [hplace "merge" (.stage "merge") (.join ["deep", "left"]) (by simp) hjoin, hbase]
  rfl

end StageLineage.Topology
