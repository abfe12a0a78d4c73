import StageLineage.Proofs.LineagePath
import StageLineage.Proofs.Manifest.WellFormed
import StageLineage.Topology

/-! The layout of a well-formed definition. It always exists, and it keeps of each stage what the
    definition says: the parents without repetitions and whether the stage is optional. -/

namespace StageLineage

def Definition.isOptional (d : Definition) (id : String) : Bool := (d.stage? id).any (·.optional)

/-- A layout keeps what the definition says about its stage. -/
structure StageLayout.IsOf (d : Definition) (l : StageLayout) : Prop where
  segment_eq : l.segment = .stage l.path.stage
  parents_eq : l.parents = Stage.distinct (d.parents l.path.stage)
  optional_eq : l.optional = d.isOptional l.path.stage

namespace Topology
variable {d : Definition} {t : Topology}

/-- The directory in which the directory of a stage is made, given those of the parents that take part. -/
def above : List (String × LineagePath) → LineagePath
  | [] => .root
  | [(_, dir)] => dir
  | (first, dir) :: rest =>
    (rest.foldl (fun common p => common.common p.2) dir).child
      (.join (Segment.sortedIds (first :: rest.map (·.1))))

/-- Distinct parents whose ids passed their check leave a place for each of their children. -/
theorem place_eq_ok (id : String) (segment : Segment) {parents : List (String × LineagePath)}
    (hnodup : (parents.map (·.1)).Nodup) (hvalid : ∀ p ∈ parents, Segment.validate p.1 = .ok ()) :
    place id segment parents = .ok ((above parents).child segment) := by
  match parents with
  | [] => rfl
  | [(_, _)] => rfl
  | (first, dir) :: second :: rest =>
    have hjoin := Segment.ofParents_eq_ok hnodup (by simp) fun id hid => by
      obtain ⟨p, hp, rfl⟩ := List.mem_map.mp hid
      exact hvalid p hp
    simp only [List.map_cons] at hjoin
    simp only [place, List.map_cons, hjoin, above]

/-- Parents with names stand below directories with names, and leave one for their children. -/
theorem named_above {parents : List (String × LineagePath)} (hnodup : (parents.map (·.1)).Nodup)
    (hnamed : ∀ p ∈ parents, Path.IsName p.1 ∧ p.2.Named) : (above parents).Named := by
  match parents with
  | [] => exact LineagePath.named_root
  | [(_, dir)] => exact (hnamed _ (List.mem_cons_self ..)).2
  | (first, dir) :: second :: rest =>
    have hbase : ∀ (more : List (String × LineagePath)) (dir : LineagePath), dir.Named →
        (more.foldl (fun common p => common.common p.2) dir).Named := by
      intro more
      induction more with
      | nil => exact fun _ h => h
      | cons p more ih => exact fun dir h => ih _ (h.common p.2)
    refine (hbase _ dir (hnamed _ (List.mem_cons_self ..)).2).child (Segment.isName_dirName_join fun id hid => ?_)
    obtain ⟨p, hp, rfl⟩ := List.mem_map.mp ((Segment.sortedIds_perm hnodup).mem_iff.mp hid)
    exact (hnamed p hp).1

/-- What is laid out for the stages of a list in their order. -/
structure Describes (d : Definition) (ids : List String) (stages : List StageLayout) : Prop where
  ids_eq : stages.map (·.path.stage) = ids
  isOf : ∀ l ∈ stages, l.IsOf d

theorem find?_eq_some_iff {stages : List StageLayout} {id : String} :
    (∃ l, find? stages id = some l) ↔ id ∈ stages.map (·.path.stage) := by
  rw [← Option.isSome_iff_exists, find?, List.find?_isSome]
  simp

theorem stage_of_find? {stages : List StageLayout} {id : String} {l : StageLayout} (h : find? stages id = some l) :
    l ∈ stages ∧ l.path.stage = id :=
  ⟨List.mem_of_find?_eq_some h, by simpa using List.find?_some h⟩

/-- Below parents that are laid out a stage can be laid out. -/
theorem layout_eq_ok (wf : d.WellFormed) {placed : List StageLayout} {before : List String}
    (h : Describes d before placed) {id : String} (hid : id ∈ d.ids) (hparents : ∀ p ∈ d.parents id, p ∈ before) :
    ∃ l, layout d placed id = .ok l ∧ l.path.stage = id ∧ l.IsOf d := by
  obtain ⟨s, hs⟩ := Definition.isSome_stage? hid
  have hsparents := Definition.parents_of_stage? hs
  -- Each parent is found, with the directory that it was given.
  have hdirs : ∀ parents : List String, (∀ p ∈ parents, p ∈ before) →
      ∃ dirs, parents.mapM (parentDir placed) = .ok dirs ∧ dirs.map (·.1) = parents := by
    intro parents
    induction parents with
    | nil => exact fun _ => ⟨[], rfl, rfl⟩
    | cons p parents ih =>
      intro hmem
      obtain ⟨dirs, hdirs, hmap⟩ := ih fun q hq => hmem q (List.mem_cons_of_mem _ hq)
      obtain ⟨l, hl⟩ := find?_eq_some_iff.mpr (h.ids_eq ▸ hmem p (List.mem_cons_self ..))
      refine ⟨(p, l.path.dir) :: dirs, ?_, by simp [hmap]⟩
      simp [parentDir, hl, hdirs, bind, Except.bind, pure, Except.pure]
  obtain ⟨dirs, hdirs, hmap⟩ := hdirs s.distinctParents fun p hp =>
    hparents p (hsparents ▸ Stage.mem_distinctParents_iff.mp hp)
  have hplace := place_eq_ok id (.stage id) (hmap ▸ Stage.nodup_distinct _ : (dirs.map (·.1)).Nodup) fun p hp => by
    have hp : p.1 ∈ s.distinctParents := hmap ▸ List.mem_map_of_mem hp
    have hp : p.1 ∈ d.parents id := hsparents ▸ Stage.mem_distinctParents_iff.mp hp
    exact wf.validate_id _ (wf.mem_of_parents hp)
  refine ⟨⟨.stage id, s.distinctParents, s.optional, ⟨id, (above dirs).child (.stage id)⟩⟩, ?_, rfl, rfl, ?_, ?_⟩
  · simp [layout, hs, Segment.ofStage, wf.validate_id id hid, hdirs, hplace, bind, Except.bind, pure, Except.pure]
  · show Stage.distinct s.parents = Stage.distinct (d.parents id)
    rw [hsparents]
  · simp [Definition.isOptional, hs]

theorem resolve_eq_ok (wf : d.WellFormed) : ∃ t, resolve d = .ok t ∧ Describes d d.order t.stages := by
  have hall : ∀ after before placed, d.order = before ++ after → Describes d before placed →
      ∃ stages, layoutAll d placed after = .ok stages ∧ Describes d d.order stages := by
    intro after
    induction after with
    | nil => exact fun before placed horder h => ⟨placed, rfl, by rwa [horder, List.append_nil]⟩
    | cons id after ih =>
      intro before placed horder h
      have hid : id ∈ d.ids := wf.mem_order_iff.mp (by simp [horder])
      obtain ⟨l, hl, hstage, hof⟩ := layout_eq_ok wf h hid (wf.parents_before before id after horder)
      obtain ⟨stages, hstages, hdescribes⟩ := ih (before ++ [id]) (placed ++ [l]) (by simp [horder])
        { ids_eq := by simp [h.ids_eq, hstage]
          isOf := fun x hx => by
            rcases List.mem_append.mp hx with hx | hx
            · exact h.isOf x hx
            · rwa [List.mem_singleton.mp hx] }
      exact ⟨stages, by simp [layoutAll, hl, hstages, bind, Except.bind], hdescribes⟩
  obtain ⟨stages, hstages, hdescribes⟩ := hall d.order [] [] rfl ⟨rfl, fun l hl => nomatch hl⟩
  exact ⟨⟨stages⟩, by simp [resolve, hstages, bind, Except.bind, pure, Except.pure], hdescribes⟩

theorem Describes.isOptional_eq (wf : d.WellFormed) (h : Describes d d.order t.stages) (id : String) :
    t.isOptional id = d.isOptional id := by
  unfold isOptional
  cases hl : find? t.stages id with
  | some l =>
    obtain ⟨hmem, rfl⟩ := stage_of_find? hl
    exact (h.isOf l hmem).optional_eq
  | none =>
    have hid : id ∉ d.ids := by
      rw [← wf.mem_order_iff, ← h.ids_eq, ← find?_eq_some_iff, hl]
      simp
    simp [Definition.isOptional, Definition.stage?_eq_none_iff.mpr hid]

end Topology
end StageLineage
