import Mathlib.Data.List.Permutation
import StageLineage.Manifest.Reader
import StageLineage.Proofs.Manifest.Graph
import StageLineage.Proofs.Segment

/-! What the reader of manifests has checked. A definition that was read from a document is well formed,
    and the stages of a well-formed definition can be gone through from the parents to the children. -/

namespace StageLineage

theorem bind_eq_ok_iff {ε α β : Type} {x : Except ε α} {f : α → Except ε β} {b : β} :
    x >>= f = .ok b ↔ ∃ a, x = .ok a ∧ f a = .ok b := by
  cases x with
  | error e => simp [bind, Except.bind]
  | ok a => simp [bind, Except.bind]

/-! ### Stages -/

@[simp] theorem Stage.mem_distinct_iff {x : String} : ∀ {l : List String}, x ∈ distinct l ↔ x ∈ l
  | [] => Iff.rfl
  | y :: l => by
    rw [distinct, List.mem_cons, List.mem_filter, mem_distinct_iff, List.mem_cons]
    by_cases hxy : x = y <;> simp [hxy]

theorem Stage.nodup_distinct : ∀ l : List String, (distinct l).Nodup
  | [] => .nil
  | y :: l => by
    rw [distinct, List.nodup_cons]
    exact ⟨by simp, (nodup_distinct l).filter _⟩

@[simp] theorem Stage.mem_distinctParents_iff {s : Stage} {p : String} : p ∈ s.distinctParents ↔ p ∈ s.parents :=
  mem_distinct_iff

namespace Definition
variable {d : Definition}

/-- What holds of every definition that was read from a document. -/
structure WellFormed (d : Definition) : Prop where
  ids_nodup : d.ids.Nodup
  validate_id : ∀ id ∈ d.ids, Segment.validate id = .ok ()
  parents_mem : ∀ s ∈ d.stages, ∀ p ∈ s.parents, p ∈ d.ids
  target_mem : ∀ s ∈ d.stages, ∀ t, s.completesWith = .artifactOf t → t ∈ d.ids
  order_perm : d.order.Perm d.ids
  parents_before : ∀ before id after, d.order = before ++ id :: after → ∀ p ∈ d.parents id, p ∈ before

theorem mem_ids_iff {id : String} : id ∈ d.ids ↔ ∃ s ∈ d.stages, s.id = id := List.mem_map

theorem stage?_eq_some {id : String} {s : Stage} (h : d.stage? id = some s) : s ∈ d.stages ∧ s.id = id :=
  ⟨List.mem_of_find?_eq_some h, by simpa using List.find?_some h⟩

theorem stage?_eq_none_iff {id : String} : d.stage? id = none ↔ id ∉ d.ids := by
  rw [stage?, List.find?_eq_none, mem_ids_iff]
  simp

theorem isSome_stage? {id : String} (h : id ∈ d.ids) : ∃ s, d.stage? id = some s :=
  Option.ne_none_iff_exists'.mp fun hnone => stage?_eq_none_iff.mp hnone h

theorem parents_of_stage? {id : String} {s : Stage} (h : d.stage? id = some s) : d.parents id = s.parents := by
  rw [parents, h]
  rfl

theorem mem_ids_of_parents {id p : String} (h : p ∈ d.parents id) : id ∈ d.ids := by
  by_contra hid
  simp [parents, stage?_eq_none_iff.mpr hid] at h

namespace WellFormed
variable (wf : d.WellFormed)
include wf

theorem mem_order_iff {id : String} : id ∈ d.order ↔ id ∈ d.ids := wf.order_perm.mem_iff

theorem order_nodup : d.order.Nodup := wf.order_perm.nodup_iff.mpr wf.ids_nodup

theorem stage?_of_mem {s : Stage} (hs : s ∈ d.stages) : d.stage? s.id = some s := by
  obtain ⟨s', hs'⟩ := isSome_stage? (mem_ids_iff.mpr ⟨s, hs, rfl⟩)
  obtain ⟨hmem, hid⟩ := stage?_eq_some hs'
  rw [hs', List.inj_on_of_nodup_map wf.ids_nodup hmem hs hid]

theorem isName {id : String} (h : id ∈ d.ids) : Path.IsName id := Segment.isName_of_validate (wf.validate_id id h)

theorem mem_of_parents {id p : String} (h : p ∈ d.parents id) : p ∈ d.ids := by
  cases hs : d.stage? id with
  | none => simp [parents, hs] at h
  | some s => exact wf.parents_mem s (stage?_eq_some hs).1 p (parents_of_stage? hs ▸ h)

theorem notMem_before {before after : List String} {id : String} (h : d.order = before ++ id :: after) :
    id ∉ before := by
  have hnodup := wf.order_nodup
  rw [h, List.nodup_append] at hnodup
  exact fun hmem => hnodup.2.2 _ hmem _ (List.mem_cons_self ..) rfl

/-- The stages up to some place in the order have their parents among themselves. -/
theorem parents_mem_before {before after : List String} (h : d.order = before ++ after) :
    ∀ id ∈ before, ∀ p ∈ d.parents id, p ∈ before := by
  intro id hid p hp
  obtain ⟨first, last, rfl⟩ := List.append_of_mem hid
  exact List.mem_append_left _ (wf.parents_before first id (last ++ after) (by simp [h]) p hp)

/-- No stage comes before one of its parents. -/
theorem order_pairwise : d.order.Pairwise fun id p => p ∉ d.parents id := by
  have along : ∀ after before, d.order = before ++ after → after.Pairwise fun id p => p ∉ d.parents id := by
    intro after
    induction after with
    | nil => exact fun _ _ => .nil
    | cons id after ih =>
      intro before h
      have hnodup := wf.order_nodup
      rw [h, List.nodup_append] at hnodup
      refine List.pairwise_cons.mpr ⟨fun p hp hparent => ?_, ih (before ++ [id]) (by simp [h])⟩
      exact hnodup.2.2 p (wf.parents_before before id after h p hparent) p (List.mem_cons_of_mem _ hp) rfl
  exact along d.order [] rfl

/-- What holds of a stage whenever it holds of its parents holds of every stage. -/
theorem parents_induction {motive : String → Prop}
    (step : ∀ id ∈ d.ids, (∀ p ∈ d.parents id, motive p) → motive id) : ∀ id ∈ d.ids, motive id := by
  -- Along the order: what was passed has the property, so the parents of the next stage have it.
  have along : ∀ after before, d.order = before ++ after → (∀ id ∈ before, motive id) → ∀ id ∈ d.order, motive id := by
    intro after
    induction after with
    | nil => exact fun before h hbefore => by simpa [h] using hbefore
    | cons id after ih =>
      intro before h hbefore
      refine ih (before ++ [id]) (by simp [h]) fun x hx => ?_
      rcases List.mem_append.mp hx with hx | hx
      · exact hbefore x hx
      · obtain rfl := List.mem_singleton.mp hx
        have hid : x ∈ d.order := by simp [h]
        exact step x (wf.mem_order_iff.mp hid) fun p hp => hbefore p (wf.parents_before before x after h p hp)
  exact fun id hid => along d.order [] rfl (fun x hx => nomatch hx) id (wf.mem_order_iff.mpr hid)

/-- Among some of the stages in their order, parents still come before their children. -/
theorem parents_before_filter {f : String → Bool} {before after : List String} {id p : String}
    (h : d.order.filter f = before ++ id :: after) (hp : p ∈ d.parents id) (hf : f p = true) : p ∈ before := by
  obtain ⟨first, last, horder, rfl, hlast⟩ := List.filter_eq_append_iff.mp h
  obtain ⟨passed, rest, rfl, hpassed, -, -⟩ := List.filter_eq_cons_iff.mp hlast
  have hmem := wf.parents_before (first ++ passed) id rest (by simp [horder]) p hp
  rcases List.mem_append.mp hmem with hmem | hmem
  · exact List.mem_filter.mpr ⟨hmem, hf⟩
  · exact absurd hf (hpassed p hmem)

end WellFormed

/-! ### Ancestors -/

/-- The stages above a stage are those that going from children to parents leads to. -/
def Above (d : Definition) : String → String → Prop := Relation.TransGen fun p id => p ∈ d.parents id

theorem WellFormed.mem_ancestors_iff (wf : d.WellFormed) {o id : String} : o ∈ d.ancestors id ↔ d.Above o id := by
  rw [ancestors, StageGraph.mem_reach_iff]
  constructor
  · intro h
    induction h with
    | seed hmem _ => exact .single hmem
    | step _ hmem _ ih => exact ih.head hmem
  · intro h
    induction h using Relation.TransGen.head_induction_on with
    | single hmem => exact .seed hmem (wf.mem_of_parents hmem)
    | head hmem _ ih => exact .step ih hmem (wf.mem_of_parents hmem)

theorem WellFormed.mem_of_above (wf : d.WellFormed) {o id : String} (h : d.Above o id) : o ∈ d.ids :=
  (StageGraph.mem_reach_iff.mp (wf.mem_ancestors_iff.mpr h)).mem

theorem WellFormed.not_above_self (wf : d.WellFormed) : ∀ id ∈ d.ids, ¬ d.Above id id := by
  refine wf.parents_induction fun id _ ih h => ?_
  cases h with
  | single hmem => exact ih id hmem (.single hmem)
  | tail habove hmem => exact ih _ hmem (.head hmem habove)

theorem WellFormed.ne_of_parents (wf : d.WellFormed) {id p : String} (h : p ∈ d.parents id) : p ≠ id := by
  rintro rfl
  exact wf.not_above_self p (mem_ids_of_parents h) (.single h)

theorem WellFormed.not_above_of_parents (wf : d.WellFormed) {id p : String} (h : p ∈ d.parents id) : ¬ d.Above id p :=
  fun habove => wf.not_above_self id (mem_ids_of_parents h) (habove.tail h)

/-- All that lies above a stage comes before it. -/
theorem WellFormed.above_before (wf : d.WellFormed) {o id : String} (h : d.Above o id) :
    ∀ {before after : List String}, d.order = before ++ id :: after → o ∈ before := by
  induction h with
  | single hmem => exact fun horder => wf.parents_before _ _ _ horder _ hmem
  | @tail y id _ hmem ih =>
    intro before after horder
    obtain ⟨first, last, rfl⟩ := List.append_of_mem (wf.parents_before before id after horder y hmem)
    have hsplit : d.order = first ++ y :: (last ++ id :: after) := by simp [horder]
    exact List.mem_append_left _ (ih hsplit)

/-! ### Reachability -/

/-- A stage can be reached from a root by going from parents to children. -/
inductive Reachable (d : Definition) : String → Prop
  | root {s} : s ∈ d.stages → s.isRoot = true → Reachable d s.id
  | child {p s} : Reachable d p → s ∈ d.stages → p ∈ s.parents → Reachable d s.id

/-- Every stage can be reached if none has an empty list of parents. -/
theorem WellFormed.reachable_of_forall (wf : d.WellFormed) (h : ∀ s ∈ d.stages, s.previous ≠ some []) :
    ∀ id ∈ d.ids, d.Reachable id := by
  refine wf.parents_induction fun id hid ih => ?_
  obtain ⟨s, hs, rfl⟩ := mem_ids_iff.mp hid
  rw [parents_of_stage? (wf.stage?_of_mem hs)] at ih
  cases hprevious : s.previous with
  | none => exact .root hs (by rw [Stage.isRoot, hprevious]; rfl)
  | some parents =>
    cases parents with
    | nil => exact absurd hprevious (h s hs)
    | cons p parents =>
      have hp : p ∈ s.parents := by simp [Stage.parents, hprevious]
      exact .child (ih p hp) hs hp

theorem mem_children_iff {p id : String} : id ∈ d.children p ↔ ∃ s ∈ d.stages, p ∈ s.parents ∧ s.id = id := by
  simp [children, and_assoc]

theorem WellFormed.mem_children_iff_mem_parents (wf : d.WellFormed) {p id : String} :
    id ∈ d.children p ↔ p ∈ d.parents id := by
  rw [mem_children_iff]
  constructor
  · rintro ⟨s, hs, hps, rfl⟩
    rwa [parents_of_stage? (wf.stage?_of_mem hs)]
  · intro h
    obtain ⟨s, hs⟩ := isSome_stage? (mem_ids_of_parents h)
    rw [parents_of_stage? hs] at h
    exact ⟨s, (stage?_eq_some hs).1, h, (stage?_eq_some hs).2⟩

theorem WellFormed.mem_descendants_iff (wf : d.WellFormed) {o id : String} : id ∈ d.descendants o ↔ d.Above o id := by
  rw [descendants, StageGraph.mem_reach_iff]
  constructor
  · intro h
    induction h with
    | seed hmem _ => exact .single (wf.mem_children_iff_mem_parents.mp hmem)
    | step _ hmem _ ih => exact ih.tail (wf.mem_children_iff_mem_parents.mp hmem)
  · intro h
    induction h with
    | single hmem => exact .seed (wf.mem_children_iff_mem_parents.mpr hmem) (mem_ids_of_parents hmem)
    | tail _ hmem ih => exact .step ih (wf.mem_children_iff_mem_parents.mpr hmem) (mem_ids_of_parents hmem)

theorem mem_rootIds_iff {id : String} : id ∈ d.rootIds ↔ ∃ s ∈ d.stages, s.isRoot = true ∧ s.id = id := by
  simp [rootIds, and_assoc]

theorem Reachable.of_mem_descendants {p id : String} (hp : d.Reachable p) (h : id ∈ d.descendants p) :
    d.Reachable id := by
  replace h := StageGraph.mem_reach_iff.mp h
  induction h with
  | seed hmem _ =>
    obtain ⟨s, hs, hps, rfl⟩ := mem_children_iff.mp hmem
    exact .child hp hs hps
  | step _ hmem _ ih =>
    obtain ⟨s, hs, hps, rfl⟩ := mem_children_iff.mp hmem
    exact .child ih hs hps

theorem mem_descendants_of_parents {root p : String} {s : Stage} (hs : s ∈ d.stages) (hp : p ∈ s.parents)
    (h : p = root ∨ p ∈ d.descendants root) : s.id ∈ d.descendants root := by
  have hchild : s.id ∈ d.children p := mem_children_iff.mpr ⟨s, hs, hp, rfl⟩
  have hid : s.id ∈ d.ids := mem_ids_iff.mpr ⟨s, hs, rfl⟩
  refine StageGraph.mem_reach_iff.mpr ?_
  rcases h with rfl | h
  · exact .seed hchild hid
  · exact .step (StageGraph.mem_reach_iff.mp h) hchild hid

/-- The search for reachable stages finds all of them and nothing else. -/
theorem mem_reachable_iff {id : String} : id ∈ d.reachable ↔ d.Reachable id := by
  simp only [reachable, List.mem_filter, List.contains_iff_mem, List.mem_flatMap]
  constructor
  · rintro ⟨-, root, hroot, hid⟩
    obtain ⟨s, hs, hsroot, rfl⟩ := mem_rootIds_iff.mp hroot
    rcases List.mem_cons.mp hid with rfl | hid
    · exact .root hs hsroot
    · exact (Reachable.root hs hsroot).of_mem_descendants hid
  · intro h
    induction h with
    | root hs hroot =>
      exact ⟨mem_ids_iff.mpr ⟨_, hs, rfl⟩, _, mem_rootIds_iff.mpr ⟨_, hs, hroot, rfl⟩, List.mem_cons_self ..⟩
    | child _ hs hp ih =>
      obtain ⟨-, root, hroot, hmem⟩ := ih
      exact ⟨mem_ids_iff.mpr ⟨_, hs, rfl⟩, root, hroot,
        List.mem_cons_of_mem _ (mem_descendants_of_parents hs hp (List.mem_cons.mp hmem))⟩

end Definition

/-! ### Reading -/

theorem StageGraph.mem_parents_ofStages {stages : List Stage} {p id : String} :
    p ∈ (ofStages stages).parents id ↔ ∃ s ∈ stages, s.id = id ∧ p ∈ s.parents := by
  rw [mem_parents_iff, ofStages, List.mem_flatMap]
  constructor
  · rintro ⟨s, hs, he⟩
    obtain ⟨q, hq, he⟩ := List.mem_map.mp he
    cases he
    exact ⟨s, hs, rfl, hq⟩
  · rintro ⟨s, hs, rfl, hp⟩
    exact ⟨s, hs, List.mem_map.mpr ⟨p, hp, rfl⟩⟩

namespace Manifest

theorem validate_of_stage {index : Nat} {entry : Json} {s : Stage} (h : stage index entry = .ok s) :
    Segment.validate s.id = .ok () := by
  obtain ⟨fields, -, h⟩ := bind_eq_ok_iff.mp h
  obtain ⟨id, hid, h⟩ := bind_eq_ok_iff.mp h
  have hs : s.id = id := by
    iterate 12 obtain ⟨_, -, h⟩ := bind_eq_ok_iff.mp h
    cases h
    rfl
  rw [hs]
  unfold stageId at hid
  split at hid
  · cases hid
  · split at hid
    · next hvalid =>
      cases hid
      exact hvalid
    · cases hid
  · cases hid

/-- Stages are read with distinct ids that passed their check. -/
theorem ids_of_stagesAfter {before : List Stage} {entries : List Json} {stages : List Stage}
    (h : stagesAfter before entries = .ok stages) (hnodup : (before.map (·.id)).Nodup)
    (hvalid : ∀ s ∈ before, Segment.validate s.id = .ok ()) :
    (stages.map (·.id)).Nodup ∧ ∀ s ∈ stages, Segment.validate s.id = .ok () := by
  induction entries generalizing before with
  | nil =>
    cases h
    exact ⟨hnodup, hvalid⟩
  | cons entry entries ih =>
    simp only [stagesAfter] at h
    split at h
    · cases h
    · next s hs =>
      split at h
      · cases h
      · next hfresh =>
        refine ih h ?_ fun x hx => ?_
        · rw [List.map_append, List.nodup_append]
          refine ⟨hnodup, by simp, fun a ha b hb hab => ?_⟩
          obtain ⟨t, ht, rfl⟩ := List.mem_map.mp ha
          obtain rfl := List.mem_singleton.mp hb
          have := List.findIdx?_eq_none_iff.mp hfresh t ht
          simp [hab] at this
        · rcases List.mem_append.mp hx with hx | hx
          · exact hvalid x hx
          · obtain rfl := List.mem_singleton.mp hx
            exact validate_of_stage hs

/-- The stages that a checked stage names are stages. -/
theorem mem_of_checkReferences {ids : List String} {s : Stage} (h : checkReferences ids s = .ok ()) :
    (∀ p ∈ s.parents, p ∈ ids) ∧ ∀ t, s.completesWith = .artifactOf t → t ∈ ids := by
  unfold checkReferences at h
  split at h
  · cases h
  · next hparents =>
    refine ⟨by simpa using List.find?_eq_none.mp hparents, fun t ht => ?_⟩
    simp only [ht] at h
    split at h
    · assumption
    · cases h

theorem forM_eq_ok {ε α : Type} {f : α → Except ε Unit} {l : List α} (h : l.forM f = .ok ()) :
    ∀ x ∈ l, f x = .ok () := by
  induction l with
  | nil => exact fun x hx => nomatch hx
  | cons y l ih =>
    rw [List.forM_eq_forM, List.forM_cons] at h
    obtain ⟨_, hy, htail⟩ := bind_eq_ok_iff.mp h
    intro x hx
    rcases List.mem_cons.mp hx with rfl | hx
    · exact hy
    · exact ih htail x hx

/-- The header and the stages of a document that passes every check but the one for cycles. -/
def checked : Json → Except ManifestError (Header × List Stage)
  | .object root => do
    let header ← header root
    let stages ← stagesAfter [] (← entries root)
    stages.forM (checkReferences (stages.map (·.id)))
    return (header, stages)
  | _ => .error .notAnObject

/-- The check for cycles comes last. -/
theorem ofDocument_eq (document : Json) : ofDocument document = checked document >>= fun c =>
    match (StageGraph.ofStages c.2).order with
    | .ok order => .ok ⟨c.1, c.2, order⟩
    | .error stage => .error (.cycle stage) := by
  cases document with
  | object root =>
    simp only [ofDocument, checked, orderOf, bind_assoc, pure_bind]
    refine bind_congr fun header => bind_congr fun entries => bind_congr fun stages => bind_congr fun _ => ?_
    cases (StageGraph.ofStages stages).order <;> rfl
  | _ => rfl

theorem ofDocument_eq_ok {document : Json} {c : Header × List Stage} {order : List String}
    (h : checked document = .ok c) (horder : (StageGraph.ofStages c.2).order = .ok order) :
    ofDocument document = .ok ⟨c.1, c.2, order⟩ := by
  rw [ofDocument_eq, h]
  simp only [bind, Except.bind, horder]

/-- What was accepted passed the checks, and its order is the one of its graph. -/
theorem checked_of_ofDocument {document : Json} {d : Definition} (h : ofDocument document = .ok d) :
    checked document = .ok (d.header, d.stages) ∧ (StageGraph.ofStages d.stages).order = .ok d.order := by
  rw [ofDocument_eq] at h
  obtain ⟨c, hc, h⟩ := bind_eq_ok_iff.mp h
  split at h
  · next order horder =>
    cases h
    exact ⟨hc, horder⟩
  · cases h

/-- Stages that passed the checks have distinct ids and name only each other. -/
theorem stages_of_checked {document : Json} {c : Header × List Stage} (h : checked document = .ok c) :
    (c.2.map (·.id)).Nodup ∧ (∀ s ∈ c.2, Segment.validate s.id = .ok ()) ∧
      ∀ s ∈ c.2, checkReferences (c.2.map (·.id)) s = .ok () := by
  unfold checked at h
  split at h
  · obtain ⟨header, -, h⟩ := bind_eq_ok_iff.mp h
    obtain ⟨entries, -, h⟩ := bind_eq_ok_iff.mp h
    obtain ⟨stages, hstages, h⟩ := bind_eq_ok_iff.mp h
    obtain ⟨_, hrefs, h⟩ := bind_eq_ok_iff.mp h
    cases h
    obtain ⟨hnodup, hvalid⟩ := ids_of_stagesAfter hstages .nil fun s hs => nomatch hs
    exact ⟨hnodup, hvalid, forM_eq_ok hrefs⟩
  · cases h

/-- A definition that was read from a document is well formed. -/
theorem wellFormed_of_ofDocument {document : Json} {d : Definition} (h : ofDocument document = .ok d) :
    d.WellFormed := by
  obtain ⟨hchecked, horder⟩ := checked_of_ofDocument h
  obtain ⟨hnodup, hvalid, hrefs⟩ := stages_of_checked hchecked
  have hparents : ∀ s ∈ d.stages, ∀ p ∈ s.parents, p ∈ d.ids := fun s hs => (mem_of_checkReferences (hrefs s hs)).1
  refine ⟨hnodup, ?_, hparents, fun s hs => (mem_of_checkReferences (hrefs s hs)).2, ?_, ?_⟩
  · intro id hid
    obtain ⟨s, hs, rfl⟩ := List.mem_map.mp hid
    exact hvalid s hs
  · refine StageGraph.perm_of_order horder fun id _ p hp => ?_
    obtain ⟨s, hs, -, hp⟩ := StageGraph.mem_parents_ofStages.mp hp
    exact hparents s hs p hp
  · intro before id after hsplit p hp
    refine StageGraph.mem_of_order (hsplit ▸ horder) p (StageGraph.mem_parents_ofStages.mpr ?_)
    obtain ⟨s, hs⟩ := Definition.isSome_stage? (Definition.mem_ids_of_parents hp)
    obtain ⟨hmem, hid⟩ := Definition.stage?_eq_some hs
    exact ⟨s, hmem, hid, Definition.parents_of_stage? hs ▸ hp⟩

/-! ### A manifest -/

/-- The entry of a stage that says no more than its parents and whether it is optional. -/
def plainEntry (id : String) (previous : List String) (optional : Bool) : Json :=
  .object [("id", .string id), ("optional", .bool optional),
    ("previous", if previous = [] then .null else .array (previous.map .string)),
    ("produces", .array [.string "text"])]

/-- A manifest in which the optional stage `o` moves the stage `a` when it appears, but not the stage `s` below. -/
def forked : Json :=
  .object [("name", .string "Forked"), ("persona", .string "forked"),
    ("stages", .array [plainEntry "x" [] false, plainEntry "o" ["x"] true, plainEntry "a" ["x", "o"] false,
      plainEntry "s" ["a", "x"] false])]

end Manifest

def Stage.plain (id : String) (previous : List String) (optional : Bool) : Stage :=
  { id, name := id, phase := none, previous := if previous = [] then none else some previous, optional,
    produces := ["text"], parameters := .object [], instruction := "", commands := [], handler := none,
    skipWarning := none, narrative := none, blueprint := [], completesWith := .ownArtifact }

/-- The definition that `Manifest.forked` describes. -/
def Definition.forked : Definition where
  header := ⟨"Forked", "forked", "", none, "1.0.0", false, []⟩
  stages := [.plain "x" [] false, .plain "o" ["x"] true, .plain "a" ["x", "o"] false, .plain "s" ["a", "x"] false]
  order := ["x", "o", "a", "s"]

theorem Manifest.ofDocument_forked : ofDocument forked = .ok .forked := by cbv

end StageLineage
