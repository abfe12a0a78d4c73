import StageLineage.Proofs.Lineage.Apart
import StageLineage.Proofs.Lineage.Total

/-! The default layout as the lineage of a session that lacks nothing. A scan places a stage where the default layout
    places it, unless an optional stage above it is absent; where no stage is optional, the two are one. -/

namespace StageLineage

/-- The default layout is no more than where its stages stand. -/
theorem Topology.Describes.paths_eq {d : Definition} {t : Topology} (wf : d.WellFormed)
    (h : Describes d d.order t.stages) : t.paths = d.order.map fun id => ⟨id, t.dir id⟩ := by
  have hnodup := wf.order_nodup
  rw [← h.ids_eq] at hnodup ⊢
  rw [paths, List.map_map]
  refine List.map_congr_left fun l hl => ?_
  obtain ⟨x, hx⟩ := find?_eq_some_iff.mpr (List.mem_map_of_mem hl)
  obtain ⟨hmem, hstage⟩ := stage_of_find? hx
  obtain rfl := List.inj_on_of_nodup_map hnodup hmem hl hstage
  simp only [Function.comp_apply, dir, path?, hx, Option.map_some, Option.getD_some]

namespace Lineage
variable {d : Definition} {t : Topology} {l : Lineage} {id : String}

/-- Every optional ancestor of a stage is present. -/
def CompleteAbove (d : Definition) (l : Lineage) (id : String) : Prop :=
  ∀ o ∈ d.ancestors id, d.isOptional o = true → l.isPresent o = true

theorem CompleteAbove.parent (wf : d.WellFormed) (h : CompleteAbove d l id) {p : String} (hp : p ∈ d.parents id) :
    CompleteAbove d l p := fun o ho =>
  h o (wf.mem_ancestors_iff.mpr ((wf.mem_ancestors_iff.mp ho).tail hp))

/-- All parents take part if the optional ones are present. -/
theorem effective_eq_distinct (h : ∀ p ∈ d.parents id, d.isOptional p = true → l.isPresent p = true) :
    l.effective d id = Stage.distinct (d.parents id) := by
  have hunskipped : l.unskipped d id = Stage.distinct (d.parents id) := by
    refine List.filter_eq_self.mpr fun p hp => ?_
    cases hoptional : d.isOptional p with
    | false => rfl
    | true => exact h p (Stage.mem_distinct_iff.mp hp) hoptional
  rw [effective_eq, hunskipped]
  split <;> rfl

/-- A stage of which no optional ancestor is absent stands in its default place. -/
theorem Laid.dir_eq_default (wf : d.WellFormed) (ht : Topology.resolve d = .ok t) (h : Laid d d.order l) :
    ∀ id ∈ d.ids, CompleteAbove d l id → l.dir id = t.dir id := by
  refine wf.parents_induction fun id hid ih hcomplete => ?_
  have hparents : ∀ p ∈ d.parents id, l.dir p = t.dir p := fun p hp => ih p hp (hcomplete.parent wf hp)
  have heffective := effective_eq_distinct fun p hp =>
    hcomplete p (wf.mem_ancestors_iff.mpr (.single hp))
  rw [h.dir_eq id (wf.mem_order_iff.mpr hid), (Topology.nests wf ht).dir_eq id hid, place, heffective]
  congr 2
  exact List.map_congr_left fun p hp => by rw [hparents p (Stage.mem_distinct_iff.mp hp)]

theorem completeAbove_of_mandatory (wf : d.WellFormed) (h : ∀ s ∈ d.stages, s.optional = false) (l : Lineage)
    (id : String) : CompleteAbove d l id := by
  intro o ho hoptional
  obtain ⟨s, hs⟩ := Definition.isSome_stage? (wf.mem_of_above (wf.mem_ancestors_iff.mp ho))
  rw [Definition.isOptional, hs, Option.any_some, h s (Definition.stage?_eq_some hs).1] at hoptional
  cases hoptional

/-- Whatever was read from a document, and whatever a store answers while it is scanned: the scan gives each stage of
    which no ancestor is both optional and absent its default path; and where no stage is optional, it gives all stages
    the paths of the default layout, in the same order. -/
theorem path_eq_default {document : Json} (h : Manifest.ofDocument document = .ok d) :
    ∃ t, Topology.resolve d = .ok t ∧
      ∀ {σ : Type} (ask : Path → StateM σ Bool) (root : Path) (s : σ), ∃ l s', (scan ask t root).run s = (.ok l, s') ∧
        (∀ id ∈ d.ids, CompleteAbove d l id → ∃ p, t.path? id = some p ∧ l.path? id = some p) ∧
        ((∀ s ∈ d.stages, s.optional = false) → l.paths = t.paths) := by
  have wf := Manifest.wellFormed_of_ofDocument h
  obtain ⟨t, ht, hdescribes⟩ := Topology.resolve_eq_ok wf
  refine ⟨t, ht, fun ask root s => ?_⟩
  obtain ⟨l, s', hscan, hl⟩ := exists_laid_scan wf hdescribes ask root s
  refine ⟨l, s', hscan, fun id hid hcomplete => ⟨_, Topology.path?_eq_some wf hdescribes hid, ?_⟩, fun hmandatory => ?_⟩
  · rw [← hl.dir_eq_default wf ht id hid hcomplete]
    exact path?_eq_some (hl.ids_eq ▸ wf.mem_order_iff.mpr hid)
  · rw [hl.paths_eq wf, hdescribes.paths_eq wf]
    refine List.map_congr_left fun id hid => ?_
    rw [hl.dir_eq_default wf ht id (wf.mem_order_iff.mp hid) (completeAbove_of_mandatory wf hmandatory l id)]

/-- Where the optional stage `o` is present, the stage `s` at the end of the fork stands where the default layout has
    it. A manifest without an optional stage is scanned to its default layout. -/
theorem default_forked_buried : Manifest.ofDocument Manifest.forked = .ok .forked ∧
    Manifest.ofDocument Manifest.buried = .ok .buried ∧ (∀ s ∈ Definition.buried.stages, s.optional = false) ∧
    (∃ t l p, Topology.resolve .forked = .ok t ∧ (scan (asking fun (_ : Unit) _ => true) t ⟨"r"⟩).run () = (.ok l, ()) ∧
      "o" ∈ Definition.forked.ancestors "s" ∧ CompleteAbove .forked l "s" ∧
      t.path? "s" = some p ∧ l.path? "s" = some p) ∧
    ∃ t l, Topology.resolve .buried = .ok t ∧
      (scan (asking MemoryStore.fileExists) t ⟨"r"⟩).run .empty = (.ok l, .empty) ∧ l.paths = t.paths := by
  have hmandatory : ∀ s ∈ Definition.buried.stages, s.optional = false := by decide
  have hancestors : Definition.forked.ancestors "s" = ["a", "x", "o"] := by cbv
  refine ⟨Manifest.ofDocument_forked, Manifest.ofDocument_buried, hmandatory, ?_, ?_⟩
  · obtain ⟨t, ht, h⟩ := path_eq_default Manifest.ofDocument_forked
    obtain ⟨l, _, hscan, hpaths, -⟩ := h (asking fun (_ : Unit) _ => true) ⟨"r"⟩ ()
    obtain ⟨-, hl⟩ := realizes_of_scan (Manifest.wellFormed_of_ofDocument Manifest.ofDocument_forked) ht hscan
    have hcomplete : CompleteAbove .forked l "s" := fun o ho _ => by
      rw [hancestors] at ho
      exact hl.present_eq o (by revert o; decide)
    obtain ⟨p, hp, hp'⟩ := hpaths "s" (by decide) hcomplete
    exact ⟨t, l, p, ht, hscan, by rw [hancestors]; decide, hcomplete, hp, hp'⟩
  · obtain ⟨t, ht, h⟩ := path_eq_default Manifest.ofDocument_buried
    obtain ⟨l, store, hscan, -, hpaths⟩ := h (asking MemoryStore.fileExists) ⟨"r"⟩ .empty
    obtain ⟨rfl, -⟩ := realizes_of_scan (Manifest.wellFormed_of_ofDocument Manifest.ofDocument_buried) ht hscan
    exact ⟨t, l, ht, hscan, hpaths hmandatory⟩

end Lineage
end StageLineage
