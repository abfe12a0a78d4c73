import StageLineage.Proofs.Lineage

/-! Laying out and scanning never fail. Every stage of a definition that was read comes once, in topological
    order, in the default layout and in each lineage, whatever a store answers while it is scanned; and when a
    scan comes to a stage it has realized all parents of it. -/

namespace StageLineage.Lineage
variable {d : Definition} {t : Topology} {σ : Type} {ask : Path → StateM σ Bool} {s s' : σ}
  {done done' : List RealizedStage} {before after : List StageLayout} {layout : StageLayout}

/-! ### Steps of a scan -/

theorem run_scanFrom_cons {root : Path} {path : StagePath} (h : realize t done layout = .ok path) (after : List StageLayout) (s : σ) :
    (scanFrom ask t root done (layout :: after)).run s =
      (scanFrom ask t root (done ++ [⟨path, ((ask (root.join path.artifactPath)).run s).1⟩]) after).run
        ((ask (root.join path.artifactPath)).run s).2 := by
  rw [scanFrom, h]
  rfl

theorem run_scanFrom_append {root : Path} (h : (scanFrom ask t root done before).run s = (.ok done', s')) (after : List StageLayout) :
    (scanFrom ask t root done (before ++ after)).run s = (scanFrom ask t root done' after).run s' := by
  induction before generalizing done s with
  | nil =>
    cases h
    rfl
  | cons layout before ih =>
    cases hpath : realize t done layout with
    | error e =>
      rw [scanFrom, hpath] at h
      cases h
    | ok path =>
      rw [run_scanFrom_cons hpath] at h
      rw [List.cons_append, run_scanFrom_cons hpath]
      exact ih h

/-- Parents that are realized are all found. -/
theorem map_filterMap_find? {parents : List String} (h : ∀ p ∈ parents, p ∈ done.map (·.path.stage)) :
    (parents.filterMap (find? done)).map (·.path.stage) = parents := by
  induction parents with
  | nil => rfl
  | cons p parents ih =>
    obtain ⟨hp, hparents⟩ := List.forall_mem_cons.mp h
    obtain ⟨r, hr⟩ := exists_find?_iff.mpr hp
    rw [List.filterMap_cons_some hr, List.map_cons, ih hparents, (stage_of_find? hr).2]

/-- After the stages before it, a stage finds its parents and is realized. -/
theorem realize_next (wf : d.WellFormed) (ht : Topology.Describes d d.order t.stages)
    (hsplit : t.stages = before ++ layout :: after) (hdone : done.map (·.path.stage) = before.map (·.path.stage)) :
    (∃ path, realize t done layout = .ok path ∧ path.stage = layout.path.stage) ∧
      (layout.parents.filterMap (find? done)).map (·.path.stage) = layout.parents := by
  have hof : layout.IsOf d := ht.isOf layout (by simp [hsplit])
  have horder : d.order = before.map (·.path.stage) ++ layout.path.stage :: after.map (·.path.stage) := by
    rw [← ht.ids_eq, hsplit, List.map_append, List.map_cons]
  have hparents : ∀ p ∈ d.parents layout.path.stage, p ∈ done.map (·.path.stage) :=
    hdone ▸ wf.parents_before _ _ _ horder
  refine ⟨⟨_, realize_eq_ok wf ht (l := ⟨⟨""⟩, done⟩) hof hparents, rfl⟩, map_filterMap_find? fun p hp => ?_⟩
  rw [hof.parents_eq] at hp
  exact hparents p (Stage.mem_distinct_iff.mp hp)

/-! ### The whole scan -/

/-- However far a scan has come, and whatever it was answered, it has laid each stage that it passed below those of
    its parents that take part. -/
theorem exists_laid_scanFrom (wf : d.WellFormed) (ht : Topology.Describes d d.order t.stages)
    (ask : Path → StateM σ Bool) (root : Path) (s : σ) (hsplit : t.stages = before ++ after) :
    ∃ done s', (scanFrom ask t root [] before).run s = (.ok done, s') ∧
      Laid d (before.map (·.path.stage)) ⟨root, done⟩ := by
  induction before using List.reverseRecOn generalizing after with
  | nil => exact ⟨[], s, rfl, rfl, by simp⟩
  | append_singleton before layout ih =>
    rw [List.append_assoc, List.singleton_append] at hsplit
    obtain ⟨done, s', hrun, hlaid⟩ := ih hsplit
    have horder : d.order = before.map (·.path.stage) ++ layout.path.stage :: after.map (·.path.stage) := by
      rw [← ht.ids_eq, hsplit, List.map_append, List.map_cons]
    have hparents := wf.parents_before _ _ _ horder
    have hpath := realize_eq_ok wf ht (l := ⟨root, done⟩) (ht.isOf layout (by simp [hsplit])) fun p hp =>
      hlaid.ids_eq ▸ hparents p hp
    have hnext := (run_scanFrom_append hrun [layout]).trans (run_scanFrom_cons hpath [] s')
    refine ⟨_, _, hnext.trans rfl, ?_⟩
    rw [List.map_append, List.map_singleton]
    exact hlaid.append (wf.notMem_before horder) (wf.parents_mem_before horder) hparents _

/-- However far a scan has come, it has realized each stage that it passed, in order. -/
theorem exists_run_scanFrom (wf : d.WellFormed) (ht : Topology.Describes d d.order t.stages)
    (ask : Path → StateM σ Bool) (root : Path) (s : σ) (hsplit : t.stages = before ++ after) :
    ∃ done s', (scanFrom ask t root [] before).run s = (.ok done, s') ∧
      done.map (·.path.stage) = before.map (·.path.stage) := by
  obtain ⟨done, s', hrun, hlaid⟩ := exists_laid_scanFrom wf ht ask root s hsplit
  exact ⟨done, s', hrun, hlaid.ids_eq⟩

theorem exists_laid_scan (wf : d.WellFormed) (ht : Topology.Describes d d.order t.stages)
    (ask : Path → StateM σ Bool) (root : Path) (s : σ) :
    ∃ l s', (scan ask t root).run s = (.ok l, s') ∧ Laid d d.order l := by
  obtain ⟨stages, s', hrun, hlaid⟩ := exists_laid_scanFrom wf ht ask root s (List.append_nil t.stages).symm
  refine ⟨⟨root, stages⟩, s', ?_, ht.ids_eq ▸ hlaid⟩
  rw [scan, StateT.run_bind, hrun]
  rfl

/-- A scan that goes from a store in state `s` to one in state `s'` has, when it comes to a stage, realized all of
    its declared parents. -/
def FindsParents (ask : Path → StateM σ Bool) (d : Definition) (t : Topology) (l : Lineage) (s s' : σ) : Prop :=
  ∀ before layout after, t.stages = before ++ layout :: after →
    ∃ done s₁, (scanFrom ask t l.root [] before).run s = (.ok done, s₁) ∧
      (scanFrom ask t l.root done (layout :: after)).run s₁ = (.ok l.stages, s') ∧
      layout.parents = Stage.distinct (d.parents layout.path.stage) ∧
      (layout.parents.filterMap (find? done)).map (·.path.stage) = layout.parents

/-- Whatever was read from a document can be laid out and, whatever a store answers, be scanned: each stage comes
    once, in topological order and behind all its parents. -/
theorem exists_scan_of_ofDocument {document : Json} (h : Manifest.ofDocument document = .ok d) :
    d.order.Nodup ∧ d.order.Perm d.ids ∧
      ∃ t, Topology.resolve d = .ok t ∧ t.stages.map (·.path.stage) = d.order ∧
        ∀ {σ : Type} (ask : Path → StateM σ Bool) (root : Path) (s : σ), ∃ l s',
          (scan ask t root).run s = (.ok l, s') ∧ l.root = root ∧ l.stages.map (·.path.stage) = d.order ∧
          FindsParents ask d t l s s' := by
  have wf := Manifest.wellFormed_of_ofDocument h
  obtain ⟨t, ht, hdescribes⟩ := Topology.resolve_eq_ok wf
  refine ⟨wf.order_nodup, wf.order_perm, t, ht, hdescribes.ids_eq, fun ask root s => ?_⟩
  obtain ⟨stages, s', hrun, hstages⟩ :=
    exists_run_scanFrom wf hdescribes ask root s (List.append_nil t.stages).symm
  refine ⟨⟨root, stages⟩, s', ?_, rfl, hstages.trans hdescribes.ids_eq, fun before layout after hsplit => ?_⟩
  · rw [scan, StateT.run_bind, hrun]
    rfl
  · obtain ⟨done, s₁, hbefore, hdone⟩ := exists_run_scanFrom wf hdescribes ask root s hsplit
    obtain ⟨-, hfound⟩ := realize_next wf hdescribes hsplit hdone
    refine ⟨done, s₁, hbefore, ?_, (hdescribes.isOf layout (by simp [hsplit])).parents_eq, hfound⟩
    rw [← run_scanFrom_append hbefore, ← hsplit]
    exact hrun

/-- A scan that is told of every file that it exists finds the stages of the fork in their order. -/
theorem exists_scan_forked : Manifest.ofDocument Manifest.forked = .ok .forked ∧
    ∃ t l, Topology.resolve .forked = .ok t ∧ (scan (asking fun _ _ => true) t ⟨"r"⟩).run () = (.ok l, ()) ∧
      l.stages.map (·.path.stage) = ["x", "o", "a", "s"] ∧
      FindsParents (asking fun _ _ => true) .forked t l () () := by
  obtain ⟨-, -, t, ht, -, hscan⟩ := exists_scan_of_ofDocument Manifest.ofDocument_forked
  obtain ⟨l, _, hrun, -, hstages, hfinds⟩ := hscan (asking fun _ _ => true) ⟨"r"⟩ ()
  exact ⟨Manifest.ofDocument_forked, t, l, ht, hrun, hstages, hfinds⟩

end StageLineage.Lineage
