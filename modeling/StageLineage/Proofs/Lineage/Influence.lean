import StageLineage.Proofs.Lineage.Chained
import StageLineage.Proofs.Lineage.Total

/-! What the place of a stage depends on. Two scans, of whatever stores and roots, give a stage the same path if
    they find the same of its optional ancestors present. What they find of its other ancestors, of the stage
    itself and of the stages that are none of its ancestors has no influence. -/

namespace StageLineage.Lineage
variable {d : Definition} {l l' : Lineage} {id : String}

/-- Each optional ancestor of a stage is present in both lineages or in neither. -/
def AgreeAbove (d : Definition) (l l' : Lineage) (id : String) : Prop :=
  ∀ o ∈ d.ancestors id, d.isOptional o = true → l.isPresent o = l'.isPresent o

/-- A stage that only one of two lineages has is not optional, is the stage `id`, or is none of its ancestors. -/
def DifferBeside (d : Definition) (l l' : Lineage) (id : String) : Prop :=
  ∀ o, l.isPresent o ≠ l'.isPresent o → d.isOptional o = false ∨ o = id ∨ o ∉ d.ancestors id

theorem DifferBeside.agreeAbove (wf : d.WellFormed) (hid : id ∈ d.ids) (h : DifferBeside d l l' id) :
    AgreeAbove d l l' id := by
  intro o ho hoptional
  by_contra hne
  rcases h o hne with hmandatory | rfl | hnot
  · simp [hoptional] at hmandatory
  · exact wf.not_above_self o hid (wf.mem_ancestors_iff.mp ho)
  · exact hnot ho

theorem AgreeAbove.dir_eq (wf : d.WellFormed) (hl : Laid d d.order l) (hl' : Laid d d.order l') (hid : id ∈ d.ids)
    (h : AgreeAbove d l l' id) : l.dir id = l'.dir id := by
  rcases hl.dir_eq_or_exists wf hl' id hid with hdir | ⟨o, habove, hoptional, -, hne⟩
  · exact hdir
  · exact absurd (h o (wf.mem_ancestors_iff.mpr habove) hoptional) hne

theorem AgreeAbove.exists_path (wf : d.WellFormed) (hl : Laid d d.order l) (hl' : Laid d d.order l')
    (hid : id ∈ d.ids) (h : AgreeAbove d l l' id) : ∃ p, l.path? id = some p ∧ l'.path? id = some p := by
  have hmem := wf.mem_order_iff.mpr hid
  refine ⟨⟨id, l.dir id⟩, path?_eq_some (hl.ids_eq ▸ hmem), ?_⟩
  rw [h.dir_eq wf hl hl' hid]
  exact path?_eq_some (hl'.ids_eq ▸ hmem)

/-- Whatever was read from a document, and whatever two stores answer while they are scanned: the scans give each
    stage of whose optional ancestors they find the same ones present the same path, and so they do if all that they
    find different is mandatory, the stage itself or none of its ancestors. -/
theorem path_eq_of_agreeAbove {document : Json} (h : Manifest.ofDocument document = .ok d) :
    ∃ t, Topology.resolve d = .ok t ∧
      ∀ {σ τ : Type} (ask : Path → StateM σ Bool) (ask' : Path → StateM τ Bool) (root root' : Path) (a : σ) (b : τ),
        ∃ l l' a' b', (scan ask t root).run a = (.ok l, a') ∧ (scan ask' t root').run b = (.ok l', b') ∧
          ∀ id ∈ d.ids,
            (AgreeAbove d l l' id → ∃ p, l.path? id = some p ∧ l'.path? id = some p) ∧
              (DifferBeside d l l' id → ∃ p, l.path? id = some p ∧ l'.path? id = some p) := by
  have wf := Manifest.wellFormed_of_ofDocument h
  obtain ⟨t, ht, hdescribes⟩ := Topology.resolve_eq_ok wf
  refine ⟨t, ht, fun ask ask' root root' a b => ?_⟩
  obtain ⟨l, a', hscan, hl⟩ := exists_laid_scan wf hdescribes ask root a
  obtain ⟨l', b', hscan', hl'⟩ := exists_laid_scan wf hdescribes ask' root' b
  refine ⟨l, l', a', b', hscan, hscan', fun id hid => ⟨fun hagree => hagree.exists_path wf hl hl' hid, fun hdiffer => ?_⟩⟩
  exact (hdiffer.agreeAbove wf hid).exists_path wf hl hl' hid

theorem Realizes.isPresent_forked {f : Path → Bool} (h : Realizes .forked ⟨"r"⟩ f Definition.forked.order l) :
    l.isPresent "x" = f (Path.child ⟨"r/x/meta"⟩ "x.json") ∧
      l.isPresent "o" = f (Path.child ⟨"r/x/o/meta"⟩ "o.json") := by
  have hx : l.dir "x" = ⟨[.stage "x"]⟩ := (h.dir_eq "x" (by decide)).trans rfl
  have heffective : l.effective .forked "o" = ["x"] := rfl
  have ho : l.dir "o" = ⟨[.stage "x", .stage "o"]⟩ := by
    rw [h.dir_eq "o" (by decide), place, heffective]
    simp [Topology.above, hx, LineagePath.child]
  rw [h.present_eq "x" (by decide), h.present_eq "o" (by decide), file, file, hx, ho, h.root_eq]
  refine ⟨congrArg f ?_, congrArg f ?_⟩ <;> decide

/-- The root of the fork is present in only one of two stores, and the stage `s` below it stands in the same place. -/
theorem path_eq_forked : Manifest.ofDocument Manifest.forked = .ok .forked ∧
    ∃ t l l' p, Topology.resolve .forked = .ok t ∧
      (scan (asking MemoryStore.fileExists) t ⟨"r"⟩).run .empty = (.ok l, .empty) ∧
      (scan (asking MemoryStore.fileExists) t ⟨"r"⟩).run (.holding ⟨"r/x/meta"⟩ "x.json") =
        (.ok l', .holding ⟨"r/x/meta"⟩ "x.json") ∧
      "x" ∈ Definition.forked.ancestors "s" ∧ l.isPresent "x" ≠ l'.isPresent "x" ∧
      AgreeAbove .forked l l' "s" ∧ DifferBeside .forked l l' "s" ∧ l.path? "s" = some p ∧ l'.path? "s" = some p := by
  have wf := Manifest.wellFormed_of_ofDocument Manifest.ofDocument_forked
  obtain ⟨t, ht, h⟩ := path_eq_of_agreeAbove Manifest.ofDocument_forked
  obtain ⟨l, l', a, b, hscan, hscan', hpaths⟩ := h (asking MemoryStore.fileExists) (asking MemoryStore.fileExists)
    ⟨"r"⟩ ⟨"r"⟩ .empty (.holding ⟨"r/x/meta"⟩ "x.json")
  obtain ⟨rfl, hl⟩ := realizes_of_scan wf ht hscan
  obtain ⟨rfl, hl'⟩ := realizes_of_scan wf ht hscan'
  obtain ⟨hx, ho⟩ := hl.isPresent_forked
  obtain ⟨hx', ho'⟩ := hl'.isPresent_forked
  rw [MemoryStore.fileExists_holding] at hx'
  replace ho' : l'.isPresent "o" = false := ho'.trans (by decide)
  have hancestors : Definition.forked.ancestors "s" = ["a", "x", "o"] := by cbv
  have hoptional : ∀ o ∈ ["a", "x", "o"], Definition.forked.isOptional o = false ∨ o = "o" := by decide
  have hdiffer : DifferBeside .forked l l' "s" := fun o hne => by
    by_cases hmem : o ∈ Definition.forked.ancestors "s"
    · rcases hoptional o (hancestors ▸ hmem) with hmandatory | rfl
      · exact Or.inl hmandatory
      · exact absurd (ho.trans ho'.symm) hne
    · exact Or.inr (Or.inr hmem)
  have hagree := hdiffer.agreeAbove wf (by decide)
  obtain ⟨p, hp, hp'⟩ := (hpaths "s" (by decide)).1 hagree
  exact ⟨Manifest.ofDocument_forked, t, l, l', p, ht, hscan, hscan', by rw [hancestors]; decide,
    by rw [hx, hx']; decide, hagree, hdiffer, hp, hp'⟩

end StageLineage.Lineage
