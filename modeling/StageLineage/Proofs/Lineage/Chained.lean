import StageLineage.Proofs.Session.Memory

/-! What the place of a stage tells of its parents. The parents that are neither optional nor absent in two
    lineages are the same if the stage stands in the same place in both, with one exception: a stage without
    any such parent stands where it would if it had all of them. -/

namespace StageLineage
namespace Lineage
variable {d : Definition} {l l' : Lineage} {id : String}

theorem effective_eq_of_perm (h : (l.effective d id).Perm (l'.effective d id)) :
    l.effective d id = l'.effective d id :=
  ((Stage.nodup_distinct _).perm_iff_eq_of_sublist (effective_sublist l id) (effective_sublist l' id)).mp h

theorem unskipped_of_effective_eq (h : l.effective d id = l'.effective d id) :
    l.unskipped d id = l'.unskipped d id ∨
      l.unskipped d id = [] ∧ l'.unskipped d id = Stage.distinct (d.parents id) ∨
      l'.unskipped d id = [] ∧ l.unskipped d id = Stage.distinct (d.parents id) := by
  simp only [effective_eq, List.isEmpty_iff] at h
  by_cases hnone : l.unskipped d id = []
  · by_cases hnone' : l'.unskipped d id = []
    · exact Or.inl (hnone.trans hnone'.symm)
    · rw [if_pos hnone, if_neg hnone'] at h
      exact Or.inr (Or.inl ⟨hnone, h.symm⟩)
  · by_cases hnone' : l'.unskipped d id = []
    · rw [if_neg hnone, if_pos hnone'] at h
      exact Or.inr (Or.inr ⟨hnone', h⟩)
    · rw [if_neg hnone, if_neg hnone'] at h
      exact Or.inl h

/-- A stage that stands in the same place in two states of a store has the same unskipped parents in both, or
    none in one of them and all in the other. -/
theorem unskipped_of_path_eq {p : Persona} (hp : p.IsRead) {σ : Type} (has : σ → Path → Bool) (root : Path) (a b : σ) :
    ∃ l l', (scan (asking has) p.topology root).run a = (.ok l, a) ∧
      (scan (asking has) p.topology root).run b = (.ok l', b) ∧
      ∀ id, p.definition.parents id ≠ [] → l.path? id = l'.path? id →
        l.unskipped p.definition id = l'.unskipped p.definition id ∨
          l.unskipped p.definition id = [] ∧
            l'.unskipped p.definition id = Stage.distinct (p.definition.parents id) ∨
          l'.unskipped p.definition id = [] ∧
            l.unskipped p.definition id = Stage.distinct (p.definition.parents id) := by
  have hwf := hp.wellFormed
  obtain ⟨l, hscan, hl⟩ := exists_scan hwf hp.describes has root a
  obtain ⟨l', hscan', hl'⟩ := exists_scan hwf hp.describes has root b
  refine ⟨l, l', hscan, hscan', fun id hparents hpath => ?_⟩
  obtain ⟨q, hq⟩ := List.exists_mem_of_ne_nil _ hparents
  have hid := Definition.mem_ids_of_parents hq
  have hdir : l.dir id = l'.dir id := by rw [dir, dir, hpath]
  exact unskipped_of_effective_eq (effective_eq_of_perm ((hl.nests hwf).perm_of_dir_eq hwf (hl'.nests hwf) hparents hdir))

end Lineage

/-! ### A stage without unskipped parents -/

/-- A manifest in which the only parent of the stage `s` is optional. -/
def Manifest.detached : Json :=
  .object [("name", .string "Detached"), ("persona", .string "detached"),
    ("stages", .array [plainEntry "o" [] true, plainEntry "s" ["o"] false])]

/-- The definition that `Manifest.detached` describes. -/
def Definition.detached : Definition where
  header := ⟨"Detached", "detached", "", none, "1.0.0", false, []⟩
  stages := [.plain "o" [] true, .plain "s" ["o"] false]
  order := ["o", "s"]

theorem Manifest.ofDocument_detached : ofDocument detached = .ok .detached := by cbv

theorem Definition.wellFormed_detached : Definition.detached.WellFormed :=
  Manifest.wellFormed_of_ofDocument Manifest.ofDocument_detached

namespace Lineage

/-- The stage `s` stands below `o`, whether or not `o` is present. -/
theorem Realizes.path?_detached {f : Path → Bool} {l : Lineage}
    (h : Realizes .detached ⟨"r"⟩ f Definition.detached.order l) :
    l.path? "s" = some ⟨"s", ⟨[.stage "o", .stage "s"]⟩⟩ ∧
      l.unskipped .detached "s" = if f (Path.child ⟨"r/o/meta"⟩ "o.json") then ["o"] else [] := by
  have ho : l.dir "o" = ⟨[.stage "o"]⟩ := (h.dir_eq "o" (by decide)).trans rfl
  have hpresent : l.isPresent "o" = f (Path.child ⟨"r/o/meta"⟩ "o.json") := by
    rw [h.present_eq "o" (by decide), file, ho, h.root_eq]
    congr 1
  have hunskipped : l.unskipped .detached "s" = if l.isPresent "o" then ["o"] else [] := by
    have hparents : Stage.distinct (Definition.detached.parents "s") = ["o"] := by decide
    have hoptional : Definition.detached.isOptional "o" = true := by decide
    rw [unskipped, hparents, List.filter_cons, hoptional]
    rfl
  have heffective : l.effective .detached "s" = ["o"] := by
    rw [effective_eq, hunskipped]
    cases l.isPresent "o" <;> rfl
  have hs : l.dir "s" = ⟨[.stage "o", .stage "s"]⟩ := by
    rw [h.dir_eq "s" (by decide), place, heffective]
    simp [Topology.above, ho, LineagePath.child]
  rw [h.path?_eq Definition.wellFormed_detached (by decide), hs, hunskipped, hpresent]
  exact ⟨rfl, rfl⟩

/-- A stage may stand in the same place with its only parent skipped and with it present. -/
theorem exists_path_eq_unskipped_ne : ∃ (p : Persona) (root : Path) (a b : MemoryStore) (l l' : Lineage),
    p.IsRead ∧ (scan (asking MemoryStore.fileExists) p.topology root).run a = (.ok l, a) ∧
      (scan (asking MemoryStore.fileExists) p.topology root).run b = (.ok l', b) ∧
      p.definition.parents "s" = ["o"] ∧ l.path? "s" = l'.path? "s" ∧
      l.unskipped p.definition "s" = [] ∧ l'.unskipped p.definition "s" = ["o"] := by
  obtain ⟨p, -, hp, hd⟩ := Persona.compile_eq_ok Manifest.ofDocument_detached
  obtain ⟨l, hscan, hl⟩ := exists_scan hp.wellFormed hp.describes MemoryStore.fileExists ⟨"r"⟩ .empty
  obtain ⟨l', hscan', hl'⟩ := exists_scan hp.wellFormed hp.describes MemoryStore.fileExists ⟨"r"⟩
    (.holding ⟨"r/o/meta"⟩ "o.json")
  rw [hd] at hl hl'
  obtain ⟨hpath, hunskipped⟩ := hl.path?_detached
  obtain ⟨hpath', hunskipped'⟩ := hl'.path?_detached
  rw [MemoryStore.fileExists_holding] at hunskipped'
  exact ⟨p, ⟨"r"⟩, .empty, .holding ⟨"r/o/meta"⟩ "o.json", l, l', hp, hscan, hscan', hd ▸ by decide, hpath.trans hpath'.symm,
    hd ▸ hunskipped, hd ▸ hunskipped'⟩

/-- With its only parent skipped a stage stands where it does with all of its parents. -/
theorem unskipped_detached : ∃ (p : Persona) (l l' : Lineage), p.IsRead ∧ p.definition = .detached ∧
    (scan (asking MemoryStore.fileExists) p.topology ⟨"r"⟩).run .empty = (.ok l, .empty) ∧
    (scan (asking MemoryStore.fileExists) p.topology ⟨"r"⟩).run (.holding ⟨"r/o/meta"⟩ "o.json") =
      (.ok l', .holding ⟨"r/o/meta"⟩ "o.json") ∧
    p.definition.parents "s" ≠ [] ∧ l.path? "s" = l'.path? "s" ∧
    (l.unskipped p.definition "s" = l'.unskipped p.definition "s" ∨
      l.unskipped p.definition "s" = [] ∧ l'.unskipped p.definition "s" = Stage.distinct (p.definition.parents "s") ∨
      l'.unskipped p.definition "s" = [] ∧ l.unskipped p.definition "s" = Stage.distinct (p.definition.parents "s")) := by
  obtain ⟨p, -, hp, hd⟩ := Persona.compile_eq_ok Manifest.ofDocument_detached
  obtain ⟨l, l', hscan, hscan', h⟩ := unskipped_of_path_eq hp MemoryStore.fileExists ⟨"r"⟩ .empty
    (.holding ⟨"r/o/meta"⟩ "o.json")
  have hpath : ∀ {store : MemoryStore} {l : Lineage},
      (scan (asking MemoryStore.fileExists) p.topology ⟨"r"⟩).run store = (.ok l, store) →
      l.path? "s" = some ⟨"s", ⟨[.stage "o", .stage "s"]⟩⟩ := fun {store l} hscan => by
    obtain ⟨-, hl⟩ := realizes_of_scan hp.wellFormed hp.resolve_eq hscan
    rw [hd] at hl
    exact hl.path?_detached.1
  have hparents : p.definition.parents "s" ≠ [] := hd ▸ by decide
  have hsame := (hpath hscan).trans (hpath hscan').symm
  exact ⟨p, l, l', hp, hd, hscan, hscan', hparents, hsame, h "s" hparents hsame⟩

end Lineage
end StageLineage
