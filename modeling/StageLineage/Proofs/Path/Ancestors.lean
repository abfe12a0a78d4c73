import StageLineage.Proofs.Path
import StageLineage.Store.Basic

/-! The way up from a path. Going up takes away one component at a time, however the path is spelled: the directories
    above a path are those whose components begin it, and paths with the same components have the same ones. -/

namespace StageLineage.Path
variable {p q dir : Path}

@[simp] theorem isEmpty_empty : empty.isEmpty = true := rfl

/-! ### Parts of a path -/

/-- The part of a path that ends with a component. -/
def part (x : Component × List Char) : Path := ⟨String.ofList x.2⟩

theorem spansBefore_ne_nil (cs : List Char) : spansBefore cs ≠ [] := by
  obtain ⟨first, pieces, hp⟩ := List.exists_cons_of_ne_nil (split_ne_nil cs)
  rw [spansBefore, hp]
  dsimp only
  split
  · simp
  · next hempty =>
    split
    · simp
    · next hhere =>
      have hc : ∃ c, component? first = some c := by
        by_cases hup : first = ['.', '.'] <;> simp [component?, hempty, hhere, hup]
      obtain ⟨c, hc⟩ := hc
      simp [spansAfter, hc]

theorem spans_eq_nil_iff : p.spans = [] ↔ p.isEmpty = true := by
  rw [isEmpty, String.isEmpty_iff]
  constructor
  · intro h
    rcases Decidable.em (p.text.toList = []) with hnil | hne
    · exact String.toList_inj.mp hnil
    · rw [← ofList_toList p, spans_of_ne_nil hne] at h
      exact absurd h (spansBefore_ne_nil _)
  · intro h
    obtain rfl : p = empty := congrArg Path.mk h
    decide

/-- Only the empty path has no components. -/
theorem isEmpty_eq_false_iff : p.isEmpty = false ↔ p.components ≠ [] := by
  rw [← Bool.not_eq_true, Ne, components_eq_map_spans, List.map_eq_nil_iff, spans_eq_nil_iff]

theorem isEmpty_congr (h : compare p q = .eq) : p.isEmpty = q.isEmpty := by
  rw [Bool.eq_iff_iff, ← Bool.not_eq_false, ← Bool.not_eq_false, isEmpty_eq_false_iff, isEmpty_eq_false_iff,
    compare_eq_iff.mp h]

theorem components_part {before after : List (Component × List Char)} {x : Component × List Char}
    (h : p.spans = before ++ x :: after) : (part x).components = (before ++ [x]).map (·.1) := by
  rw [components_eq_map_spans, part, endsParts_spans p before x after h]

theorem isEmpty_part {x : Component × List Char} (h : x ∈ p.spans) : (part x).isEmpty = false := by
  obtain ⟨before, after, hsplit⟩ := List.append_of_mem h
  rw [isEmpty_eq_false_iff, components_part hsplit]
  simp

/-! ### The directory above -/

theorem parents_eq (p : Path) : p.parents = p.spans.dropLast.reverse.map part ∨
    p.parents = p.spans.dropLast.reverse.map part ++ [empty] := by
  rw [parents]
  rcases List.eq_nil_or_concat p.spans with hnil | ⟨init, last, hlast⟩
  · exact Or.inl (by simp [hnil])
  · rw [hlast, List.concat_eq_append, List.reverse_concat, List.dropLast_concat]
    dsimp only
    split
    · exact Or.inl rfl
    · exact Or.inr rfl

theorem directory?_eq (p : Path) : p.directory? = p.spans.dropLast.getLast?.map part := by
  rw [directory?, parent?]
  rcases List.eq_nil_or_concat p.spans.dropLast with hnil | ⟨init, x, hlast⟩
  · rcases parents_eq p with h | h <;> simp [h, hnil]
  · have hx : (part x).isEmpty = false :=
      isEmpty_part (List.dropLast_subset p.spans (by simp [hlast]))
    rcases parents_eq p with h | h <;> simp [h, hlast, hx]

theorem components_directory? (h : p.directory? = some dir) :
    dir.components = p.components.dropLast ∧ dir.isEmpty = false := by
  rw [directory?_eq] at h
  obtain ⟨x, hx, rfl⟩ := Option.map_eq_some_iff.mp h
  obtain ⟨init, hinit⟩ := List.getLast?_eq_some_iff.mp hx
  have hmem : x ∈ p.spans := List.dropLast_subset p.spans (by simp [hinit])
  obtain ⟨last, hsplit⟩ : ∃ last, p.spans = init ++ x :: [last] := by
    refine ⟨p.spans.getLast (List.ne_nil_of_mem hmem), ?_⟩
    rw [← List.singleton_append, ← List.append_assoc, ← hinit, List.dropLast_concat_getLast]
  refine ⟨?_, isEmpty_part hmem⟩
  rw [components_part hsplit, components_eq_map_spans, ← List.map_dropLast, hinit]

theorem exists_directory? (h : p.components.dropLast ≠ []) : ∃ dir, p.directory? = some dir := by
  rw [components_eq_map_spans, ← List.map_dropLast, Ne, List.map_eq_nil_iff] at h
  exact ⟨_, by rw [directory?_eq, List.getLast?_eq_some_getLast h]; rfl⟩

theorem directory?_eq_some_iff : p.directory? = some dir ↔ p.parent? = some dir ∧ dir.isEmpty = false := by
  simp [directory?, Option.filter_eq_some_iff]

/-- Two spellings of a path are in the same directory. -/
theorem exists_directory?_of_compare (h : compare p q = .eq) (hdir : p.directory? = some dir) :
    ∃ dir', q.directory? = some dir' ∧ compare dir' dir = .eq := by
  obtain ⟨hcomponents, hempty⟩ := components_directory? hdir
  rw [compare_eq_iff.mp h] at hcomponents
  obtain ⟨dir', hdir'⟩ := exists_directory? (hcomponents ▸ isEmpty_eq_false_iff.mp hempty)
  exact ⟨dir', hdir', compare_eq_iff.mpr ((components_directory? hdir').1.trans hcomponents.symm)⟩

/-! ### All directories above -/

theorem filter_parents (p : Path) : p.parents.filter (!·.isEmpty) = p.spans.dropLast.reverse.map part := by
  have hparts : (p.spans.dropLast.reverse.map part).filter (!·.isEmpty) = p.spans.dropLast.reverse.map part := by
    refine List.filter_eq_self.mpr fun q hq => ?_
    obtain ⟨x, hx, rfl⟩ := List.mem_map.mp hq
    simp [isEmpty_part (List.dropLast_subset p.spans (List.mem_reverse.mp hx))]
  rcases parents_eq p with h | h
  · rw [h, hparts]
  · rw [h, List.filter_append, hparts, List.filter_cons_of_neg (by simp), List.filter_nil, List.append_nil]

/-- The ancestors of a path have the components of its parts, innermost first. -/
theorem map_components_ancestors (p : Path) :
    (p.ancestors.filter (!·.isEmpty)).map components = p.spans.reverse.map fun x => (part x).components := by
  rcases List.eq_nil_or_concat p.spans with hnil | ⟨init, last, hlast⟩
  · have hp : p.isEmpty = true := spans_eq_nil_iff.mp hnil
    rw [ancestors, List.filter_cons_of_neg (by simp [hp]), filter_parents, hnil]
    rfl
  · rw [List.concat_eq_append] at hlast
    have hself : p.components = (part last).components := by
      rw [components_part hlast, components_eq_map_spans, hlast]
    have hp : p.isEmpty = false := by
      rw [isEmpty_eq_false_iff, hself, components_part hlast]
      simp
    rw [ancestors, List.filter_cons_of_pos (by simp [hp]), filter_parents, hlast, List.dropLast_concat,
      List.reverse_concat, List.map_cons, List.map_cons, hself, List.map_map]
    rfl

theorem pairwise_parts (p : Path) : p.spans.Pairwise fun x y =>
    (part x).components <+: (part y).components ∧ (part x).components ≠ (part y).components := by
  have along : ∀ spans before, p.spans = before ++ spans → spans.Pairwise fun x y =>
      (part x).components <+: (part y).components ∧ (part x).components ≠ (part y).components := by
    intro spans
    induction spans with
    | nil => exact fun _ _ => .nil
    | cons x spans ih =>
      intro before hsplit
      refine List.pairwise_cons.mpr ⟨fun y hy => ?_, ih (before ++ [x]) (by simp [hsplit])⟩
      obtain ⟨between, after, rfl⟩ := List.append_of_mem hy
      have hy : p.spans = before ++ x :: between ++ y :: after := by simp [hsplit]
      rw [components_part hsplit, components_part hy]
      exact ⟨by simp, by simp⟩
  exact along p.spans [] rfl

theorem pairwise_ancestors (p : Path) : (p.ancestors.filter (!·.isEmpty)).Pairwise fun q r =>
    r.components <+: q.components ∧ r.components ≠ q.components := by
  have h := List.pairwise_reverse.mpr (pairwise_parts p)
  rw [← List.pairwise_map (f := fun x => (part x).components) (R := fun cs ds => ds <+: cs ∧ ds ≠ cs)] at h
  rw [← List.pairwise_map (f := components) (R := fun cs ds => ds <+: cs ∧ ds ≠ cs), map_components_ancestors]
  exact h

/-- The parts of a path have the components with which those of the path begin. -/
theorem exists_part_iff {cs : List Component} :
    (∃ x ∈ p.spans, (part x).components = cs) ↔ cs ≠ [] ∧ cs <+: p.components := by
  rw [components_eq_map_spans]
  constructor
  · rintro ⟨x, hx, rfl⟩
    obtain ⟨before, after, hsplit⟩ := List.append_of_mem hx
    rw [components_part hsplit, hsplit]
    exact ⟨by simp, by simp⟩
  · rintro ⟨hne, hbegins⟩
    obtain ⟨spans, ⟨after, hafter⟩, rfl⟩ := List.prefix_map_iff.mp hbegins
    obtain ⟨before, x, rfl⟩ := (List.eq_nil_or_concat spans).resolve_left fun hnil => hne (by simp [hnil])
    have hsplit : p.spans = before ++ x :: after := by simp [← hafter]
    exact ⟨x, by simp [hsplit], by rw [components_part hsplit, List.concat_eq_append]⟩

theorem exists_filter_ancestors_iff : (∃ q ∈ p.ancestors.filter (!·.isEmpty), compare q dir = .eq) ↔
    dir.isEmpty = false ∧ ∃ q ∈ p.ancestors, compare q dir = .eq := by
  constructor
  · rintro ⟨q, hq, heq⟩
    obtain ⟨hq, hempty⟩ := List.mem_filter.mp hq
    exact ⟨by rw [← isEmpty_congr heq]; simpa using hempty, q, hq, heq⟩
  · rintro ⟨hdir, q, hq, heq⟩
    exact ⟨q, List.mem_filter.mpr ⟨hq, by rw [isEmpty_congr heq, hdir]; rfl⟩, heq⟩

/-- The ancestors of a path are the directories that it starts with. -/
theorem exists_ancestor_iff (hdir : dir.isEmpty = false) :
    (∃ q ∈ p.ancestors, compare q dir = .eq) ↔ p.startsWith dir = true := by
  have hcomponents := isEmpty_eq_false_iff.mp hdir
  have hmem : (∃ q ∈ p.ancestors.filter (!·.isEmpty), compare q dir = .eq) ↔
      dir.components ∈ (p.ancestors.filter (!·.isEmpty)).map components := by
    simp only [List.mem_map, compare_eq_iff]
  rw [exists_filter_ancestors_iff, map_components_ancestors, List.map_reverse, List.mem_reverse, List.mem_map,
    exists_part_iff] at hmem
  simpa [hdir, hcomponents, startsWith_iff] using hmem

end StageLineage.Path
