import Mathlib.Data.List.Perm.Subperm
import Mathlib.Data.List.Sort
import Mathlib.Data.String.Basic
import StageLineage.Proofs.Lineage.Apart

/-! What the default layout shows of the graph. The directory of a stage lies in the directories of stages above it, in
    those of joins, and in no others. By its name alone a join directory may be taken for the one of a stage. -/

namespace StageLineage

namespace Segment

/-- The ids of a join stand in their order, each once. -/
theorem sortedIds_pairwise {ids : List String} (h : ids.Nodup) : (sortedIds ids).Pairwise (· < ·) := by
  have hnodup := (List.mergeSort_perm ids fun a b => decide (a ≤ b)).nodup_iff.mpr h
  rw [sortedIds, dropRepeats_of_nodup hnodup]
  exact ((List.pairwise_mergeSort' (· ≤ ·) ids).and hnodup).imp fun h => lt_of_le_of_ne h.1 h.2

end Segment

namespace Stage

theorem length_distinct_le (l : List String) : (distinct l).length ≤ l.length :=
  ((nodup_distinct l).subperm fun _ hx => mem_distinct_iff.mp hx).length_le

theorem distinct_replicate (x : String) (n : Nat) : distinct (List.replicate (n + 1) x) = [x] := by
  have hnone : ∀ y ∈ distinct (List.replicate n x), ¬ (y != x) = true := fun y hy => by
    simp [List.eq_of_mem_replicate (mem_distinct_iff.mp hy)]
  rw [List.replicate_succ, distinct, List.filter_eq_nil_iff.mpr hnone]

/-- Two or more entries are not all the same, or they repeat a single one. -/
theorem one_lt_length_iff {l : List String} :
    1 < l.length ↔ 2 ≤ (distinct l).length ∨ ∃ x n, l = List.replicate (n + 2) x := by
  constructor
  · intro h
    by_cases htwo : 2 ≤ (distinct l).length
    · exact Or.inl htwo
    · match hl : distinct l with
      | [] =>
        obtain ⟨x, hx⟩ := List.exists_mem_of_length_pos (Nat.zero_lt_of_lt h)
        exact absurd (mem_distinct_iff.mpr hx) (hl ▸ List.not_mem_nil)
      | [x] =>
        obtain ⟨n, hn⟩ := Nat.exists_eq_add_of_lt h
        have hall : ∀ y ∈ l, y = x := fun y hy => List.mem_singleton.mp (hl ▸ mem_distinct_iff.mpr hy)
        exact Or.inr ⟨x, n, List.eq_replicate_iff.mpr ⟨by omega, hall⟩⟩
      | x :: y :: rest => simp [hl] at htwo
  · rintro (htwo | ⟨x, n, rfl⟩)
    · exact htwo.trans (length_distinct_le l)
    · simp

end Stage

namespace Nests
variable {d : Definition} {taking : String → List String} {dir : String → LineagePath} {id id' : String}

/-- A join segment on the way to a stage stands right above a stage whose parents it is made for. -/
theorem exists_of_join_prefix (wf : d.WellFormed) (h : Nests d taking dir) {q : LineagePath} {ids : List String} :
    ∀ id ∈ d.ids, (q.child (.join ids)).segments <+: (dir id).segments →
      ∃ x, (x = id ∨ d.Above x id) ∧ 2 ≤ (taking x).length ∧ ids = Segment.sortedIds (taking x) ∧
        dir x = (q.child (.join ids)).child (.stage x) := by
  refine wf.parents_induction fun id hid ih hbegins => ?_
  have hdir := h.dir_eq id hid
  rw [hdir, LineagePath.child, LineagePath.child, List.prefix_concat_iff] at hbegins
  rcases hbegins with heq | hbegins
  · have hlast := (List.append_inj' heq rfl).2
    simp at hlast
  rcases Topology.prefix_above_cases hbegins with ⟨x, hx, hbegins⟩ | ⟨htwo, hjoin, habove⟩
  · obtain ⟨p, hp, rfl⟩ := List.mem_map.mp hx
    have hparent := h.mem_parents id p hp
    obtain ⟨x, hx, hfound⟩ := ih p hparent hbegins
    refine ⟨x, Or.inr ?_, hfound⟩
    rcases hx with rfl | hx
    · exact .single hparent
    · exact hx.tail hparent
  · rw [habove] at hdir
    exact ⟨id, Or.inl rfl, by simpa using htwo, by simpa [Function.comp_def] using hjoin, hdir⟩

/-- A stage whose directory goes through the one of another stage lies below it, or that other stage has the name of a
    join. -/
theorem above_or_join_of_prefix (wf : d.WellFormed) (h : Nests d taking dir) (hid : id ∈ d.ids) (hid' : id' ∈ d.ids)
    (hbegins : (dir id).names <+: (dir id').names) (hne : (dir id).names ≠ (dir id').names) :
    d.Above id id' ∨ ∃ x, (x = id' ∨ d.Above x id') ∧ 2 ≤ (taking x).length ∧
      id = (Segment.join (Segment.sortedIds (taking x))).dirName ∧ (dir x).names = (dir id).names ++ [x] := by
  obtain ⟨segments, hsegments, hnames⟩ := List.prefix_map_iff.mp hbegins
  rw [h.names_eq hid] at hnames
  obtain ⟨before, last, rfl, hbefore, hlast⟩ := List.map_eq_append_iff.mp hnames.symm
  obtain ⟨s, rfl, hs⟩ := List.map_eq_singleton_iff.mp hlast
  cases s with
  | stage p =>
    obtain rfl : p = id := hs
    obtain ⟨-, -, rfl | habove⟩ := h.eq_dir_of_prefix wf (q := ⟨before⟩) id' hid' hsegments
    · exact absurd rfl hne
    · exact Or.inl habove
  | join ids =>
    obtain ⟨x, hx, htwo, rfl, hdir⟩ := h.exists_of_join_prefix wf (q := ⟨before⟩) id' hid' hsegments
    refine Or.inr ⟨x, hx, htwo, hs.symm, ?_⟩
    rw [hdir, h.names_eq hid, LineagePath.names_child, LineagePath.names_child, ← hbefore, hs]
    rfl

end Nests

namespace LineagePath

theorem components_relativePath {q : LineagePath} (h : q.Named) : q.relativePath.components = q.names.map .name := by
  rw [relativePath_eq, Path.components_descend _ h]
  rfl

end LineagePath

namespace Topology
variable {p : Persona}

/-- The directory of a stage begins the one of another stage only if it stands above it, or if it has the name of the
    join right above that stage or above one that leads to it. -/
theorem above_of_relativePath_prefix (hp : p.IsRead) {id id' : String} (hid : id ∈ p.definition.ids)
    (hid' : id' ∈ p.definition.ids) : ∃ q q', p.topology.path? id = some q ∧ p.topology.path? id' = some q' ∧
      (q.dir.relativePath.components <+: q'.dir.relativePath.components →
        q.dir.relativePath.components ≠ q'.dir.relativePath.components →
        id ∈ p.definition.ancestors id' ∨ ∃ x, (x = id' ∨ x ∈ p.definition.ancestors id') ∧
          2 ≤ (Stage.distinct (p.definition.parents x)).length ∧
          id = (Segment.join (Segment.sortedIds (Stage.distinct (p.definition.parents x)))).dirName ∧
          (p.topology.dir x).names = q.dir.names ++ [x]) := by
  have hwf := hp.wellFormed
  have hnests := nests hwf hp.resolve_eq
  refine ⟨_, _, path?_eq hp hid, path?_eq hp hid', ?_⟩
  rw [LineagePath.components_relativePath (hnests.named hwf id hid),
    LineagePath.components_relativePath (hnests.named hwf id' hid'), Path.map_name_prefix_iff, Ne, Path.map_name_inj]
  simp only [hwf.mem_ancestors_iff]
  exact hnests.above_or_join_of_prefix hwf hid hid'

end Topology

/-- A manifest in which a stage bears the name of the join of two others. -/
def Manifest.masked : Json :=
  .object [("name", .string "Masked"), ("persona", .string "masked"),
    ("stages", .array [plainEntry "a" [] false, plainEntry "b" [] false, plainEntry "_join_a_b" [] false,
      plainEntry "s" ["a", "b"] false])]

def Definition.masked : Definition where
  header := ⟨"Masked", "masked", "", none, "1.0.0", false, []⟩
  stages := [.plain "a" [] false, .plain "b" [] false, .plain "_join_a_b" [] false, .plain "s" ["a", "b"] false]
  order := ["a", "b", "_join_a_b", "s"]

theorem Manifest.ofDocument_masked : ofDocument masked = .ok .masked := by
  have hchecked : checked masked = .ok (Definition.masked.header, Definition.masked.stages) := rfl
  exact ofDocument_eq_ok hchecked (by cbv)

theorem Definition.ancestors_masked : Definition.masked.ancestors "s" = ["a", "b"] := by cbv

theorem Topology.dir_masked {p : Persona} (hp : p.IsRead) (hd : p.definition = .masked) :
    p.topology.dir "_join_a_b" = ⟨[.stage "_join_a_b"]⟩ ∧ p.topology.dir "s" = ⟨[.join ["a", "b"], .stage "s"]⟩ := by
  have hnests := nests hp.wellFormed hp.resolve_eq
  rw [hd] at hnests
  have ha : p.topology.dir "a" = ⟨[.stage "a"]⟩ := hnests.dir_eq "a" (by decide)
  have hb : p.topology.dir "b" = ⟨[.stage "b"]⟩ := hnests.dir_eq "b" (by decide)
  have hparents : Stage.distinct (Definition.masked.parents "s") = ["a", "b"] := by decide
  have hjoin : Segment.sortedIds ["a", "b"] = ["a", "b"] := by cbv
  refine ⟨hnests.dir_eq "_join_a_b" (by decide), ?_⟩
  rw [hnests.dir_eq "s" (by decide), hparents, List.map_cons, List.map_cons, ha, hb]
  simp [above, hjoin, LineagePath.child, LineagePath.common, LineagePath.commonSegments]

theorem Topology.prefix_masked {p : Persona} (hp : p.IsRead) (hd : p.definition = .masked) :
    (p.topology.dir "_join_a_b").relativePath.components <+: (p.topology.dir "s").relativePath.components ∧
      (p.topology.dir "_join_a_b").relativePath.components ≠ (p.topology.dir "s").relativePath.components := by
  obtain ⟨hjoin, hs⟩ := dir_masked hp hd
  rw [hjoin, hs]
  exact ⟨by decide, by decide⟩

/-- The directory of the stage that stands below the join lies in the one of the stage with its name, which has nothing
    to do with it. -/
theorem Topology.exists_prefix_of_not_ancestor : ∃ p : Persona, p.IsRead ∧
    ∃ q q', p.topology.path? "_join_a_b" = some q ∧ p.topology.path? "s" = some q' ∧
      q.dir.relativePath.components <+: q'.dir.relativePath.components ∧
      q.dir.relativePath.components ≠ q'.dir.relativePath.components ∧
      "_join_a_b" ∉ p.definition.ancestors "s" := by
  obtain ⟨p, -, hp, hd⟩ := Persona.compile_eq_ok Manifest.ofDocument_masked
  obtain ⟨hbegins, hne⟩ := prefix_masked hp hd
  have hjoin : "_join_a_b" ∈ p.definition.ids := hd ▸ by decide
  have hs : "s" ∈ p.definition.ids := hd ▸ by decide
  have hancestors : "_join_a_b" ∉ p.definition.ancestors "s" := by simp [hd, Definition.ancestors_masked]
  exact ⟨p, hp, _, _, path?_eq hp hjoin, path?_eq hp hs, hbegins, hne, hancestors⟩

theorem Topology.join_masked : ∃ p : Persona, p.IsRead ∧ "_join_a_b" ∈ p.definition.ids ∧ "s" ∈ p.definition.ids ∧
    "_join_a_b" ∉ p.definition.ancestors "s" ∧ ∃ x, (x = "s" ∨ x ∈ p.definition.ancestors "s") ∧
      2 ≤ (Stage.distinct (p.definition.parents x)).length ∧
      "_join_a_b" = (Segment.join (Segment.sortedIds (Stage.distinct (p.definition.parents x)))).dirName ∧
      (p.topology.dir x).names = (p.topology.dir "_join_a_b").names ++ [x] := by
  obtain ⟨p, -, hp, hd⟩ := Persona.compile_eq_ok Manifest.ofDocument_masked
  obtain ⟨hbegins, hne⟩ := prefix_masked hp hd
  have hjoin : "_join_a_b" ∈ p.definition.ids := hd ▸ by decide
  have hs : "s" ∈ p.definition.ids := hd ▸ by decide
  have hancestors : "_join_a_b" ∉ p.definition.ancestors "s" := by simp [hd, Definition.ancestors_masked]
  obtain ⟨q, q', hq, hq', hall⟩ := above_of_relativePath_prefix hp hjoin hs
  cases (path?_eq hp hjoin).symm.trans hq
  cases (path?_eq hp hs).symm.trans hq'
  exact ⟨p, hp, hjoin, hs, hancestors, (hall hbegins hne).resolve_left hancestors⟩

/-! ### Joins -/

theorem Definition.isJoin_iff {d : Definition} {id : String} : d.isJoin id = true ↔ 1 < (d.parents id).length := by
  rw [isJoin, parents]
  cases d.stage? id with
  | none => simp
  | some s => simp [Stage.isJoin]

namespace Topology
variable {p : Persona}

theorem segmentAbove?_eq_join_iff {l ids : List String} :
    segmentAbove? l = some (.join ids) ↔ 2 ≤ l.length ∧ ids = Segment.sortedIds l := by
  match l with
  | [] => simp [segmentAbove?]
  | [x] => simp [segmentAbove?]
  | x :: y :: rest => simp [segmentAbove?, eq_comm]

/-- A stage stands right below a join exactly if two of its parents differ, and the join is made for its parents. A
    stage that names a single parent twice or more is told apart from that only by the layout. -/
theorem join_above_iff (hp : p.IsRead) {id : String} (hid : id ∈ p.definition.ids) :
    ∃ q above, p.topology.path? id = some q ∧ q.dir.segments = above ++ [.stage id] ∧
      ((∃ ids, above.getLast? = some (.join ids)) ↔ 2 ≤ (Stage.distinct (p.definition.parents id)).length) ∧
      (∀ ids, above.getLast? = some (.join ids) →
        ids.Perm (Stage.distinct (p.definition.parents id)) ∧ ids.Pairwise (· < ·)) ∧
      (p.definition.isJoin id = true ↔ (∃ ids, above.getLast? = some (.join ids)) ∨
        ∃ parent n, p.definition.parents id = List.replicate (n + 2) parent) ∧
      ∀ parent n, p.definition.parents id = List.replicate (n + 2) parent →
        above.getLast? = some (.stage parent) := by
  have hwf := hp.wellFormed
  have hnests := nests hwf hp.resolve_eq
  have hnodup := Stage.nodup_distinct (p.definition.parents id)
  refine ⟨_, _, path?_eq hp hid, congrArg LineagePath.segments (hnests.dir_eq id hid), ?_⟩
  rw [hnests.getLast?_above hwf id]
  have hjoin : (∃ ids, segmentAbove? (Stage.distinct (p.definition.parents id)) = some (.join ids)) ↔
      2 ≤ (Stage.distinct (p.definition.parents id)).length := by
    simp [segmentAbove?_eq_join_iff]
  refine ⟨hjoin, fun ids hids => ?_, ?_, fun parent n hparents => ?_⟩
  · obtain ⟨-, rfl⟩ := segmentAbove?_eq_join_iff.mp hids
    exact ⟨Segment.sortedIds_perm hnodup, Segment.sortedIds_pairwise hnodup⟩
  · rw [hjoin, Definition.isJoin_iff, Stage.one_lt_length_iff]
  · rw [hparents, Stage.distinct_replicate]
    rfl

end Topology

/-- A manifest in which a stage names its parent twice. -/
def Manifest.doubled : Json :=
  .object [("name", .string "Doubled"), ("persona", .string "doubled"),
    ("stages", .array [plainEntry "a" [] false, plainEntry "b" ["a", "a"] false])]

def Definition.doubled : Definition where
  header := ⟨"Doubled", "doubled", "", none, "1.0.0", false, []⟩
  stages := [.plain "a" [] false, .plain "b" ["a", "a"] false]
  order := ["a", "b"]

theorem Manifest.ofDocument_doubled : ofDocument doubled = .ok .doubled := by cbv

/-- The stage is said to converge two parents, but stands right below the only one. -/
theorem Topology.isJoin_doubled : ∃ p : Persona, p.IsRead ∧ "b" ∈ p.definition.ids ∧ p.definition.isJoin "b" = true ∧
    ∃ q above, p.topology.path? "b" = some q ∧ q.dir.segments = above ++ [.stage "b"] ∧
      above.getLast? = some (.stage "a") ∧ ¬ ∃ ids, above.getLast? = some (.join ids) := by
  obtain ⟨p, -, hp, hd⟩ := Persona.compile_eq_ok Manifest.ofDocument_doubled
  have hid : "b" ∈ p.definition.ids := hd ▸ by decide
  have hparents : p.definition.parents "b" = List.replicate 2 "a" := hd ▸ by decide
  obtain ⟨q, above, hq, hdir, -, -, hjoin, hparent⟩ := join_above_iff hp hid
  have hstage := hparent "a" 0 hparents
  refine ⟨p, hp, hid, hjoin.mpr (Or.inr ⟨"a", 0, hparents⟩), q, above, hq, hdir, hstage, ?_⟩
  simp [hstage]

end StageLineage
