import StageLineage.Proofs.LineagePath.Order
import StageLineage.Proofs.Topology

/-! How stages nest. In the default layout and in every lineage a stage stands below the parents of it that
    take part, and that alone says much: the segment above a stage tells which parents these are, and what
    begins a directory with the segment of some stage is the directory of that stage, which lies above. -/

namespace StageLineage

/-! ### Below some parents -/

namespace Topology

/-- The segment in which the directory of a stage is made, if some parents take part. -/
def segmentAbove? : List String → Option Segment
  | [] => none
  | [p] => some (.stage p)
  | ids => some (.join (Segment.sortedIds ids))

/-- Two different lists of parents never leave the same segment. -/
theorem perm_of_segmentAbove?_eq {ids ids' : List String} (hids : ids.Nodup) (hids' : ids'.Nodup) (hne : ids ≠ [])
    (h : segmentAbove? ids = segmentAbove? ids') : ids.Perm ids' := by
  match ids, ids', hne with
  | [p], [], _ => simp [segmentAbove?] at h
  | [p], [q], _ =>
    obtain rfl : p = q := by simpa [segmentAbove?] using h
    exact .refl _
  | [p], q :: q' :: rest, _ => simp [segmentAbove?] at h
  | p :: p' :: rest, [], _ => simp [segmentAbove?] at h
  | p :: p' :: rest, [q], _ => simp [segmentAbove?] at h
  | p :: p' :: rest, q :: q' :: rest', _ =>
    have hsorted : Segment.sortedIds (p :: p' :: rest) = Segment.sortedIds (q :: q' :: rest') := by
      simpa [segmentAbove?] using h
    exact (Segment.sortedIds_perm hids).symm.trans (hsorted ▸ Segment.sortedIds_perm hids')

/-- The directory above a stage ends with the segment that the parents leave, if their own directories end
    with their own segments. -/
theorem getLast?_above {ids : List String} {dir : String → LineagePath}
    (h : ∀ p ∈ ids, (dir p).segments.getLast? = some (.stage p)) :
    (above (ids.map fun p => (p, dir p))).segments.getLast? = segmentAbove? ids := by
  match ids with
  | [] => rfl
  | [p] => exact h p (List.mem_singleton_self p)
  | p :: q :: rest => simp [above, segmentAbove?, LineagePath.child, Function.comp_def]

/-- What begins the common part of some directories is what begins all of them. -/
theorem prefix_foldl_common_iff {xs : List Segment} {parents : List (String × LineagePath)} {dir : LineagePath} :
    xs <+: (parents.foldl (fun common p => common.common p.2) dir).segments ↔
      xs <+: dir.segments ∧ ∀ p ∈ parents, xs <+: p.2.segments := by
  induction parents generalizing dir with
  | nil => simp
  | cons p parents ih =>
    rw [List.foldl_cons, ih, LineagePath.common, LineagePath.prefix_commonSegments_iff]
    simp [and_assoc]

/-- The common part of some directories is the greatest path that begins all of them. -/
theorem isGLB_foldl_common (p : String × LineagePath) (rest : List (String × LineagePath)) :
    IsGLB {dir | dir ∈ (p :: rest).map (·.2)} (rest.foldl (fun common p => common.common p.2) p.2) := by
  refine isGLB_iff_le_iff.mpr fun b => ?_
  have hall : (∀ x ∈ p :: rest, b ≤ x.2) ↔ b ∈ lowerBounds {dir | dir ∈ (p :: rest).map (·.2)} :=
    List.forall_mem_map.symm
  rw [← hall, List.forall_mem_cons]
  simp only [LineagePath.le_iff, prefix_foldl_common_iff]

/-- The common part depends on which directories there are, not on their order or repetition. -/
theorem foldl_common_congr {p q : String × LineagePath} {rest rest' : List (String × LineagePath)}
    (h : ∀ dir, dir ∈ (p :: rest).map (·.2) ↔ dir ∈ (q :: rest').map (·.2)) :
    rest.foldl (fun common p => common.common p.2) p.2 = rest'.foldl (fun common p => common.common p.2) q.2 := by
  have hsame : {dir | dir ∈ (p :: rest).map (·.2)} = {dir | dir ∈ (q :: rest').map (·.2)} := Set.ext h
  exact (isGLB_foldl_common p rest).unique (hsame ▸ isGLB_foldl_common q rest')

/-- The order of the parents does not matter. -/
theorem above_eq_of_perm {parents parents' : List (String × LineagePath)} (h : parents.Perm parents') :
    above parents = above parents' := by
  match parents, parents', h with
  | [], parents', h => rw [List.nil_perm.mp h]
  | [p], parents', h => rw [List.perm_singleton.mp h.symm]
  | p :: p' :: rest, [], h => exact absurd h.length_eq (by simp)
  | p :: p' :: rest, [q], h => exact absurd h.length_eq (by simp)
  | p :: p' :: rest, q :: q' :: rest', h =>
    have hbase := foldl_common_congr fun _ => (h.map (·.2)).mem_iff
    have hjoin := Segment.sortedIds_eq_of_perm (h.map (·.1))
    simp only [List.map_cons] at hjoin
    simp only [above, hbase, List.map_cons, hjoin]

/-- The directory above a stage goes through those of the parents, up to where they part, and through the join. -/
theorem prefix_above_cases {parents : List (String × LineagePath)} {q : LineagePath} {s : Segment}
    (h : (q.child s).segments <+: (above parents).segments) :
    (∃ p ∈ parents, (q.child s).segments <+: p.2.segments) ∨
      2 ≤ parents.length ∧ s = .join (Segment.sortedIds (parents.map (·.1))) ∧ above parents = q.child s := by
  match parents with
  | [] => simp [above, LineagePath.root, LineagePath.child] at h
  | [p] => exact Or.inl ⟨p, List.mem_singleton_self p, h⟩
  | p :: p' :: rest =>
    simp only [above, LineagePath.child, List.prefix_concat_iff] at h
    rcases h with h | h
    · obtain ⟨hbase, hjoin⟩ := List.append_inj' h rfl
      have hjoin : s = .join (Segment.sortedIds ((p :: p' :: rest).map (·.1))) := by simpa using hjoin
      refine Or.inr ⟨by simp, hjoin, ?_⟩
      rw [hjoin, LineagePath.child, hbase]
      rfl
    · exact Or.inl ⟨p, List.mem_cons_self .., (prefix_foldl_common_iff.mp h).1⟩

/-- What begins the directory above a stage and ends with a stage segment begins the directory of a parent. -/
theorem exists_prefix_of_prefix_above {parents : List (String × LineagePath)} {q : LineagePath} {id : String}
    (h : (q.child (.stage id)).segments <+: (above parents).segments) :
    ∃ p ∈ parents, (q.child (.stage id)).segments <+: p.2.segments := by
  rcases prefix_above_cases h with h | ⟨-, hjoin, -⟩
  · exact h
  · exact nomatch hjoin

end Topology

/-! ### All stages -/

/-- Each stage stands below those of its parents that take part, and some parent of a child does. -/
structure Nests (d : Definition) (taking : String → List String) (dir : String → LineagePath) : Prop where
  dir_eq : ∀ id ∈ d.ids, dir id = (Topology.above ((taking id).map fun p => (p, dir p))).child (.stage id)
  mem_parents : ∀ id, ∀ p ∈ taking id, p ∈ d.parents id
  nodup : ∀ id, (taking id).Nodup
  ne_nil : ∀ id, d.parents id ≠ [] → taking id ≠ []

namespace Nests
variable {d : Definition} {taking taking' : String → List String} {dir dir' : String → LineagePath}

theorem getLast?_segments (h : Nests d taking dir) {id : String} (hid : id ∈ d.ids) :
    (dir id).segments.getLast? = some (.stage id) := by
  rw [h.dir_eq id hid, LineagePath.child, List.getLast?_concat]

theorem names_eq (h : Nests d taking dir) {id : String} (hid : id ∈ d.ids) :
    (dir id).names = (Topology.above ((taking id).map fun p => (p, dir p))).names ++ [id] := by
  conv_lhs => rw [h.dir_eq id hid, LineagePath.names_child]
  rfl

/-- Different stages never stand in the same directory. -/
theorem names_ne (h : Nests d taking dir) (h' : Nests d taking' dir') {id id' : String} (hid : id ∈ d.ids)
    (hid' : id' ∈ d.ids) (hne : id ≠ id') : (dir id).names ≠ (dir' id').names := by
  rw [h.names_eq hid, h'.names_eq hid']
  exact fun heq => hne (List.singleton_inj.mp (List.append_inj' heq rfl).2)

theorem named (wf : d.WellFormed) (h : Nests d taking dir) : ∀ id ∈ d.ids, (dir id).Named := by
  refine wf.parents_induction fun id hid ih => ?_
  rw [h.dir_eq id hid]
  refine (Topology.named_above (by simpa [Function.comp_def] using h.nodup id) fun p hp => ?_).child (wf.isName hid)
  obtain ⟨q, hq, rfl⟩ := List.mem_map.mp hp
  have hparent := h.mem_parents id q hq
  exact ⟨wf.isName (wf.mem_of_parents hparent), ih q hparent⟩

/-- The segment above a stage is the one that the parents that take part leave. -/
theorem getLast?_above (wf : d.WellFormed) (h : Nests d taking dir) (id : String) :
    (Topology.above ((taking id).map fun p => (p, dir p))).segments.getLast? = Topology.segmentAbove? (taking id) :=
  Topology.getLast?_above fun p hp => h.getLast?_segments (wf.mem_of_parents (h.mem_parents id p hp))

/-- Where a stage stands tells which of its parents take part. -/
theorem perm_of_dir_eq (wf : d.WellFormed) (h : Nests d taking dir) (h' : Nests d taking' dir') {id : String}
    (hparents : d.parents id ≠ []) (hdir : dir id = dir' id) : (taking id).Perm (taking' id) := by
  obtain ⟨p, hp⟩ := List.exists_mem_of_ne_nil _ hparents
  have hid := Definition.mem_ids_of_parents hp
  rw [h.dir_eq id hid, h'.dir_eq id hid] at hdir
  have habove := List.append_cancel_right (congrArg LineagePath.segments hdir)
  refine Topology.perm_of_segmentAbove?_eq (h.nodup id) (h'.nodup id) (h.ne_nil id hparents) ?_
  rw [← h.getLast?_above wf, ← h'.getLast?_above wf, habove]

/-- A stage segment on the way to a stage ends the directory of that other stage, which lies above. -/
theorem eq_dir_of_prefix (wf : d.WellFormed) (h : Nests d taking dir) {q : LineagePath} {p : String} :
    ∀ id ∈ d.ids, (q.child (.stage p)).segments <+: (dir id).segments →
      p ∈ d.ids ∧ dir p = q.child (.stage p) ∧ (p = id ∨ d.Above p id) := by
  refine wf.parents_induction fun id hid ih hbegins => ?_
  rw [h.dir_eq id hid, LineagePath.child, LineagePath.child, List.prefix_concat_iff] at hbegins
  rcases hbegins with heq | hbegins
  · obtain ⟨habove, hstage⟩ := List.append_inj' heq rfl
    obtain rfl : p = id := by simpa using hstage
    refine ⟨hid, ?_, Or.inl rfl⟩
    rw [h.dir_eq p hid, LineagePath.child, LineagePath.child, habove]
  · obtain ⟨x, hx, hbegins⟩ := Topology.exists_prefix_of_prefix_above hbegins
    obtain ⟨r, hr, rfl⟩ := List.mem_map.mp hx
    have hparent := h.mem_parents id r hr
    obtain ⟨hp, hdir, hpr⟩ := ih r hparent hbegins
    refine ⟨hp, hdir, Or.inr ?_⟩
    rcases hpr with rfl | habove
    · exact .single hparent
    · exact habove.tail hparent

end Nests

/-! ### The default layout -/

namespace Topology
variable {d : Definition} {t : Topology}

/-- The default directory of a stage; the session root for an unknown one. -/
def dir (t : Topology) (id : String) : LineagePath := ((t.path? id).map (·.dir)).getD .root

theorem find?_eq_some_of_prefix {before stages : List StageLayout} (hbegins : before <+: stages) {id : String}
    {l : StageLayout} (h : find? before id = some l) : find? stages id = some l := by
  obtain ⟨after, rfl⟩ := hbegins
  rw [find?, List.find?_append, ← find?, h]
  rfl

/-- What was laid out stays, and each further stage is laid out over some that came before it. -/
theorem prefix_of_layoutAll {ids : List String} {placed stages : List StageLayout}
    (h : layoutAll d placed ids = .ok stages) :
    placed <+: stages ∧
      ∀ l ∈ stages, l ∈ placed ∨ ∃ id before, before <+: stages ∧ layout d before id = .ok l := by
  induction ids generalizing placed with
  | nil =>
    cases h
    exact ⟨List.prefix_rfl, fun l hl => Or.inl hl⟩
  | cons id ids ih =>
    obtain ⟨l, hl, h⟩ := bind_eq_ok_iff.mp h
    obtain ⟨hbegins, hstages⟩ := ih h
    have hplaced := (List.prefix_append placed [l]).trans hbegins
    refine ⟨hplaced, fun x hx => ?_⟩
    rcases hstages x hx with hx | hx
    · rcases List.mem_append.mp hx with hx | hx
      · exact Or.inl hx
      · exact Or.inr ⟨id, placed, hplaced, by rw [hl, List.mem_singleton.mp hx]⟩
    · exact Or.inr hx

/-- The directories of parents are looked up among the stages laid out so far, which all stages begin with. -/
theorem eq_map_of_mapM_parentDir {before : List StageLayout} (hbegins : before <+: t.stages) {parents : List String}
    {dirs : List (String × LineagePath)} (h : parents.mapM (parentDir before) = .ok dirs) :
    dirs = parents.map fun p => (p, t.dir p) := by
  induction parents generalizing dirs with
  | nil =>
    cases h
    rfl
  | cons p parents ih =>
    rw [List.mapM_cons] at h
    obtain ⟨x, hx, h⟩ := bind_eq_ok_iff.mp h
    obtain ⟨rest, hrest, h⟩ := bind_eq_ok_iff.mp h
    cases h
    rw [List.map_cons, ih hrest]
    congr 1
    unfold parentDir at hx
    split at hx
    · next l hl =>
      cases hx
      rw [dir, path?, find?_eq_some_of_prefix hbegins hl]
      rfl
    · cases hx

theorem path?_eq_some (wf : d.WellFormed) (h : Describes d d.order t.stages) {id : String} (hid : id ∈ d.ids) :
    t.path? id = some ⟨id, t.dir id⟩ := by
  obtain ⟨l, hl⟩ := find?_eq_some_iff.mpr (h.ids_eq ▸ wf.mem_order_iff.mpr hid)
  have hstage := (stage_of_find? hl).2
  rw [dir, path?, hl, Option.map_some, Option.map_some, Option.getD_some, ← hstage]

/-- A stage is laid out below the directories that its parents were given. -/
theorem dir_of_layout {before : List StageLayout} {id : String} {l : StageLayout} (h : layout d before id = .ok l) :
    l.path.stage = id ∧ ∃ dirs, (Stage.distinct (d.parents id)).mapM (parentDir before) = .ok dirs ∧
      place id (.stage id) dirs = .ok l.path.dir := by
  unfold layout at h
  split at h
  · cases h
  · next s hs =>
    split at h
    · cases h
    · next segment hsegment =>
      obtain ⟨dirs, hdirs, h⟩ := bind_eq_ok_iff.mp h
      obtain ⟨place, hplace, h⟩ := bind_eq_ok_iff.mp h
      obtain ⟨_, -, hsegment⟩ := bind_eq_ok_iff.mp hsegment
      cases h
      cases hsegment
      exact ⟨rfl, dirs, by rwa [Definition.parents_of_stage? hs], hplace⟩

/-- In the default layout a stage stands below all its parents. -/
theorem nests (wf : d.WellFormed) (ht : resolve d = .ok t) :
    Nests d (fun id => Stage.distinct (d.parents id)) t.dir where
  dir_eq id hid := by
    obtain ⟨t', ht', hdescribes⟩ := resolve_eq_ok wf
    obtain rfl : t = t' := Except.ok.inj (ht.symm.trans ht')
    obtain ⟨stages, hall, hstages⟩ := bind_eq_ok_iff.mp ht
    cases hstages
    obtain ⟨l, hl⟩ := find?_eq_some_iff.mpr (hdescribes.ids_eq ▸ wf.mem_order_iff.mpr hid)
    obtain ⟨hmem, rfl⟩ := stage_of_find? hl
    obtain ⟨id, before, hbegins, hlayout⟩ := ((prefix_of_layoutAll hall).2 l hmem).resolve_left List.not_mem_nil
    obtain ⟨rfl, dirs, hdirs, hplace⟩ := dir_of_layout hlayout
    have hdirs := eq_map_of_mapM_parentDir (t := ⟨stages⟩) hbegins hdirs
    have hnodup : (dirs.map (·.1)).Nodup := by
      rw [hdirs, List.map_map]
      simpa [Function.comp_def] using Stage.nodup_distinct (d.parents l.path.stage)
    have hvalid : ∀ p ∈ dirs, Segment.validate p.1 = .ok () := fun p hp => by
      obtain ⟨q, hq, rfl⟩ := List.mem_map.mp (hdirs ▸ hp)
      exact wf.validate_id q (wf.mem_of_parents (Stage.mem_distinct_iff.mp hq))
    have hdir : dir ⟨stages⟩ l.path.stage = l.path.dir := by
      rw [dir, path?, hl]
      rfl
    rw [place_eq_ok _ _ hnodup hvalid] at hplace
    rw [hdir, ← Except.ok.inj hplace, hdirs]
  mem_parents _ _ hp := Stage.mem_distinct_iff.mp hp
  nodup id := Stage.nodup_distinct (d.parents id)
  ne_nil id hid := by
    obtain ⟨p, hp⟩ := List.exists_mem_of_ne_nil _ hid
    exact List.ne_nil_of_mem (Stage.mem_distinct_iff.mpr hp)

end Topology
end StageLineage
