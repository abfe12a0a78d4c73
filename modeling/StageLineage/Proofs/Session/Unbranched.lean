import StageLineage.Proofs.Lineage.Default
import StageLineage.Proofs.Session.Presence

/-! Stages that never move. A stage stands in its default place as long as no optional stage lies above it, so
    materializing it again overwrites its file, and what happens to other stages does not touch it. -/

namespace StageLineage

theorem StagePath.fileName?_join_artifactPath (root : Path) {q : StagePath} (hdir : q.dir.Named)
    (hstage : Path.IsName q.stage) : (root.join q.artifactPath).fileName? = some q.artifactFile := by
  have hlast : ((q.dir.names ++ [metaName, q.artifactFile]).map Path.Component.name).getLast? =
      some (.name q.artifactFile) := by simp
  rw [Path.fileName?, components_join_artifactPath root hdir hstage, List.getLast?_append_of_ne_nil _ (by simp), hlast]

theorem Path.fileName?_eq_of_compare {p q : Path} (h : compare p q = .eq) : p.fileName? = q.fileName? := by
  rw [fileName?, fileName?, compare_eq_iff.mp h]

namespace Session
variable {s : Session} {store : MemoryStore} {id : String} {calls before after : List Call} {c : Call}
  {m : Materialization}

/-- The files below the session root that have the name of the envelope of a stage. -/
def filesOf (s : Session) (store : MemoryStore) (id : String) : List Path :=
  (store.filesUnder s.root).filter (·.fileName? == some (id ++ ".json"))

/-- A call of a history for a stage that succeeded. -/
structure Success (s : Session) (calls : List Call) (id : String) (before : List Call) (c : Call) (after : List Call)
    (m : Materialization) : Prop where
  calls_eq : calls = before ++ c :: after
  stage_eq : c.stage = id
  answer_eq : (s.history .empty before).answer (s.materialize c.stage c.content) = .ok m

/-- A call for a stage that succeeded as the last one. -/
structure LastSuccess (s : Session) (calls : List Call) (id : String) (before : List Call) (c : Call)
    (after : List Call) (m : Materialization) : Prop extends s.Success calls id before c after m where
  last : ∀ between c' rest m', after = between ++ c' :: rest → ¬ s.Success calls id (before ++ c :: between) c' rest m'

/-- If some call for a stage succeeded, one did as the last. -/
theorem Success.exists_last (h : s.Success calls id before c after m) :
    ∃ before c after m, s.LastSuccess calls id before c after m := by
  induction hlength : after.length using Nat.strong_induction_on generalizing before c after m with
  | _ n ih =>
    by_cases hlater : ∃ between c' rest m', after = between ++ c' :: rest ∧
        s.Success calls id (before ++ c :: between) c' rest m'
    · obtain ⟨between, c', rest, m', rfl, hsuccess⟩ := hlater
      exact ih rest.length (by simp at hlength; omega) hsuccess rfl
    · exact ⟨before, c, after, m, h, fun between c' rest m' heq hsuccess =>
        hlater ⟨between, c', rest, m', heq, hsuccess⟩⟩

/-! ### Files -/

theorem mem_keys_after (hp : s.persona.IsRead) {file : Path}
    (h : file ∈ (store.after (s.materialize c.stage c.content)).files.keys) :
    file ∈ store.files.keys ∨
      ∃ m, store.answer (s.materialize c.stage c.content) = .ok m ∧ file = m.artifactPath := by
  cases hm : store.answer (s.materialize c.stage c.content) with
  | error e => exact Or.inl (after_of_answer_error hp hm ▸ h)
  | ok m =>
    rw [(materialized_of_answer hp hm).after_eq] at h
    rcases SortedMap.mem_keys_insert h with rfl | h
    · exact Or.inr ⟨m, rfl, rfl⟩
    · exact Or.inl h

/-- Every file is one that a call wrote, as it spelled it. -/
theorem exists_success_of_mem_keys (hp : s.persona.IsRead) {file : Path}
    (h : file ∈ (s.history .empty calls).files.keys) :
    ∃ id before c after m, s.Success calls id before c after m ∧ file = m.artifactPath := by
  induction calls using List.reverseRecOn with
  | nil => cases h
  | append_singleton calls c ih =>
    rw [history_concat] at h
    rcases mem_keys_after hp h with h | ⟨m, hm, rfl⟩
    · obtain ⟨id, before, c', after, m, ⟨rfl, hstage, hm⟩, rfl⟩ := ih h
      exact ⟨id, before, c', after ++ [c], m, ⟨by simp, hstage, hm⟩, rfl⟩
    · exact ⟨c.stage, calls, c, [], m, ⟨rfl, rfl, hm⟩, rfl⟩

theorem Success.artifactPath_eq (hp : s.persona.IsRead) (h : s.Success calls id before c after m) :
    id ∈ s.persona.definition.ids ∧ m.artifactPath = (s.lineageIn (s.history .empty before)).file id := by
  obtain ⟨-, rfl, hm⟩ := h
  have hmaterialized := materialized_of_answer hp hm
  obtain ⟨payload, -, rfl⟩ := hmaterialized.ofValue
  exact ⟨hmaterialized.mem_ids, rfl⟩

theorem fileName?_file (hp : s.persona.IsRead) (store : MemoryStore) (hid : id ∈ s.persona.definition.ids) :
    ((s.lineageIn store).file id).fileName? = some (id ++ ".json") := by
  rw [file_eq hp]
  exact StagePath.fileName?_join_artifactPath s.root (named_dir hp store hid) (hp.wellFormed.isName hid)

theorem Success.get?_eq (hp : s.persona.IsRead) (h : s.Success calls id before c after m) :
    (s.history .empty (before ++ [c])).files.get? m.artifactPath =
      some (m.envelope.encode s.options.pretty).toUTF8 := by
  obtain ⟨-, rfl, hm⟩ := h
  rw [history_concat, (materialized_of_answer hp hm).after_eq, storeWith, SortedMap.get?_insert,
    if_pos Std.ReflOrd.compare_self]

theorem history_split (s : Session) (before : List Call) (c : Call) (after : List Call) :
    s.history .empty (before ++ c :: after) = s.history (s.history .empty (before ++ [c])) after := by
  rw [← history_append, List.append_assoc, List.singleton_append]

/-- Whatever else is called, the file of a call that succeeded stays. -/
theorem Success.filesOf_ne_nil (hp : s.persona.IsRead) (h : s.Success calls id before c after m) :
    s.filesOf (s.history .empty calls) id ≠ [] := by
  obtain ⟨hid, hartifact⟩ := h.artifactPath_eq hp
  have hwritten : (s.history .empty calls).fileExists m.artifactPath = true := by
    rw [h.calls_eq, history_split]
    refine fileExists_history hp after ?_
    rw [MemoryStore.fileExists, SortedMap.contains, h.get?_eq hp]
    rfl
  obtain ⟨bytes, hbytes⟩ := Option.isSome_iff_exists.mp hwritten
  obtain ⟨file, hfile, hsame⟩ := SortedMap.exists_mem_keys hbytes
  rw [hartifact] at hsame
  refine List.ne_nil_of_mem (List.mem_filter.mpr ⟨List.mem_filter.mpr ⟨hfile, ?_⟩, ?_⟩)
  · rw [← Path.startsWith_of_compare hsame, startsWith_file hp _ hid]
  · rw [← Path.fileName?_eq_of_compare hsame, fileName?_file hp _ hid, beq_self_eq_true]

theorem exists_success_of_mem_filesOf (hp : s.persona.IsRead) {file : Path}
    (h : file ∈ s.filesOf (s.history .empty calls) id) :
    ∃ before c after m, s.Success calls id before c after m ∧ file = m.artifactPath := by
  obtain ⟨hunder, hname⟩ := List.mem_filter.mp h
  obtain ⟨id', before, c, after, m, hsuccess, rfl⟩ := exists_success_of_mem_keys hp (List.mem_filter.mp hunder).1
  obtain ⟨hid', hartifact⟩ := hsuccess.artifactPath_eq hp
  rw [hartifact, fileName?_file hp _ hid', beq_iff_eq, Option.some_inj] at hname
  obtain rfl : id' = id :=
    StagePath.artifactFile_inj (p := ⟨id', .root⟩) (q := ⟨id, .root⟩) |>.mp hname
  exact ⟨before, c, after, m, hsuccess, rfl⟩

/-! ### One file -/

section
variable (hp : s.persona.IsRead) (hid : id ∈ s.persona.definition.ids)
variable (hmandatory : ∀ a ∈ s.persona.definition.ancestors id, s.persona.definition.isOptional a = false)
include hp hid hmandatory

theorem file_eq_default (store : MemoryStore) :
    (s.lineageIn store).file id = s.root.join (StagePath.mk id (s.persona.topology.dir id)).artifactPath := by
  have hwf := hp.wellFormed
  have hcomplete : Lineage.CompleteAbove s.persona.definition (s.lineageIn store) id := fun o ho hoptional => by
    simp [hmandatory o ho] at hoptional
  rw [file_eq hp, (realizes hp store).laid.dir_eq_default hwf hp.resolve_eq id hid hcomplete]

/-- Calls that are not successful calls for the stage leave its file as it is. -/
theorem get?_file_of_forall_not_success {file : Path}
    (hfile : file = s.root.join (StagePath.mk id (s.persona.topology.dir id)).artifactPath) (before : List Call)
    (after : List Call) (hnone : ∀ between c rest m, after = between ++ c :: rest →
      ¬ s.Success (before ++ after) id (before ++ between) c rest m) :
    (s.history .empty (before ++ after)).files.get? file = (s.history .empty before).files.get? file := by
  induction after using List.reverseRecOn with
  | nil => rw [List.append_nil]
  | append_singleton after c ih =>
    have hbefore := ih fun between c' rest m heq hsuccess =>
      hnone between c' (rest ++ [c]) m (by simp [heq]) ⟨by simp [heq], hsuccess.stage_eq, hsuccess.answer_eq⟩
    rw [← hbefore, ← List.append_assoc, history_concat]
    rcases get?_files_after hp (s.history .empty (before ++ after)) c file with hsame | ⟨m, hm, hcompare, -⟩
    · exact hsame
    -- A call that wrote the file was a call for the stage.
    · have hmaterialized := materialized_of_answer hp hm
      obtain ⟨payload, -, rfl⟩ := hmaterialized.ofValue
      rw [hfile, ← file_eq_default hp hid hmandatory (s.history .empty (before ++ after))] at hcompare
      obtain ⟨-, rfl⟩ := (compare_file_iff hp _ _ hid hmaterialized.mem_ids).mp hcompare
      exact absurd ⟨by simp, rfl, hm⟩ (hnone after c [] _ rfl)

theorem LastSuccess.get?_eq (h : s.LastSuccess calls id before c after m) :
    (s.history .empty calls).files.get? (s.root.join (StagePath.mk id (s.persona.topology.dir id)).artifactPath) =
      some (m.envelope.encode s.options.pretty).toUTF8 := by
  have hdefault := (h.artifactPath_eq hp).2.trans (file_eq_default hp hid hmandatory _)
  have hkept := get?_file_of_forall_not_success hp hid hmandatory rfl (before ++ [c]) after
    fun between c' rest m' heq hsuccess => h.last between c' rest m' heq
      ⟨by simp [h.calls_eq, heq], hsuccess.stage_eq, by simpa using hsuccess.answer_eq⟩
  rw [← hdefault, h.toSuccess.get?_eq hp, List.append_assoc, List.singleton_append, hdefault, ← h.calls_eq] at hkept
  exact hkept

end

/-- A stage without optional stages above it has at most one file below the session root. It has one exactly if a
    call for it succeeded, in the default place, with the envelope of the last call that did. -/
theorem files_unbranched (hp : s.persona.IsRead) (calls : List Call) (hid : id ∈ s.persona.definition.ids)
    (hmandatory : ∀ a ∈ s.persona.definition.ancestors id, s.persona.definition.isOptional a = false) :
    (s.filesOf (s.history .empty calls) id).length ≤ 1 ∧
    (s.filesOf (s.history .empty calls) id ≠ [] ↔ ∃ before c after m, s.Success calls id before c after m) ∧
    (∃ path, s.persona.topology.path? id = some path ∧
      ∀ file ∈ s.filesOf (s.history .empty calls) id, file = s.root.join path.artifactPath ∧
        ∃ before c after m, s.LastSuccess calls id before c after m ∧
          (s.history .empty calls).files.get? file = some (m.envelope.encode s.options.pretty).toUTF8) ∧
    ∀ file ∈ (s.history .empty calls).filesUnder s.root,
      ∃ t ∈ s.persona.definition.ids, file.fileName? = some (t ++ ".json") := by
  have hdefault : ∀ file ∈ s.filesOf (s.history .empty calls) id,
      file = s.root.join (StagePath.mk id (s.persona.topology.dir id)).artifactPath := fun file hfile => by
    obtain ⟨before, c, after, m, hsuccess, rfl⟩ := exists_success_of_mem_filesOf hp hfile
    exact (hsuccess.artifactPath_eq hp).2.trans (file_eq_default hp hid hmandatory _)
  refine ⟨?_, ⟨fun h => ?_, fun ⟨before, c, after, m, h⟩ => h.filesOf_ne_nil hp⟩,
    ⟨_, Topology.path?_eq hp hid, fun file hfile => ⟨hdefault file hfile, ?_⟩⟩, fun file hfile => ?_⟩
  · have hnodup : (s.filesOf (s.history .empty calls) id).Nodup := ((SortedMap.nodup_keys _).filter _).filter _
    rwa [List.eq_replicate_of_mem hdefault, List.nodup_replicate] at hnodup
  · obtain ⟨file, hfile⟩ := List.exists_mem_of_ne_nil _ h
    obtain ⟨before, c, after, m, hsuccess, -⟩ := exists_success_of_mem_filesOf hp hfile
    exact ⟨before, c, after, m, hsuccess⟩
  · obtain ⟨_, _, _, _, hsuccess, -⟩ := exists_success_of_mem_filesOf hp hfile
    obtain ⟨before, c, after, m, hlast⟩ := hsuccess.exists_last
    exact ⟨before, c, after, m, hlast, hdefault file hfile ▸ hlast.get?_eq hp hid hmandatory⟩
  · obtain ⟨t, before, c, after, m, hsuccess, rfl⟩ := exists_success_of_mem_keys hp (List.mem_filter.mp hfile).1
    obtain ⟨ht, hartifact⟩ := hsuccess.artifactPath_eq hp
    exact ⟨t, ht, by rw [hartifact, fileName?_file hp _ ht]⟩

/-- The optional stage `o` has one file, for `x` above it is mandatory. -/
theorem unbranched_forked : ∃ s : Session, s.persona.IsRead ∧ s.persona.definition = .forked ∧
    (s.filesOf (s.history .empty forkedCalls) "o").length = 1 := by
  obtain ⟨s, hp, hd, -, hroom⟩ := exists_forked
  obtain ⟨hsucceeds, -⟩ := forked_history hp hd hroom
  obtain ⟨m, hm⟩ := hsucceeds (forkedCalls.take 3) ⟨"o", .bool true⟩ [] rfl
  have hancestors : Definition.forked.ancestors "o" = ["x"] := by cbv
  obtain ⟨hatMost, hsome, -, -⟩ := files_unbranched hp forkedCalls
    (hd ▸ by decide : "o" ∈ s.persona.definition.ids) (by rw [hd, hancestors]; decide)
  refine ⟨s, hp, hd, Nat.le_antisymm hatMost (List.length_pos_iff.mpr (hsome.mpr ?_))⟩
  exact ⟨_, _, _, m, rfl, rfl, hm⟩

end Session
end StageLineage
