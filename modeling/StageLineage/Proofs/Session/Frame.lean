import StageLineage.Proofs.Session.Presence

/-! What a call leaves alone. Materializing a stage writes one file, so another stage can move or change
    its presence only if it lies below the stage and the stage is optional and was absent. The parents of
    the stage therefore stay as they are, and the same call made again finds what it found. -/

namespace StageLineage.Session
variable {s : Session} {store store' : MemoryStore} {stage id : String} {content : Json} {m : Materialization}

/-! ### What a call depends on -/

theorem firstObstacle?_congr
    (h : ∀ p ∈ s.persona.definition.parents stage, s.readIn store' p = s.readIn store p) :
    s.firstObstacle? store' stage = s.firstObstacle? store stage := by
  rw [firstObstacle?, firstObstacle?, ← List.head?_filterMap, ← List.head?_filterMap]
  congr 1
  refine List.filterMap_congr fun p hp => ?_
  rw [obstacle?, obstacle?, h p (Stage.mem_distinct_iff.mp hp)]

/-- What is written depends on where the stage stands and on what is stored of its parents. -/
theorem materializedIn_congr (hp : s.persona.IsRead)
    (hdir : (s.lineageIn store').dir stage = (s.lineageIn store).dir stage)
    (h : ∀ p ∈ s.persona.definition.parents stage, s.readIn store' p = s.readIn store p) (payload : Payload) :
    s.materializedIn store' stage payload =
      { s.materializedIn store stage payload with replaced := (s.lineageIn store').isPresent stage } := by
  have hpresent : ∀ p ∈ s.persona.definition.parents stage,
      (s.lineageIn store').isPresent p = (s.lineageIn store).isPresent p := fun p hparent =>
    isPresent_congr hp (hp.wellFormed.mem_of_parents hparent) (h p hparent)
  have hparents : s.parentFingerprints store' stage = s.parentFingerprints store stage := by
    rw [parentFingerprints, parentFingerprints]
    congr 1
    refine List.filterMap_congr fun p hparent => ?_
    rw [fingerprintIn?, fingerprintIn?, h p (Stage.mem_distinct_iff.mp hparent)]
  have hskipped : (Stage.distinct (s.persona.definition.parents stage)).filter (!(s.lineageIn store').isPresent ·) =
      (Stage.distinct (s.persona.definition.parents stage)).filter (!(s.lineageIn store).isPresent ·) :=
    List.filter_congr fun p hparent => by rw [hpresent p (Stage.mem_distinct_iff.mp hparent)]
  simp only [materializedIn, hdir, hparents, hskipped, file_eq hp]

theorem file_eq_of_dir_eq (hp : s.persona.IsRead) (hdir : (s.lineageIn store').dir id = (s.lineageIn store).dir id) :
    (s.lineageIn store').file id = (s.lineageIn store).file id := by
  rw [file_eq hp, file_eq hp, hdir]

/-! ### What a call changes -/

theorem get?_files_storeWith (s : Session) (store : MemoryStore) (m : Materialization) (p : Path) :
    (s.storeWith store m).files.get? p =
      if compare p m.artifactPath = .eq then some (m.envelope.encode s.options.pretty).toUTF8 else store.files.get? p :=
  SortedMap.get?_insert ..

theorem fileExists_artifactPath (s : Session) (store : MemoryStore) (m : Materialization) :
    (s.storeWith store m).fileExists m.artifactPath = true := by
  rw [MemoryStore.fileExists, SortedMap.contains, get?_files_storeWith, if_pos Std.ReflCmp.compare_self]
  rfl

namespace Materialized

theorem path_eq (h : s.Materialized store stage content m) : m.path = ⟨stage, (s.lineageIn store).dir stage⟩ := by
  obtain ⟨payload, -, rfl⟩ := h.ofValue
  rfl

theorem artifactPath_eq (h : s.Materialized store stage content m) :
    m.artifactPath = (s.lineageIn store).file stage := by
  obtain ⟨payload, -, rfl⟩ := h.ofValue
  rfl

variable (hp : s.persona.IsRead) (h : s.Materialized store stage content m)
include hp h

theorem named_dir : m.path.dir.Named := h.path_eq ▸ Session.named_dir hp store h.mem_ids

/-- The files of other stages are not the one that is written. -/
theorem get?_file_eq (hid : id ∈ s.persona.definition.ids) (hne : id ≠ stage)
    (hdir : (s.lineageIn (s.storeWith store m)).dir id = (s.lineageIn store).dir id) :
    (s.storeWith store m).files.get? ((s.lineageIn (s.storeWith store m)).file id) =
      store.files.get? ((s.lineageIn store).file id) := by
  rw [file_eq_of_dir_eq hp hdir, get?_files_storeWith, if_neg]
  rw [h.artifactPath_eq, compare_file_iff hp store store hid h.mem_ids]
  exact fun hsame => hne hsame.2

theorem isPresent_eq_of_dir_eq (hid : id ∈ s.persona.definition.ids) (hne : id ≠ stage)
    (hdir : (s.lineageIn (s.storeWith store m)).dir id = (s.lineageIn store).dir id) :
    (s.lineageIn (s.storeWith store m)).isPresent id = (s.lineageIn store).isPresent id := by
  rw [isPresent_eq hp _ hid, isPresent_eq hp _ hid, MemoryStore.fileExists, MemoryStore.fileExists, SortedMap.contains,
    SortedMap.contains, h.get?_file_eq hp hid hne hdir]

/-- A stage stands where it stood, unless it lies below a stage that is optional and was absent. -/
theorem dir_eq_of_kept (hid : id ∈ s.persona.definition.ids)
    (hkept : s.persona.definition.Above stage id →
      s.persona.definition.isOptional stage = false ∨ (s.lineageIn store).isPresent stage = true) :
    (s.lineageIn (s.storeWith store m)).dir id = (s.lineageIn store).dir id := by
  have hwf := hp.wellFormed
  rcases (realizes hp _).dir_eq_or_exists hwf (realizes hp store) id hid with
    hdir | ⟨o, habove, hoptional, hdir, hchanged⟩
  · exact hdir
  -- The stage that moved it stands where it stood, so its presence changed only if its file is the one written.
  · exfalso
    have hoid := hwf.mem_of_above habove
    by_cases ho : o = stage
    · subst ho
      rcases hkept habove with hmandatory | hpresent
      · rw [hoptional] at hmandatory
        cases hmandatory
      · refine hchanged (hpresent.symm ▸ ?_)
        rw [isPresent_eq hp _ hoid, file_eq_of_dir_eq hp hdir, ← h.artifactPath_eq]
        exact fileExists_artifactPath s store m
    · exact hchanged (h.isPresent_eq_of_dir_eq hp hoid ho hdir)

theorem dir_eq : (s.lineageIn (s.storeWith store m)).dir stage = (s.lineageIn store).dir stage :=
  h.dir_eq_of_kept hp h.mem_ids fun habove => absurd habove (hp.wellFormed.not_above_self stage h.mem_ids)

theorem isPresent_self : (s.lineageIn (s.storeWith store m)).isPresent stage = true := by
  rw [isPresent_eq hp _ h.mem_ids, file_eq_of_dir_eq hp (h.dir_eq hp), ← h.artifactPath_eq]
  exact fileExists_artifactPath s store m

theorem isPresent_eq_of_kept (hid : id ∈ s.persona.definition.ids) (hne : id ≠ stage)
    (hkept : s.persona.definition.Above stage id →
      s.persona.definition.isOptional stage = false ∨ (s.lineageIn store).isPresent stage = true) :
    (s.lineageIn (s.storeWith store m)).isPresent id = (s.lineageIn store).isPresent id :=
  h.isPresent_eq_of_dir_eq hp hid hne (h.dir_eq_of_kept hp hid hkept)

theorem readIn_eq_of_dir_eq (hid : id ∈ s.persona.definition.ids) (hne : id ≠ stage)
    (hdir : (s.lineageIn (s.storeWith store m)).dir id = (s.lineageIn store).dir id) :
    s.readIn (s.storeWith store m) id = s.readIn store id := by
  rw [Session.readIn_eq hp _ hid, Session.readIn_eq hp _ hid, envelopeAt, envelopeAt, h.get?_file_eq hp hid hne hdir,
    file_eq_of_dir_eq hp hdir]

/-- What is stored of a stage stays, unless it lies below a stage that is optional and was absent. -/
theorem readIn_eq_of_kept (hid : id ∈ s.persona.definition.ids) (hne : id ≠ stage)
    (hkept : s.persona.definition.Above stage id →
      s.persona.definition.isOptional stage = false ∨ (s.lineageIn store).isPresent stage = true) :
    s.readIn (s.storeWith store m) id = s.readIn store id :=
  h.readIn_eq_of_dir_eq hp hid hne (h.dir_eq_of_kept hp hid hkept)

theorem readIn_eq_of_not_above (hid : id ∈ s.persona.definition.ids) (hne : id ≠ stage)
    (habove : ¬ s.persona.definition.Above stage id) : s.readIn (s.storeWith store m) id = s.readIn store id :=
  h.readIn_eq_of_kept hp hid hne fun hstage => absurd hstage habove

theorem readIn_parent_eq {p : String} (hparent : p ∈ s.persona.definition.parents stage) :
    s.readIn (s.storeWith store m) p = s.readIn store p :=
  h.readIn_eq_of_not_above hp (hp.wellFormed.mem_of_parents hparent) (hp.wellFormed.ne_of_parents hparent)
    (hp.wellFormed.not_above_of_parents hparent)

/-! ### The same call again -/

theorem storeWith_storeWith : s.storeWith (s.storeWith store m) m = s.storeWith store m := by
  have hnonempty : (s.root.join m.path.metaDir).isEmpty = false := by
    rw [StagePath.join_metaDir_eq_child s.root (h.named_dir hp)]
    exact Path.isEmpty_child _ StagePath.isName_metaName
  have hdirectories := MemoryStore.directories_ensureDirectory_of_contains (s.storeWith store m) hnonempty
    (MemoryStore.contains_ensureDirectory store hnonempty)
  rw [storeWith, hdirectories, storeWith, SortedMap.insert_insert_self]

/-- The same call finds what the first one found, and the file that it writes is there already. -/
theorem run_again : (s.storeWith store m).run (s.materialize stage content) =
    (.ok { m with replaced := true }, s.storeWith store m) := by
  have hstore := h.storeWith_storeWith hp
  have hparents : ∀ p ∈ s.persona.definition.parents stage, s.readIn (s.storeWith store m) p = s.readIn store p :=
    fun p hparent => h.readIn_parent_eq hp hparent
  have hdir := h.dir_eq hp
  have hself := h.isPresent_self hp
  have hnone := firstObstacle?_eq_none_iff.mpr h.obstacle?
  obtain ⟨payload, hpayload, hm⟩ := h.ofValue
  have hsame := materializedIn_congr hp hdir hparents payload
  rw [← hm, hself] at hsame
  rw [run_materialize hp _ h.mem_ids, hpayload]
  simp only [firstObstacle?_congr hparents, hnone, hsame]
  exact congrArg _ hstore

end Materialized

/-! ### The frame -/

/-- A stage stands where it stood and is present if it was. -/
def Unmoved (s : Session) (store store' : MemoryStore) (id : String) : Prop :=
  (s.lineageIn store').path? id = (s.lineageIn store).path? id ∧
    (s.lineageIn store').isPresent id = (s.lineageIn store).isPresent id

/-- What a call that led from `store` to `store'` leaves alone, and what the same call does again. -/
structure Framed (s : Session) (store : MemoryStore) (stage : String) (content : Json) (m : Materialization)
    (store' : MemoryStore) : Prop where
  files : ∀ p, compare p m.artifactPath ≠ .eq → store'.files.get? p = store.files.get? p
  kept : ∀ p, store.fileExists p = true → store'.fileExists p = true
  artifactPath : m.artifactPath = s.root.join m.path.artifactPath
  before : (s.lineageIn store).path? stage = some m.path
  after : (s.lineageIn store').path? stage = some m.path
  present : (s.lineageIn store').isPresent stage = true
  apart : ∀ id ∈ s.persona.definition.ids, id ≠ stage → id ∉ s.persona.definition.descendants stage →
    s.Unmoved store store' id
  /-- Nothing else moves if the stage is mandatory or was present. -/
  settled : s.persona.definition.isOptional stage = false ∨ (s.lineageIn store).isPresent stage = true →
    ∀ id ∈ s.persona.definition.ids, id ≠ stage → s.Unmoved store store' id
  again : store'.run (s.materialize stage content) = (.ok { m with replaced := true }, store')

theorem Materialized.unmoved (hp : s.persona.IsRead) (h : s.Materialized store stage content m)
    (hid : id ∈ s.persona.definition.ids) (hne : id ≠ stage)
    (hkept : s.persona.definition.Above stage id →
      s.persona.definition.isOptional stage = false ∨ (s.lineageIn store).isPresent stage = true) :
    s.Unmoved store (s.storeWith store m) id := by
  refine ⟨?_, h.isPresent_eq_of_kept hp hid hne hkept⟩
  rw [(realizes hp _).path?_eq hp.wellFormed hid, (realizes hp _).path?_eq hp.wellFormed hid,
    h.dir_eq_of_kept hp hid hkept]

/-- A call that succeeds writes the envelope of its stage and leaves everything else as it was, but for the
    stages below an optional stage that appears; made again, it changes nothing. -/
theorem materialize_framed (hp : s.persona.IsRead) (h : store.answer (s.materialize stage content) = .ok m) :
    s.Framed store stage content m (store.after (s.materialize stage content)) := by
  have hm := materialized_of_answer hp h
  have hwf := hp.wellFormed
  have hpath := hm.path_eq
  rw [hm.after_eq]
  refine ⟨fun p hne => ?_, fun p hexists => ?_, ?_, ?_, ?_, hm.isPresent_self hp, fun id hid hne hnot => ?_,
    fun hsettled id hid hne => ?_, hm.run_again hp⟩
  · rw [get?_files_storeWith, if_neg hne]
  · rw [MemoryStore.fileExists, SortedMap.contains, get?_files_storeWith]
    split
    · rfl
    · exact hexists
  · rw [hm.artifactPath_eq, file_eq hp, hpath]
  · rw [hpath, (realizes hp _).path?_eq hwf hm.mem_ids]
  · rw [hpath, (realizes hp _).path?_eq hwf hm.mem_ids, hm.dir_eq hp]
  · exact hm.unmoved hp hid hne fun habove => absurd (hwf.mem_descendants_iff.mpr habove) hnot
  · exact hm.unmoved hp hid hne fun _ => hsettled

/-- The call that makes the optional stage `o` appear, below which `a` moves. -/
theorem framed_forked : ∃ (s : Session) (m : Materialization), s.persona.IsRead ∧ s.persona.definition = .forked ∧
    (s.history .empty (forkedCalls.take 3)).answer (s.materialize "o" (.bool true)) = .ok m ∧
    s.Framed (s.history .empty (forkedCalls.take 3)) "o" (.bool true) m (s.history .empty forkedCalls) := by
  obtain ⟨s, hp, hd, -, hroom⟩ := exists_forked
  obtain ⟨hsucceeds, -⟩ := forked_history hp hd hroom
  obtain ⟨m, hm⟩ := hsucceeds (forkedCalls.take 3) ⟨"o", .bool true⟩ [] rfl
  exact ⟨s, m, hp, hd, hm, materialize_framed hp hm⟩

end StageLineage.Session
