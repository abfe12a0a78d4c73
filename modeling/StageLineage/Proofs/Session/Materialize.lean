import StageLineage.Proofs.Session.Memory
import StageLineage.Session.Materialize

/-! Materializing a stage whose store is in memory. A stage is materialized if and only if its payload is
    accepted and none of its parents is in the way, and then one file is written; if it is not, the store
    stays as it was. -/

namespace StageLineage.Session
variable {s : Session} {store : MemoryStore} {stage : String} {content : Json} {m : Materialization}

/-! ### Parents -/

/-- Why a parent keeps a stage from being materialized. -/
def obstacle? (s : Session) (store : MemoryStore) (stage parent : String) : Option SessionError :=
  match s.readIn store parent with
  | .error e => some e
  | .ok (some _) => none
  | .ok none => if s.persona.definition.isOptional parent then none else some (.missingParent stage parent)

/-- Where present stages can be read, a parent is in the way only if it is missing. -/
theorem obstacle?_eq (hp : s.persona.IsRead) (hread : s.Readable store) (stage : String) {p : String}
    (hpid : p ∈ s.persona.definition.ids) :
    s.obstacle? store stage p =
      if Position.isSatisfied s.persona.definition (s.lineageIn store) p then none else some (.missingParent stage p) := by
  have hsatisfied : Position.isSatisfied s.persona.definition (s.lineageIn store) p =
      ((s.lineageIn store).isPresent p || s.persona.definition.isOptional p) := rfl
  rw [hsatisfied, obstacle?]
  cases hpresent : (s.lineageIn store).isPresent p with
  | true =>
    obtain ⟨e, he⟩ := hread p hpid hpresent
    simp [he]
  | false =>
    rw [(readIn_eq_none_iff hp store hpid).mpr hpresent]
    simp

/-- The first declared parent that is in the way of a stage decides why it is refused. -/
def firstObstacle? (s : Session) (store : MemoryStore) (stage : String) : Option SessionError :=
  (Stage.distinct (s.persona.definition.parents stage)).findSome? (s.obstacle? store stage)

theorem firstObstacle?_eq_none_iff :
    s.firstObstacle? store stage = none ↔ ∀ p ∈ s.persona.definition.parents stage, s.obstacle? store stage p = none := by
  simp only [firstObstacle?, List.findSome?_eq_none_iff, Stage.mem_distinct_iff]

theorem exists_of_firstObstacle? {e : SessionError} (h : s.firstObstacle? store stage = some e) :
    ∃ p ∈ s.persona.definition.parents stage, s.obstacle? store stage p = some e := by
  obtain ⟨p, hp, he⟩ := List.exists_of_findSome?_eq_some h
  exact ⟨p, Stage.mem_distinct_iff.mp hp, he⟩

/-- Parents are gathered until one of them is in the way. -/
theorem run_gatherParents (hp : s.persona.IsRead) (store : MemoryStore) (stage : String) :
    ∀ (parents : List String) (g : GatheredParents), (∀ p ∈ parents, p ∈ s.persona.definition.ids) →
      store.run (gatherParents s.persona.definition (s.lineageIn store) stage g parents) =
        (match parents.findSome? (s.obstacle? store stage) with
          | some e => .error e
          | none => .ok ⟨(parents.filterMap fun p => (s.fingerprintIn? store p).map (p, ·)).foldl
              (fun m q => m.insert q.1 q.2) g.fingerprints,
            g.skipped ++ parents.filter (!(s.lineageIn store).isPresent ·)⟩, store) := by
  intro parents
  induction parents with
  | nil =>
    intro g _
    simp [gatherParents, MemoryStore.run_pure]
  | cons p parents ih =>
    intro g hids
    have hid := hids p (List.mem_cons_self ..)
    have ih := fun g => ih g fun q hq => hids q (List.mem_cons_of_mem _ hq)
    have hnone := readIn_eq_none_iff hp store hid
    cases hpresent : (s.lineageIn store).isPresent p with
    | true =>
      have hread : s.readIn store p ≠ .ok none := fun h => by simp [hnone.mp h] at hpresent
      simp only [gatherParents, hpresent, if_true, MemoryStore.run_bind, run_readFrom hp store hid,
        List.findSome?_cons, obstacle?]
      cases hstored : s.readIn store p with
      | error e => rfl
      | ok stored =>
        cases stored with
        | none => exact absurd hstored hread
        | some e => simp [ih, fingerprintIn?, hstored, hpresent]
    | false =>
      have hstored := hnone.mpr hpresent
      simp only [gatherParents, hpresent, Bool.false_eq_true, if_false, List.findSome?_cons, obstacle?, hstored]
      have hoptional : (s.persona.definition.stage? p).any (·.optional) = s.persona.definition.isOptional p := rfl
      rw [hoptional]
      cases s.persona.definition.isOptional p with
      | true => simp [ih, fingerprintIn?, hstored, hpresent]
      | false => rfl

/-! ### Writing -/

/-- What materializing a stage answers if nothing is in its way. -/
def materializedIn (s : Session) (store : MemoryStore) (stage : String) (payload : Payload) : Materialization where
  path := ⟨stage, (s.lineageIn store).dir stage⟩
  artifactPath := (s.lineageIn store).file stage
  envelope := .ofPayload payload (s.parentFingerprints store stage)
  replaced := (s.lineageIn store).isPresent stage
  skippedParents :=
    (Stage.distinct (s.persona.definition.parents stage)).filter (!(s.lineageIn store).isPresent ·)

def storeWith (s : Session) (store : MemoryStore) (m : Materialization) : MemoryStore :=
  ⟨(store.ensureDirectory (s.root.join m.path.metaDir)).directories,
    store.files.insert m.artifactPath (m.envelope.encode s.options.pretty).toUTF8⟩

theorem run_write {store' : MemoryStore} {p : Path} {bytes : ByteArray} (h : store.write p bytes = .ok store') :
    store.run (onStore (SessionStore.write p bytes)) = (.ok (), store') := by
  rw [onStore, MemoryStore.run_bind, MemoryStore.run_lift, MemoryStore.run_write_of_ok h]
  rfl

theorem run_writeEnvelope (hp : s.persona.IsRead) (store : MemoryStore) (hid : stage ∈ s.persona.definition.ids)
    (payload : Payload) :
    store.run (s.writeEnvelope (s.lineageIn store) stage payload ⟨s.parentFingerprints store stage,
        (Stage.distinct (s.persona.definition.parents stage)).filter (!(s.lineageIn store).isPresent ·)⟩) =
      (.ok (s.materializedIn store stage payload), s.storeWith store (s.materializedIn store stage payload)) := by
  have hwrite := MemoryStore.write_artifactPath store (p := ⟨stage, (s.lineageIn store).dir stage⟩) s.root
    (named_dir hp store hid) (hp.wellFormed.isName hid)
  have hreplaced := isPresent_eq hp store hid
  rw [file_eq hp] at hreplaced
  have hexists : ∀ p, store.run (liftM (SessionStore.fileExists p : StateM MemoryStore Bool)) =
      (.ok (store.fileExists p), store) := fun _ => rfl
  have hensure : ∀ p, store.run (onStore (SessionStore.ensureDirectory p)) = (.ok (), store.ensureDirectory p) :=
    fun _ => rfl
  simp only [writeEnvelope, (realizes hp store).path?_eq hp.wellFormed hid, MemoryStore.run_bind, hexists, hensure,
    run_write (hwrite _), MemoryStore.run_pure, ← hreplaced]
  simp only [materializedIn, storeWith, file_eq hp]

/-! ### The operation -/

/-- Materializing a stage: either something is in the way and nothing changes, or one envelope is written. -/
theorem run_materialize (hp : s.persona.IsRead) (store : MemoryStore) (hid : stage ∈ s.persona.definition.ids)
    (content : Json) :
    store.run (s.materialize stage content) =
      match Payload.ofValue s.options.maxPayload content with
      | .error cause => (.error (.payload stage cause), store)
      | .ok payload =>
        match s.firstObstacle? store stage with
        | some e => (.error e, store)
        | none => (.ok (s.materializedIn store stage payload), s.storeWith store (s.materializedIn store stage payload)) := by
  obtain ⟨declared, hdeclared⟩ := Definition.isSome_stage? hid
  have hparents : declared.distinctParents = Stage.distinct (s.persona.definition.parents stage) := by
    rw [Stage.distinctParents, Definition.parents_of_stage? hdeclared]
  have hgather := run_gatherParents hp store stage (Stage.distinct (s.persona.definition.parents stage)) ⟨.empty, []⟩
    fun p hmem => hp.wellFormed.mem_of_parents (Stage.mem_distinct_iff.mp hmem)
  rw [← firstObstacle?] at hgather
  simp only [materialize, hdeclared, hparents]
  cases Payload.ofValue s.options.maxPayload content with
  | error cause => rfl
  | ok payload =>
    simp only [MemoryStore.run_bind, (run_lineage hp store).1, hgather, List.nil_append]
    cases s.firstObstacle? store stage with
    | some e => rfl
    | none => exact run_writeEnvelope hp store hid payload

theorem run_materialize_of_notMem (s : Session) (store : MemoryStore) (hid : stage ∉ s.persona.definition.ids)
    (content : Json) : store.run (s.materialize stage content) = (.error (.unknownStage stage), store) := by
  rw [materialize, Definition.stage?_eq_none_iff.mpr hid]
  rfl

/-- What there is to know of a stage that was materialized. -/
structure Materialized (s : Session) (store : MemoryStore) (stage : String) (content : Json) (m : Materialization) :
    Prop where
  mem_ids : stage ∈ s.persona.definition.ids
  ofValue : ∃ payload, Payload.ofValue s.options.maxPayload content = .ok payload ∧
    m = s.materializedIn store stage payload
  obstacle? : ∀ p ∈ s.persona.definition.parents stage, s.obstacle? store stage p = none
  after_eq : store.after (s.materialize stage content) = s.storeWith store m

/-- A stage was materialized only if nothing was in its way. -/
theorem materialized_of_answer (hp : s.persona.IsRead) (h : store.answer (s.materialize stage content) = .ok m) :
    s.Materialized store stage content m := by
  by_cases hid : stage ∈ s.persona.definition.ids
  · have hrun := run_materialize hp store hid content
    rw [MemoryStore.answer, hrun] at h
    split at h
    · cases h
    · next payload hpayload =>
      split at h
      · cases h
      · next hfirst =>
        cases h
        refine ⟨hid, ⟨payload, hpayload, rfl⟩, firstObstacle?_eq_none_iff.mp hfirst, ?_⟩
        rw [MemoryStore.after, hrun, hpayload]
        simp only [hfirst]
  · rw [MemoryStore.answer, run_materialize_of_notMem s store hid] at h
    cases h

theorem exists_answer_iff (hp : s.persona.IsRead) (store : MemoryStore) (hid : stage ∈ s.persona.definition.ids)
    (content : Json) :
    (∃ m, store.answer (s.materialize stage content) = .ok m) ↔
      (∃ payload, Payload.ofValue s.options.maxPayload content = .ok payload) ∧
        ∀ p ∈ s.persona.definition.parents stage, s.obstacle? store stage p = none := by
  constructor
  · rintro ⟨m, hm⟩
    have hmaterialized := materialized_of_answer hp hm
    obtain ⟨payload, hpayload, -⟩ := hmaterialized.ofValue
    exact ⟨⟨payload, hpayload⟩, hmaterialized.obstacle?⟩
  · rintro ⟨⟨payload, hpayload⟩, hparents⟩
    refine ⟨s.materializedIn store stage payload, ?_⟩
    rw [MemoryStore.answer, run_materialize hp store hid, hpayload]
    simp only [firstObstacle?_eq_none_iff.mpr hparents]

/-- A parent in the way of an accepted payload is the answer. -/
theorem answer_of_obstacle? (hp : s.persona.IsRead) (store : MemoryStore) (hid : stage ∈ s.persona.definition.ids)
    {payload : Payload} (hpayload : Payload.ofValue s.options.maxPayload content = .ok payload) {p : String}
    (hparent : p ∈ s.persona.definition.parents stage) (hobstacle : s.obstacle? store stage p ≠ none) :
    ∃ q ∈ s.persona.definition.parents stage, ∃ e, s.obstacle? store stage q = some e ∧
      store.answer (s.materialize stage content) = .error e := by
  cases hfirst : s.firstObstacle? store stage with
  | none => exact absurd (firstObstacle?_eq_none_iff.mp hfirst p hparent) hobstacle
  | some e =>
    obtain ⟨q, hq, he⟩ := exists_of_firstObstacle? hfirst
    refine ⟨q, hq, e, he, ?_⟩
    rw [MemoryStore.answer, run_materialize hp store hid, hpayload]
    simp only [hfirst]

/-- A call that fails leaves the store as it was. -/
theorem after_of_answer_error (hp : s.persona.IsRead) {e : SessionError}
    (h : store.answer (s.materialize stage content) = .error e) : store.after (s.materialize stage content) = store := by
  by_cases hid : stage ∈ s.persona.definition.ids
  · have hrun := run_materialize hp store hid content
    rw [MemoryStore.answer, hrun] at h
    rw [MemoryStore.after, hrun]
    split at h
    · rfl
    · split at h
      · rfl
      · cases h
  · rw [MemoryStore.after, run_materialize_of_notMem s store hid]

end StageLineage.Session
