import StageLineage.Proofs.Envelope
import StageLineage.Proofs.Lineage
import StageLineage.Proofs.Store.Memory
import StageLineage.Session.Basic

/-! Sessions whose store is in memory. A persona that was read can be laid out, so a session always has a
    lineage; looking at the lineage and at envelopes answers from the files and changes nothing. -/

namespace StageLineage

/-- Runs a session operation on a store. -/
def MemoryStore.run {α : Type} (store : MemoryStore) (x : ExceptT SessionError (StateM MemoryStore) α) :
    Except SessionError α × MemoryStore :=
  (ExceptT.run x).run store

def MemoryStore.answer {α : Type} (store : MemoryStore) (x : ExceptT SessionError (StateM MemoryStore) α) :
    Except SessionError α :=
  (store.run x).1

/-- The store after a session operation. -/
def MemoryStore.after {α : Type} (store : MemoryStore) (x : ExceptT SessionError (StateM MemoryStore) α) :
    MemoryStore :=
  (store.run x).2

/-- A persona whose definition was read from a document. -/
def Persona.IsRead (p : Persona) : Prop :=
  ∃ document d, Manifest.ofDocument document = .ok d ∧ Persona.compile d = .ok p

/-! ### Running -/

namespace MemoryStore
variable {α β : Type} {store : MemoryStore}

theorem run_pure (a : α) : store.run (pure a) = (.ok a, store) := rfl

theorem run_lift (x : StateM MemoryStore α) :
    store.run (liftM x : ExceptT SessionError (StateM MemoryStore) α) = (.ok (x store).1, (x store).2) := rfl

theorem run_bind (x : ExceptT SessionError (StateM MemoryStore) α)
    (f : α → ExceptT SessionError (StateM MemoryStore) β) :
    store.run (x >>= f) =
      match store.run x with
      | (.ok a, store') => store'.run (f a)
      | (.error e, store') => (.error e, store') := by
  rw [run, ExceptT.run_bind, StateT.run_bind, run]
  cases (ExceptT.run x).run store with
  | mk r store' => cases r <;> rfl

end MemoryStore

/-! ### Personas -/

namespace Persona
variable {p : Persona}

/-- Whatever was read from a document can be laid out. -/
theorem compile_eq_ok {document : Json} {d : Definition} (h : Manifest.ofDocument document = .ok d) :
    ∃ p, compile d = .ok p ∧ p.IsRead ∧ p.definition = d := by
  obtain ⟨t, ht, -⟩ := Topology.resolve_eq_ok (Manifest.wellFormed_of_ofDocument h)
  have hcompile : compile d = .ok ⟨d, t⟩ := by simp [compile, ht, bind, Except.bind, pure, Except.pure]
  exact ⟨⟨d, t⟩, hcompile, ⟨document, d, h, hcompile⟩, rfl⟩

theorem IsRead.wellFormed (hp : p.IsRead) : p.definition.WellFormed := by
  obtain ⟨document, d, hd, hcompile⟩ := hp
  obtain ⟨t, -, hcompile⟩ := bind_eq_ok_iff.mp hcompile
  cases hcompile
  exact Manifest.wellFormed_of_ofDocument hd

theorem IsRead.resolve_eq (hp : p.IsRead) : Topology.resolve p.definition = .ok p.topology := by
  obtain ⟨document, d, -, hcompile⟩ := hp
  obtain ⟨t, ht, hcompile⟩ := bind_eq_ok_iff.mp hcompile
  cases hcompile
  exact ht

theorem IsRead.describes (hp : p.IsRead) :
    Topology.Describes p.definition p.definition.order p.topology.stages := by
  obtain ⟨document, d, hd, hcompile⟩ := hp
  obtain ⟨t, ht, hcompile⟩ := bind_eq_ok_iff.mp hcompile
  cases hcompile
  obtain ⟨t', ht', hdescribes⟩ := Topology.resolve_eq_ok (Manifest.wellFormed_of_ofDocument hd)
  rw [ht] at ht'
  cases ht'
  exact hdescribes

theorem exists_forked : ∃ p : Persona, p.IsRead ∧ p.definition = .forked := by
  obtain ⟨p, -, hp, hdefinition⟩ := compile_eq_ok Manifest.ofDocument_forked
  exact ⟨p, hp, hdefinition⟩

end Persona

namespace Session
variable {s : Session} {store : MemoryStore} {id : String}

/-! ### Lineages -/

def lineageIn (s : Session) (store : MemoryStore) : Lineage :=
  match store.answer s.lineage with
  | .ok l => l
  | .error _ => ⟨s.root, []⟩

/-- A session always has a lineage, and looking at it changes nothing. -/
theorem run_lineage (hp : s.persona.IsRead) (store : MemoryStore) :
    store.run s.lineage = (.ok (s.lineageIn store), store) ∧
      Lineage.Realizes s.persona.definition s.root store.fileExists s.persona.definition.order (s.lineageIn store) := by
  have hask : ∀ p, (SessionStore.fileExists p : StateM MemoryStore Bool) store = (store.fileExists p, store) :=
    fun _ => rfl
  obtain ⟨l, hscan, hl⟩ := Lineage.scan_eq_ok hp.wellFormed hp.describes hask s.root
  have hrun : store.run s.lineage = (.ok l, store) := by
    rw [lineage, MemoryStore.run_bind, MemoryStore.run_lift, hscan]
    rfl
  have hlineage : s.lineageIn store = l := by rw [lineageIn, MemoryStore.answer, hrun]
  exact ⟨hlineage ▸ hrun, hlineage ▸ hl⟩

theorem realizes (hp : s.persona.IsRead) (store : MemoryStore) :
    Lineage.Realizes s.persona.definition s.root store.fileExists s.persona.definition.order (s.lineageIn store) :=
  (run_lineage hp store).2

theorem dir_eq_place (hp : s.persona.IsRead) (store : MemoryStore) (hid : id ∈ s.persona.definition.ids) :
    (s.lineageIn store).dir id = (s.lineageIn store).place s.persona.definition id :=
  (realizes hp store).dir_eq id (hp.wellFormed.mem_order_iff.mpr hid)

theorem named_dir (hp : s.persona.IsRead) (store : MemoryStore) (hid : id ∈ s.persona.definition.ids) :
    ((s.lineageIn store).dir id).Named :=
  (realizes hp store).named hp.wellFormed id hid

theorem file_eq (hp : s.persona.IsRead) (store : MemoryStore) (id : String) :
    (s.lineageIn store).file id = s.root.join (StagePath.mk id ((s.lineageIn store).dir id)).artifactPath := by
  rw [Lineage.file, (realizes hp store).root_eq]

/-- The file of a stage lies below the session root. -/
theorem startsWith_file (hp : s.persona.IsRead) (store : MemoryStore) (hid : id ∈ s.persona.definition.ids) :
    ((s.lineageIn store).file id).startsWith s.root = true := by
  rw [file_eq hp]
  exact StagePath.startsWith_join_artifactPath s.root (named_dir hp store hid) (hp.wellFormed.isName hid)

/-- Two stages have one file only if they are the same stage and stand below the same names, in whatever
    stores. -/
theorem compare_file_iff (hp : s.persona.IsRead) (store store' : MemoryStore) {id' : String}
    (hid : id ∈ s.persona.definition.ids) (hid' : id' ∈ s.persona.definition.ids) :
    compare ((s.lineageIn store).file id) ((s.lineageIn store').file id') = .eq ↔
      ((s.lineageIn store).dir id).names = ((s.lineageIn store').dir id').names ∧ id = id' := by
  rw [file_eq hp, file_eq hp]
  exact StagePath.compare_artifactPath_iff s.root (named_dir hp store hid) (hp.wellFormed.isName hid)
    (named_dir hp store' hid') (hp.wellFormed.isName hid')

theorem isPresent_eq (hp : s.persona.IsRead) (store : MemoryStore) (hid : id ∈ s.persona.definition.ids) :
    (s.lineageIn store).isPresent id = store.fileExists ((s.lineageIn store).file id) :=
  (realizes hp store).present_eq id (hp.wellFormed.mem_order_iff.mpr hid)

theorem mem_ids_of_find? (hp : s.persona.IsRead) {r : RealizedStage}
    (h : Lineage.find? (s.lineageIn store).stages id = some r) : id ∈ s.persona.definition.ids := by
  rw [← hp.wellFormed.mem_order_iff, ← (realizes hp store).ids_eq]
  exact Lineage.exists_find?_iff.mp ⟨r, h⟩

theorem mem_ids_of_isPresent (hp : s.persona.IsRead) (h : (s.lineageIn store).isPresent id = true) :
    id ∈ s.persona.definition.ids := by
  obtain ⟨r, hr, -⟩ := (Option.any_eq_true ..).mp h
  exact mem_ids_of_find? hp hr

/-! ### Stored envelopes -/

def readIn (s : Session) (store : MemoryStore) (id : String) : Except SessionError (Option Envelope) :=
  store.answer (s.readEnvelope id)

/-- What a file tells of the envelope of a stage. -/
def envelopeAt (store : MemoryStore) (id : String) (file : Path) : Except SessionError (Option Envelope) :=
  match store.files.get? file with
  | none => .ok none
  | some bytes =>
    match Envelope.ofBytes? bytes with
    | some e => .ok (some e)
    | none => .error (.corruptEnvelope id file)

theorem run_readFrom_eq (hp : s.persona.IsRead) (store : MemoryStore) (hid : id ∈ s.persona.definition.ids) :
    store.run (readFrom (s.lineageIn store) id) = (envelopeAt store id ((s.lineageIn store).file id), store) := by
  have hpath : (s.lineageIn store).artifactPath? id = some ((s.lineageIn store).file id) := by
    rw [Lineage.artifactPath?, (realizes hp store).path?_eq hp.wellFormed hid]
    rfl
  have hread : store.run (onStore (SessionStore.read ((s.lineageIn store).file id))) =
      (.ok (store.files.get? ((s.lineageIn store).file id)), store) := rfl
  simp only [readFrom, hpath, MemoryStore.run_bind, hread, envelopeAt]
  cases store.files.get? ((s.lineageIn store).file id) with
  | none => rfl
  | some bytes =>
    simp only
    cases Envelope.ofBytes? bytes <;> rfl

theorem run_readEnvelope (hp : s.persona.IsRead) (store : MemoryStore) (hid : id ∈ s.persona.definition.ids) :
    store.run (s.readEnvelope id) = store.run (readFrom (s.lineageIn store) id) := by
  obtain ⟨declared, hdeclared⟩ := Definition.isSome_stage? hid
  have hcontains : s.persona.definition.contains id = true := by simp [Definition.contains, hdeclared]
  simp only [readEnvelope, hcontains, if_true, MemoryStore.run_bind, (run_lineage hp store).1]

/-- What is read of a stage is what its file holds. -/
theorem readIn_eq (hp : s.persona.IsRead) (store : MemoryStore) (hid : id ∈ s.persona.definition.ids) :
    s.readIn store id = envelopeAt store id ((s.lineageIn store).file id) := by
  rw [readIn, MemoryStore.answer, run_readEnvelope hp store hid, run_readFrom_eq hp store hid]

theorem run_readFrom (hp : s.persona.IsRead) (store : MemoryStore) (hid : id ∈ s.persona.definition.ids) :
    store.run (readFrom (s.lineageIn store) id) = (s.readIn store id, store) := by
  rw [run_readFrom_eq hp store hid, readIn_eq hp store hid]

/-- Nothing is read of a stage exactly if it is not present. -/
theorem readIn_eq_none_iff (hp : s.persona.IsRead) (store : MemoryStore) (hid : id ∈ s.persona.definition.ids) :
    s.readIn store id = .ok none ↔ (s.lineageIn store).isPresent id = false := by
  rw [isPresent_eq hp store hid, MemoryStore.fileExists, SortedMap.contains, readIn_eq hp store hid, envelopeAt]
  cases store.files.get? ((s.lineageIn store).file id) with
  | none => simp
  | some bytes => cases h : Envelope.ofBytes? bytes <;> simp [h]

theorem isPresent_congr (hp : s.persona.IsRead) {store' : MemoryStore} (hid : id ∈ s.persona.definition.ids)
    (h : s.readIn store' id = s.readIn store id) :
    (s.lineageIn store').isPresent id = (s.lineageIn store).isPresent id := by
  rw [Bool.eq_iff_iff, ← Bool.not_eq_false, ← Bool.not_eq_false, ← readIn_eq_none_iff hp store' hid,
    ← readIn_eq_none_iff hp store hid, h]

theorem readIn_of_notMem (s : Session) (store : MemoryStore) (hid : id ∉ s.persona.definition.ids) :
    s.readIn store id = .error (.unknownStage id) := by
  rw [readIn, readEnvelope, Definition.contains, Definition.stage?_eq_none_iff.mpr hid]
  rfl

/-- Only of a present stage an envelope is read. -/
theorem isPresent_of_readIn (hp : s.persona.IsRead) {e : Envelope} (h : s.readIn store id = .ok (some e)) :
    (s.lineageIn store).isPresent id = true := by
  by_cases hid : id ∈ s.persona.definition.ids
  · rw [← Bool.not_eq_false, ← readIn_eq_none_iff hp store hid, h]
    simp
  · rw [readIn_of_notMem s store hid] at h
    cases h

/-- The bytes of every present stage decode as an envelope. -/
def Readable (s : Session) (store : MemoryStore) : Prop :=
  ∀ id ∈ s.persona.definition.ids, (s.lineageIn store).isPresent id = true → ∃ e, s.readIn store id = .ok (some e)

/-- The fingerprint in the file of a stage, if there is one. -/
def fingerprintIn? (s : Session) (store : MemoryStore) (id : String) : Option Fingerprint :=
  match s.readIn store id with
  | .ok (some e) => some e.fingerprint
  | _ => none

/-- The stored fingerprints of the declared parents of a stage, without those that have none. -/
def parentFingerprints (s : Session) (store : MemoryStore) (id : String) : ParentFingerprints :=
  .ofList ((Stage.distinct (s.persona.definition.parents id)).filterMap fun p =>
    (s.fingerprintIn? store p).map (p, ·))

theorem get?_parentFingerprints (s : Session) (store : MemoryStore) (id q : String) :
    (s.parentFingerprints store id).get? q =
      if q ∈ s.persona.definition.parents id then s.fingerprintIn? store q else none := by
  rw [parentFingerprints, SortedMap.get?_ofList_filterMap]
  simp only [Stage.mem_distinct_iff]

end Session
end StageLineage
