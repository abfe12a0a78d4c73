import StageLineage.Proofs.Json.Reader
import StageLineage.Proofs.Json.RoundTrip
import StageLineage.Proofs.Session.Frame

/-! Reading back what was materialized. Writing the envelope of a stage does not move the stage, so it is
    read from the file that was written; but a content that the reader takes on its own may be nested one
    container too deep to be read inside its envelope. -/

namespace StageLineage.Session
variable {s : Session} {store : MemoryStore} {stage : String} {content : Json} {m : Materialization}

theorem Materialized.content_eq (h : s.Materialized store stage content m) : m.envelope.content = content.canonical := by
  obtain ⟨payload, hpayload, rfl⟩ := h.ofValue
  obtain ⟨-, -, rfl⟩ := Envelope.ofValue_eq_ok_iff.mp hpayload
  rfl

/-- What is written passes its check. -/
theorem Materialized.verify (h : s.Materialized store stage content m) : m.envelope.verify = true := by
  obtain ⟨payload, hpayload, rfl⟩ := h.ofValue
  obtain ⟨-, -, rfl⟩ := Envelope.ofValue_eq_ok_iff.mp hpayload
  exact Envelope.verify_ofPayload (Json.canonical_canonical _) _

/-- What is written is chained to the parents as they still are. -/
theorem Materialized.get?_parents (hp : s.persona.IsRead) (h : s.Materialized store stage content m) {p : String}
    (hparent : p ∈ s.persona.definition.parents stage) :
    m.envelope.parents.get? p = s.fingerprintIn? (s.storeWith store m) p := by
  have hread := h.readIn_parent_eq hp hparent
  obtain ⟨payload, -, rfl⟩ := h.ofValue
  rw [fingerprintIn?, hread]
  exact (get?_parentFingerprints s store stage p).trans (if_pos hparent)

theorem Materialized.readIn_eq (hp : s.persona.IsRead) (h : s.Materialized store stage content m)
    (hexact : content.Exact) :
    s.readIn (store.after (s.materialize stage content)) stage =
      if content.canonical.depth ≤ Envelope.contentDepth then .ok (some m.envelope)
      else .error (.corruptEnvelope stage m.artifactPath) := by
  have hdir := h.dir_eq hp
  rw [h.after_eq]
  obtain ⟨payload, hpayload, rfl⟩ := h.ofValue
  have hfile : (s.lineageIn (s.storeWith store (s.materializedIn store stage payload))).file stage =
      (s.lineageIn store).file stage := file_eq_of_dir_eq hp hdir
  have hdecode := Envelope.ofBytes?_encode_ofPayload hpayload hexact s.options.pretty (s.parentFingerprints store stage)
  rw [Session.readIn_eq hp _ h.mem_ids, hfile, envelopeAt, storeWith, SortedMap.get?_insert, materializedIn,
    if_pos Std.ReflCmp.compare_self]
  by_cases hdepth : content.canonical.depth ≤ Envelope.contentDepth
  · rw [if_pos hdepth] at hdecode
    simp only [hdecode, if_pos hdepth]
  · rw [if_neg hdepth] at hdecode
    simp only [hdecode, if_neg hdepth]

/-- A content that was read from a text without floats is kept as it is and sealed. It is read back with its
    envelope if it is nested at most 126 containers deep; at 127, which is as deep as texts are read, the
    envelope that was written is corrupt. -/
theorem readEnvelope_materialize (hp : s.persona.IsRead) {text : String} (hparse : Json.parse? text = some content)
    (hfree : content.FloatFree) (h : store.answer (s.materialize stage content) = .ok m) :
    m.envelope.content = content ∧ m.envelope.verify = true ∧ content.depth ≤ 127 ∧
      (store.after (s.materialize stage content)).answer (s.readEnvelope stage) =
        if content.depth ≤ 126 then .ok (some m.envelope) else .error (.corruptEnvelope stage m.artifactPath) := by
  have hm := materialized_of_answer hp h
  have hread := Json.readWithin_of_parse? hparse
  have hback := hm.readIn_eq hp (Json.exact_of_parse? hparse hfree)
  obtain ⟨payload, hpayload, rfl⟩ := hm.ofValue
  obtain ⟨-, -, rfl⟩ := Envelope.ofValue_eq_ok_iff.mp hpayload
  refine ⟨hread.canonical, Envelope.verify_ofPayload (Json.canonical_canonical _) _, hread.depth, ?_⟩
  simp only [hread.canonical] at hback ⊢
  exact hback

def nestedArray : Nat → Json
  | 0 => .array []
  | n + 1 => .array [nestedArray n]

theorem nestedArray_ne_null (n : Nat) : nestedArray n ≠ .null := by
  cases n <;> simp [nestedArray]

theorem numbers_nestedArray (n : Nat) : (nestedArray n).numbers = [] := by
  induction n with
  | zero => rfl
  | succ n ih => simp [nestedArray, Json.numbers, Json.itemsNumbers, ih]

theorem depth_nestedArray (n : Nat) : (nestedArray n).depth = n + 1 := by
  induction n with
  | zero => rfl
  | succ n ih => simp [nestedArray, Json.depth, Json.itemsDepth, ih]

theorem canonical_nestedArray (n : Nat) : (nestedArray n).canonical = nestedArray n := by
  induction n with
  | zero => rfl
  | succ n ih => simp [nestedArray, Json.canonical_array, ih]

/-- A content that nests 127 containers is materialized, and then its envelope cannot be read. -/
theorem corrupt_nestedArray : ∃ (s : Session) (content : Json) (m : Materialization), s.persona.IsRead ∧
    content = nestedArray 126 ∧ Json.parse? content.compact = some content ∧
    MemoryStore.empty.answer (s.materialize "x" content) = .ok m ∧
    (MemoryStore.empty.after (s.materialize "x" content)).answer (s.readEnvelope "x") =
      .error (.corruptEnvelope "x" m.artifactPath) := by
  obtain ⟨p, hp, hd⟩ := Persona.exists_forked
  obtain ⟨content, hcontent⟩ : ∃ content, content = nestedArray 126 := ⟨_, rfl⟩
  have hnumbers : content.numbers = [] := hcontent ▸ numbers_nestedArray 126
  have hdepth : content.depth = 127 := hcontent ▸ depth_nestedArray 126
  have hne : content ≠ .null := hcontent ▸ nestedArray_ne_null 126
  have hparse : Json.parse? content.compact = some content := by
    rw [Json.parse?_compact (by simp [Json.Exact, hnumbers]), Json.accepted, hdepth, hcontent, canonical_nestedArray]
    rfl
  let s : Session := ⟨p, ⟨content.canonicalText.utf8ByteSize, true⟩, ⟨"r"⟩⟩
  have hid : "x" ∈ s.persona.definition.ids := by
    rw [hd]
    decide
  have hparents : s.persona.definition.parents "x" = [] := by
    rw [hd]
    rfl
  obtain ⟨m, hm⟩ := (exists_answer_iff (s := s) hp .empty hid content).mpr
    ⟨Envelope.exists_ofValue hne (Nat.le_refl _), by simp [hparents]⟩
  obtain ⟨-, -, -, hread⟩ := readEnvelope_materialize hp hparse (by simp [Json.FloatFree, hnumbers]) hm
  rw [hdepth] at hread
  exact ⟨s, content, m, hp, hcontent, hparse, hm, hread⟩

end StageLineage.Session
