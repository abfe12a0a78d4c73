import StageLineage.Proofs.Session.Materialize

/-! Histories of sessions: stages materialized one after another into a store that was empty at first.
    Files are never removed, and every file was written by a call of the history that succeeded, so that a
    present stage was last materialized where it now stands. -/

namespace StageLineage

/-- A list that was added to at its end is split either there or where it could be split before. -/
theorem split_of_concat {α : Type} {xs before after : List α} {x y : α} (h : xs ++ [x] = before ++ y :: after) :
    (before = xs ∧ y = x ∧ after = []) ∨ ∃ rest, after = rest ++ [x] ∧ xs = before ++ y :: rest := by
  rcases List.eq_nil_or_concat after with rfl | ⟨rest, last, rfl⟩
  · obtain ⟨rfl, hlast⟩ := List.append_inj' h rfl
    exact Or.inl ⟨rfl, (List.singleton_inj.mp hlast).symm, rfl⟩
  · rw [List.concat_eq_append, ← List.cons_append, ← List.append_assoc] at h
    obtain ⟨rfl, hlast⟩ := List.append_inj' h rfl
    exact Or.inr ⟨rest, by rw [List.concat_eq_append, List.singleton_inj.mp hlast], rfl⟩

/-- A stage to materialize and its content. -/
structure Call where
  stage : String
  content : Json

namespace Session
variable {s : Session} {store : MemoryStore}

/-- The store after some calls, of which those that fail change nothing. -/
def history (s : Session) (store : MemoryStore) (calls : List Call) : MemoryStore :=
  calls.foldl (fun store c => store.after (s.materialize c.stage c.content)) store

@[simp] theorem history_nil (s : Session) (store : MemoryStore) : s.history store [] = store := rfl

theorem history_append (s : Session) (store : MemoryStore) (calls more : List Call) :
    s.history store (calls ++ more) = s.history (s.history store calls) more := by
  simp [history]

theorem history_concat (s : Session) (store : MemoryStore) (calls : List Call) (c : Call) :
    s.history store (calls ++ [c]) = (s.history store calls).after (s.materialize c.stage c.content) := by
  simp [history]

/-- Calls for the manifest with the fork, the one of the optional stage last. -/
def forkedCalls : List Call := ["x", "a", "s", "o"].map fun id => ⟨id, .bool true⟩

/-- There is a session of this manifest, with room for such contents. -/
theorem exists_forked : ∃ s : Session, s.persona.IsRead ∧ s.persona.definition = .forked ∧ s.root = ⟨"r"⟩ ∧
    ∀ b, (Json.bool b).canonicalText.utf8ByteSize ≤ s.options.maxPayload := by
  obtain ⟨p, hp, hd⟩ := Persona.exists_forked
  have hroom : ∀ b, (Json.bool b).canonicalText.utf8ByteSize ≤ Payload.defaultLimit := by decide
  exact ⟨⟨p, {}, ⟨"r"⟩⟩, hp, hd, rfl, hroom⟩

/-! ### Files -/

/-- The file that a call writes, and the other files after it. -/
theorem get?_files_after (hp : s.persona.IsRead) (store : MemoryStore) (c : Call) (p : Path) :
    (store.after (s.materialize c.stage c.content)).files.get? p = store.files.get? p ∨
      ∃ m, store.answer (s.materialize c.stage c.content) = .ok m ∧ compare p m.artifactPath = .eq ∧
        (store.after (s.materialize c.stage c.content)).files.get? p =
          some (m.envelope.encode s.options.pretty).toUTF8 := by
  cases h : store.answer (s.materialize c.stage c.content) with
  | error e => exact Or.inl (by rw [after_of_answer_error hp h])
  | ok m =>
    rw [(materialized_of_answer hp h).after_eq]
    by_cases heq : compare p m.artifactPath = .eq
    · exact Or.inr ⟨m, rfl, heq, by rw [storeWith, SortedMap.get?_insert, if_pos heq]⟩
    · exact Or.inl (by rw [storeWith, SortedMap.get?_insert, if_neg heq])

theorem fileExists_after (hp : s.persona.IsRead) (c : Call) {p : Path} (h : store.fileExists p = true) :
    (store.after (s.materialize c.stage c.content)).fileExists p = true := by
  simp only [MemoryStore.fileExists, SortedMap.contains] at h ⊢
  rcases get?_files_after hp store c p with hsame | ⟨m, -, -, hwritten⟩
  · rwa [hsame]
  · rw [hwritten]
    rfl

theorem fileExists_history (hp : s.persona.IsRead) {p : Path} (calls : List Call) (h : store.fileExists p = true) :
    (s.history store calls).fileExists p = true := by
  induction calls using List.reverseRecOn with
  | nil => exact h
  | append_singleton calls c ih => rw [history_concat]; exact fileExists_after hp c ih

/-- Every file was written by a call that succeeded, the last one that wrote it. -/
theorem exists_call_of_get? (hp : s.persona.IsRead) {calls : List Call} {p : Path} {bytes : ByteArray}
    (h : (s.history .empty calls).files.get? p = some bytes) :
    ∃ before c after m, calls = before ++ c :: after ∧
      (s.history .empty before).answer (s.materialize c.stage c.content) = .ok m ∧
      compare p m.artifactPath = .eq ∧ bytes = (m.envelope.encode s.options.pretty).toUTF8 := by
  induction calls using List.reverseRecOn with
  | nil => cases h
  | append_singleton calls c ih =>
    rw [history_concat] at h
    rcases get?_files_after hp _ c p with hsame | ⟨m, hm, heq, hwritten⟩
    · obtain ⟨before, c', after, m, rfl, hm⟩ := ih (hsame ▸ h)
      exact ⟨before, c', after ++ [c], m, by simp, hm⟩
    · rw [hwritten] at h
      exact ⟨calls, c, [], m, rfl, hm, heq, (Option.some.inj h).symm⟩

/-! ### Present stages -/

/-- A present stage was materialized by a call of the history, at the place where it now stands. -/
structure Origin (s : Session) (calls : List Call) (id : String) (before : List Call) (c : Call) (after : List Call)
    (m : Materialization) : Prop where
  calls_eq : calls = before ++ c :: after
  stage_eq : c.stage = id
  answer_eq : (s.history .empty before).answer (s.materialize c.stage c.content) = .ok m
  names_eq : ((s.lineageIn (s.history .empty calls)).dir id).names =
    ((s.lineageIn (s.history .empty before)).dir id).names
  get?_eq : (s.history .empty calls).files.get? ((s.lineageIn (s.history .empty calls)).file id) =
    some (m.envelope.encode s.options.pretty).toUTF8

theorem exists_origin (hp : s.persona.IsRead) {calls : List Call} {id : String}
    (h : (s.lineageIn (s.history .empty calls)).isPresent id = true) :
    ∃ before c after m, s.Origin calls id before c after m := by
  have hid := mem_ids_of_isPresent hp h
  rw [isPresent_eq hp _ hid, MemoryStore.fileExists, SortedMap.contains, Option.isSome_iff_exists] at h
  obtain ⟨bytes, hbytes⟩ := h
  obtain ⟨before, c, after, m, hcalls, hm, heq, rfl⟩ := exists_call_of_get? hp hbytes
  have hmaterialized := materialized_of_answer hp hm
  obtain ⟨payload, -, rfl⟩ := hmaterialized.ofValue
  -- The call wrote the file of the stage, so it materialized this stage and no other.
  obtain ⟨hnames, rfl⟩ := (compare_file_iff hp _ _ hid hmaterialized.mem_ids).mp heq
  exact ⟨before, c, after, _, hcalls, rfl, hm, hnames, hbytes⟩

theorem exists_call_of_isPresent (hp : s.persona.IsRead) {calls : List Call} {id : String}
    (h : (s.lineageIn (s.history .empty calls)).isPresent id = true) : ∃ c ∈ calls, c.stage = id := by
  obtain ⟨before, c, after, m, horigin⟩ := exists_origin hp h
  exact ⟨c, by simp [horigin.calls_eq], horigin.stage_eq⟩

/-- What is read of a present stage is the envelope that was written, if its content is not nested too deep. -/
theorem Origin.readIn_eq (hp : s.persona.IsRead) {calls before after : List Call} {id : String} {c : Call}
    {m : Materialization} (h : s.Origin calls id before c after m) (hexact : c.content.Exact)
    (hdepth : c.content.depth ≤ Envelope.contentDepth) : s.readIn (s.history .empty calls) id = .ok (some m.envelope) := by
  have hm := materialized_of_answer hp h.answer_eq
  obtain ⟨payload, hpayload, rfl⟩ := hm.ofValue
  have hdecode := Envelope.ofBytes?_encode_ofPayload hpayload hexact s.options.pretty
    (s.parentFingerprints (s.history .empty before) c.stage)
  rw [if_pos ((Json.depth_canonical_le _).trans hdepth)] at hdecode
  rw [Session.readIn_eq hp _ (h.stage_eq ▸ hm.mem_ids), envelopeAt, h.get?_eq]
  simp only [materializedIn, hdecode]

/-- The stored envelope of a stage is one that was made of an exact content and of parents as they were. -/
structure Sealed (s : Session) (store : MemoryStore) (id : String) (e : Envelope) : Prop where
  read : s.readIn store id = .ok (some e)
  exact : e.content.Exact
  canonical : e.content.canonical = e.content
  verify : e.verify = true
  parents : ∃ store', e.parents = s.parentFingerprints store' id

theorem Sealed.fingerprintIn?_eq {id : String} {e : Envelope} (h : s.Sealed store id e) :
    s.fingerprintIn? store id = some e.fingerprint := by
  rw [fingerprintIn?, h.read]

/-- In a history of exact contents that are not nested too deep, every present stage can be read. -/
theorem exists_readIn (hp : s.persona.IsRead) {calls : List Call}
    (hcalls : ∀ c ∈ calls, c.content.Exact ∧ c.content.depth ≤ Envelope.contentDepth) {id : String}
    (h : (s.lineageIn (s.history .empty calls)).isPresent id = true) :
    ∃ before c after m, s.Origin calls id before c after m ∧
      s.readIn (s.history .empty calls) id = .ok (some m.envelope) := by
  obtain ⟨before, c, after, m, horigin⟩ := exists_origin hp h
  obtain ⟨hexact, hdepth⟩ := hcalls c (by simp [horigin.calls_eq])
  exact ⟨before, c, after, m, horigin, horigin.readIn_eq hp hexact hdepth⟩

theorem exists_sealed (hp : s.persona.IsRead) {calls : List Call}
    (hcalls : ∀ c ∈ calls, c.content.Exact ∧ c.content.depth ≤ Envelope.contentDepth) {id : String}
    (h : (s.lineageIn (s.history .empty calls)).isPresent id = true) : ∃ e, s.Sealed (s.history .empty calls) id e := by
  obtain ⟨before, c, after, m, horigin, hread⟩ := exists_readIn hp hcalls h
  obtain ⟨hexact, -⟩ := hcalls c (by simp [horigin.calls_eq])
  obtain ⟨payload, hpayload, rfl⟩ := (materialized_of_answer hp horigin.answer_eq).ofValue
  obtain ⟨-, -, rfl⟩ := Envelope.ofValue_eq_ok_iff.mp hpayload
  refine ⟨_, hread, hexact.canonical, Json.canonical_canonical _, ?_, s.history .empty before, ?_⟩
  · exact Envelope.verify_ofPayload (Json.canonical_canonical _) _
  · exact horigin.stage_eq ▸ rfl

theorem readable_history (hp : s.persona.IsRead) {calls : List Call}
    (hcalls : ∀ c ∈ calls, c.content.Exact ∧ c.content.depth ≤ Envelope.contentDepth) :
    s.Readable (s.history .empty calls) := fun id _ h => by
  obtain ⟨_, _, _, m, -, hread⟩ := exists_readIn hp hcalls h
  exact ⟨m.envelope, hread⟩

end Session
end StageLineage
