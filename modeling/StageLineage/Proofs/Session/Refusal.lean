import StageLineage.Proofs.Session.Presence

/-! Refused calls. Materializing a stage asks in this order whether the stage is declared, whether the
    content makes a payload, and whether each declared parent can be chained to; the first question that is
    answered with no decides the error. If there is none the stage is materialized, so that no error comes
    from the layout or from the store, and a refused call has changed nothing. -/

namespace StageLineage.Session
variable {s : Session} {store : MemoryStore} {stage : String} {content : Json}

/-- A parent is in the way of a stage: it is mandatory and absent, or its file does not hold an envelope. -/
inductive Blocks (s : Session) (store : MemoryStore) (stage parent : String) : SessionError → Prop
  | missing : (s.lineageIn store).isPresent parent = false → s.persona.definition.isOptional parent = false →
      Blocks s store stage parent (.missingParent stage parent)
  | corrupt {bytes : ByteArray} : store.files.get? ((s.lineageIn store).file parent) = some bytes →
      Envelope.ofBytes? bytes = none →
      Blocks s store stage parent (.corruptEnvelope parent ((s.lineageIn store).file parent))

/-- Why materializing a stage with a content is refused. -/
inductive Refused (s : Session) (store : MemoryStore) (stage : String) (content : Json) : SessionError → Prop
  | unknown : stage ∉ s.persona.definition.ids → Refused s store stage content (.unknownStage stage)
  | null : stage ∈ s.persona.definition.ids → content = .null → Refused s store stage content (.payload stage .null)
  | tooLarge : stage ∈ s.persona.definition.ids → content ≠ .null →
      s.options.maxPayload < content.canonicalText.utf8ByteSize →
      Refused s store stage content
        (.payload stage (.tooLarge content.canonicalText.utf8ByteSize s.options.maxPayload))
  | parent {before after : List String} {p : String} {e : SessionError} : stage ∈ s.persona.definition.ids →
      content ≠ .null → content.canonicalText.utf8ByteSize ≤ s.options.maxPayload →
      Stage.distinct (s.persona.definition.parents stage) = before ++ p :: after →
      (∀ q ∈ before, ∀ e, ¬ s.Blocks store stage q e) → s.Blocks store stage p e → Refused s store stage content e

/-! ### Parents -/

theorem obstacle?_eq_some_iff (hp : s.persona.IsRead) {p : String} (hpid : p ∈ s.persona.definition.ids)
    {e : SessionError} : s.obstacle? store stage p = some e ↔ s.Blocks store stage p e := by
  have hpresent : (s.lineageIn store).isPresent p = (store.files.get? ((s.lineageIn store).file p)).isSome :=
    isPresent_eq hp store hpid
  rw [obstacle?, readIn_eq hp store hpid, envelopeAt]
  constructor
  · intro h
    split at h
    · next hread =>
      cases h
      split at hread
      · cases hread
      · next bytes hbytes =>
        split at hread
        · cases hread
        · next hdecode =>
          cases hread
          exact .corrupt hbytes hdecode
    · cases h
    · next hread =>
      split at h
      · cases h
      · next hmandatory =>
        cases h
        refine .missing ?_ (by simpa using hmandatory)
        cases hbytes : store.files.get? ((s.lineageIn store).file p) with
        | none => rw [hpresent, hbytes, Option.isSome_none]
        | some bytes =>
          simp only [hbytes] at hread
          split at hread <;> cases hread
  · rintro (⟨habsent, hmandatory⟩ | ⟨hbytes, hdecode⟩)
    · have hnone : store.files.get? ((s.lineageIn store).file p) = none := by simpa [hpresent] using habsent
      simp [hnone, hmandatory]
    · simp [hbytes, hdecode]

theorem obstacle?_eq_none_iff (hp : s.persona.IsRead) {p : String} (hpid : p ∈ s.persona.definition.ids) :
    s.obstacle? store stage p = none ↔ ∀ e, ¬ s.Blocks store stage p e := by
  simp only [← obstacle?_eq_some_iff hp hpid, Option.eq_none_iff_forall_ne_some, ne_eq]

/-- The parent that decides is the first one that is in the way. -/
theorem firstObstacle?_eq_some_iff (hp : s.persona.IsRead) {e : SessionError} :
    s.firstObstacle? store stage = some e ↔
      ∃ before p after, Stage.distinct (s.persona.definition.parents stage) = before ++ p :: after ∧
        (∀ q ∈ before, ∀ e, ¬ s.Blocks store stage q e) ∧ s.Blocks store stage p e := by
  have hids : ∀ q ∈ Stage.distinct (s.persona.definition.parents stage), q ∈ s.persona.definition.ids := fun q hq =>
    hp.wellFormed.mem_of_parents (Stage.mem_distinct_iff.mp hq)
  rw [firstObstacle?, List.findSome?_eq_some_iff]
  constructor
  · rintro ⟨before, p, after, heq, hblocks, hbefore⟩
    rw [heq] at hids
    refine ⟨before, p, after, heq, fun q hq => ?_, (obstacle?_eq_some_iff hp (hids p (by simp))).mp hblocks⟩
    exact (obstacle?_eq_none_iff hp (hids q (List.mem_append_left _ hq))).mp (hbefore q hq)
  · rintro ⟨before, p, after, heq, hbefore, hblocks⟩
    rw [heq] at hids
    refine ⟨before, p, after, heq, (obstacle?_eq_some_iff hp (hids p (by simp))).mpr hblocks, fun q hq => ?_⟩
    exact (obstacle?_eq_none_iff hp (hids q (List.mem_append_left _ hq))).mpr (hbefore q hq)

/-! ### The operation -/

theorem refused_iff_of_notMem (hid : stage ∉ s.persona.definition.ids) {e : SessionError} :
    s.Refused store stage content e ↔ .unknownStage stage = e := by
  constructor
  · rintro (_ | ⟨hmem, _⟩ | ⟨hmem, _, _⟩ | ⟨hmem, _, _, _, _, _⟩)
    · rfl
    all_goals exact absurd hmem hid
  · rintro rfl
    exact .unknown hid

theorem refused_iff_of_mem (hp : s.persona.IsRead) (hid : stage ∈ s.persona.definition.ids) {e : SessionError} :
    s.Refused store stage content e ↔
      content = .null ∧ .payload stage .null = e ∨
      content ≠ .null ∧ s.options.maxPayload < content.canonicalText.utf8ByteSize ∧
        .payload stage (.tooLarge content.canonicalText.utf8ByteSize s.options.maxPayload) = e ∨
      content ≠ .null ∧ content.canonicalText.utf8ByteSize ≤ s.options.maxPayload ∧
        s.firstObstacle? store stage = some e := by
  rw [firstObstacle?_eq_some_iff hp]
  constructor
  · rintro (hno | ⟨_, hnull⟩ | ⟨_, hne, hsize⟩ | ⟨_, hne, hsize, hparents, hbefore, hblocks⟩)
    · exact absurd hid hno
    · exact Or.inl ⟨hnull, rfl⟩
    · exact Or.inr (Or.inl ⟨hne, hsize, rfl⟩)
    · exact Or.inr (Or.inr ⟨hne, hsize, _, _, _, hparents, hbefore, hblocks⟩)
  · rintro (⟨hnull, rfl⟩ | ⟨hne, hsize, rfl⟩ | ⟨hne, hsize, before, p, after, hparents, hbefore, hblocks⟩)
    · exact .null hid hnull
    · exact .tooLarge hid hne hsize
    · exact .parent hid hne hsize hparents hbefore hblocks

theorem answer_eq_error_iff (hp : s.persona.IsRead) {e : SessionError} :
    store.answer (s.materialize stage content) = .error e ↔ s.Refused store stage content e := by
  by_cases hid : stage ∈ s.persona.definition.ids
  · rw [refused_iff_of_mem hp hid, MemoryStore.answer, run_materialize hp store hid]
    cases hpayload : Payload.ofValue s.options.maxPayload content with
    | error cause =>
      rcases Envelope.ofValue_eq_error_iff.mp hpayload with ⟨hnull, rfl⟩ | ⟨hne, hsize, rfl⟩
      · simp [hnull]
      · simp [hne, hsize]
    | ok payload =>
      obtain ⟨hne, hsize, -⟩ := Envelope.ofValue_eq_ok_iff.mp hpayload
      cases s.firstObstacle? store stage with
      | some e' => simp [hne, hsize, Nat.not_lt.mpr hsize]
      | none => simp [hne, Nat.not_lt.mpr hsize]
  · rw [refused_iff_of_notMem hid, MemoryStore.answer, run_materialize_of_notMem s store hid, Except.error.injEq]

/-- What a stage that was materialized was chained to: the present parents, with their stored fingerprints. -/
structure ChainedTo (s : Session) (store : MemoryStore) (stage : String) (m : Materialization) : Prop where
  contains_iff : ∀ p, m.envelope.parents.contains p = true ↔
    p ∈ s.persona.definition.parents stage ∧ (s.lineageIn store).isPresent p = true
  stored : ∀ p f, m.envelope.parents.get? p = some f →
    ∃ e, s.readIn store p = .ok (some e) ∧ e.fingerprint = f
  skipped : m.skippedParents =
    (Stage.distinct (s.persona.definition.parents stage)).filter (!(s.lineageIn store).isPresent ·)

theorem fingerprintIn?_eq_some {id : String} {f : Fingerprint} (h : s.fingerprintIn? store id = some f) :
    ∃ e, s.readIn store id = .ok (some e) ∧ e.fingerprint = f := by
  rw [fingerprintIn?] at h
  split at h
  · next e he => exact ⟨e, he, Option.some.inj h⟩
  · cases h

/-- A parent that is not in the way has a stored fingerprint exactly if it is present. -/
theorem isSome_fingerprintIn? (hp : s.persona.IsRead) {p : String} (hpid : p ∈ s.persona.definition.ids)
    (h : s.obstacle? store stage p = none) : (s.fingerprintIn? store p).isSome = (s.lineageIn store).isPresent p := by
  have hnone := readIn_eq_none_iff hp store hpid
  rw [obstacle?] at h
  rw [fingerprintIn?]
  cases hread : s.readIn store p with
  | error e => simp [hread] at h
  | ok stored =>
    rw [hread] at hnone
    cases stored with
    | none => rw [hnone.mp rfl]; rfl
    | some e =>
      cases hpresent : (s.lineageIn store).isPresent p with
      | true => rfl
      | false => exact absurd (hnone.mpr hpresent) (by simp)

theorem Materialized.chainedTo (hp : s.persona.IsRead) {m : Materialization}
    (h : s.Materialized store stage content m) : s.ChainedTo store stage m := by
  obtain ⟨payload, -, rfl⟩ := h.ofValue
  have hget : ∀ p, (s.materializedIn store stage payload).envelope.parents.get? p =
      if p ∈ s.persona.definition.parents stage then s.fingerprintIn? store p else none :=
    get?_parentFingerprints s store stage
  refine ⟨fun p => ?_, fun p f hf => ?_, rfl⟩
  · rw [SortedMap.contains, hget]
    split
    · next hparent =>
      rw [isSome_fingerprintIn? hp (hp.wellFormed.mem_of_parents hparent) (h.obstacle? p hparent)]
      exact (and_iff_right hparent).symm
    · next hparent => simp [hparent]
  · rw [hget] at hf
    split at hf
    · exact fingerprintIn?_eq_some hf
    · cases hf

/-- A stage is refused for the first check that fails, and then the store is as it was; if none fails it is
    materialized, chained to the parents that are present. -/
theorem materialize_or_refused (hp : s.persona.IsRead) (store : MemoryStore) (stage : String) (content : Json) :
    (∀ e, store.answer (s.materialize stage content) = .error e ↔ s.Refused store stage content e) ∧
      (∀ e, s.Refused store stage content e → store.after (s.materialize stage content) = store) ∧
      ((∀ e, ¬ s.Refused store stage content e) →
        ∃ m, store.answer (s.materialize stage content) = .ok m ∧ s.ChainedTo store stage m) := by
  refine ⟨fun e => answer_eq_error_iff hp, fun e h => after_of_answer_error hp (answer_eq_error_iff hp |>.mpr h),
    fun h => ?_⟩
  cases hanswer : store.answer (s.materialize stage content) with
  | error e => exact absurd (answer_eq_error_iff hp |>.mp hanswer) (h e)
  | ok m => exact ⟨m, rfl, (materialized_of_answer hp hanswer).chainedTo hp⟩

/-- The stage below a parent that moved away is refused because of that parent. -/
theorem refused_forked : ∃ s : Session, s.persona.IsRead ∧ s.persona.definition = .forked ∧
    (s.history .empty forkedCalls).answer (s.materialize "s" (.bool false)) = .error (.missingParent "s" "a") ∧
    (s.history .empty forkedCalls).after (s.materialize "s" (.bool false)) = s.history .empty forkedCalls := by
  obtain ⟨s, hp, hd, -, hroom⟩ := exists_forked
  obtain ⟨-, hl⟩ := forked_history hp hd hroom
  obtain ⟨hanswer, hafter, -⟩ := materialize_or_refused hp (s.history .empty forkedCalls) "s" (.bool false)
  have hrefused : s.Refused (s.history .empty forkedCalls) "s" (.bool false) (.missingParent "s" "a") := by
    have hparents : Stage.distinct (s.persona.definition.parents "s") = [] ++ "a" :: ["x"] := by
      rw [hd]
      decide
    refine .parent ?_ (by simp) (hroom false) hparents (fun q hq => nomatch hq) (.missing (hl ▸ rfl) ?_)
    all_goals
      rw [hd]
      decide
  exact ⟨s, hp, hd, (hanswer _).mpr hrefused, hafter _ hrefused⟩

end StageLineage.Session
