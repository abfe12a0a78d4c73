import StageLineage.Proofs.Session.History

/-! Available stages. The position decides from presence and optionality alone which stages can run, and
    materializing decides it again while it gathers the parents; where every present stage can be read, the
    two agree. -/

namespace StageLineage.Session
variable {s : Session} {store : MemoryStore} {id p : String}

/-- A stage is not complete as long as the stage whose artifact completes it, if there is one, is absent. -/
def Incomplete (s : Session) (store : MemoryStore) (id : String) : Prop :=
  ∃ declared ∈ s.persona.definition.stages, declared.id = id ∧
    ∀ target, declared.completionTarget? = some target → (s.lineageIn store).isPresent target = false

/-- A stage is materialized whatever its content is, as long as the payload is neither null nor too large. -/
def Accepts (s : Session) (store : MemoryStore) (id : String) : Prop :=
  ∀ content : Json, content ≠ .null → content.canonicalText.utf8ByteSize ≤ s.options.maxPayload →
    ∃ m, store.answer (s.materialize id content) = .ok m

/-! ### Parents -/

/-- A stage accepts payloads exactly if its parents are satisfied, provided that there is a payload. -/
theorem accepts_iff (hp : s.persona.IsRead) (hread : s.Readable store) (hid : id ∈ s.persona.definition.ids)
    (hroom : ∃ content : Json, content ≠ .null ∧ content.canonicalText.utf8ByteSize ≤ s.options.maxPayload) :
    s.Accepts store id ↔ ∀ p ∈ s.persona.definition.parents id,
      Position.isSatisfied s.persona.definition (s.lineageIn store) p = true := by
  have hobstacles : (∀ p ∈ s.persona.definition.parents id, s.obstacle? store id p = none) ↔
      ∀ p ∈ s.persona.definition.parents id,
        Position.isSatisfied s.persona.definition (s.lineageIn store) p = true := by
    refine forall_congr' fun p => imp_congr_right fun hparent => ?_
    rw [obstacle?_eq hp hread id (hp.wellFormed.mem_of_parents hparent)]
    split <;> simp_all
  rw [← hobstacles]
  constructor
  · intro h
    obtain ⟨content, hne, hsize⟩ := hroom
    exact ((exists_answer_iff hp store hid content).mp (h content hne hsize)).2
  · exact fun h content hne hsize => (exists_answer_iff hp store hid content).mpr ⟨Envelope.exists_ofValue hne hsize, h⟩

/-- A stage with an unsatisfied parent is refused because of a missing parent. -/
theorem answer_missingParent (hp : s.persona.IsRead) (hread : s.Readable store) (hid : id ∈ s.persona.definition.ids)
    (hparent : p ∈ s.persona.definition.parents id)
    (hunsatisfied : Position.isSatisfied s.persona.definition (s.lineageIn store) p = false) {content : Json}
    (hne : content ≠ .null) (hsize : content.canonicalText.utf8ByteSize ≤ s.options.maxPayload) :
    ∃ q ∈ s.persona.definition.parents id, s.persona.definition.isOptional q = false ∧
      (s.lineageIn store).isPresent q = false ∧
      store.answer (s.materialize id content) = .error (.missingParent id q) := by
  have hwf := hp.wellFormed
  obtain ⟨payload, hpayload⟩ := Envelope.exists_ofValue hne hsize
  have hobstacle : s.obstacle? store id p ≠ none := by
    rw [obstacle?_eq hp hread id (hwf.mem_of_parents hparent), hunsatisfied]
    simp
  obtain ⟨q, hq, e, he, hanswer⟩ := answer_of_obstacle? hp store hid hpayload hparent hobstacle
  rw [obstacle?_eq hp hread id (hwf.mem_of_parents hq)] at he
  split at he
  · cases he
  · next hsatisfied =>
    cases he
    have hsatisfied : ¬ ((s.lineageIn store).isPresent q || s.persona.definition.isOptional q) = true := hsatisfied
    simp only [Bool.or_eq_true, not_or, Bool.not_eq_true] at hsatisfied
    exact ⟨q, hq, hsatisfied.2, hsatisfied.1, hanswer⟩

/-! ### The position -/

theorem run_position (hp : s.persona.IsRead) (store : MemoryStore) :
    store.run s.position = (.ok (Position.of s.persona.definition (s.lineageIn store)), store) := by
  rw [position, MemoryStore.run_bind, (run_lineage hp store).1]
  rfl

theorem incomplete_iff (hp : s.persona.IsRead) {declared : Stage} (hd : declared ∈ s.persona.definition.stages) :
    s.Incomplete store declared.id ↔ declared.isComplete (s.lineageIn store) = false := by
  constructor
  · rintro ⟨other, hother, hid, h⟩
    have hsame : other = declared := List.inj_on_of_nodup_map hp.wellFormed.ids_nodup hother hd hid
    subst hsame
    cases htarget : other.completionTarget? with
    | none => simp [Stage.isComplete, htarget]
    | some target => simp [Stage.isComplete, htarget, h target htarget]
  · intro h
    refine ⟨declared, hd, rfl, fun target htarget => ?_⟩
    simpa [Stage.isComplete, htarget] using h

/-- The available stages are the reachable ones that are not complete and have satisfied parents. -/
theorem mem_availableIds_iff (hp : s.persona.IsRead) :
    id ∈ (Position.of s.persona.definition (s.lineageIn store)).availableIds ↔
      s.persona.definition.Reachable id ∧ s.Incomplete store id ∧
        ∀ p ∈ s.persona.definition.parents id,
          Position.isSatisfied s.persona.definition (s.lineageIn store) p = true := by
  simp only [Position.availableIds, Position.of, List.mem_map, List.mem_filter, Bool.and_eq_true, Bool.not_eq_true',
    List.all_eq_true, List.contains_iff_mem, Definition.mem_reachable_iff]
  constructor
  · rintro ⟨declared, ⟨hd, ⟨hreachable, hincomplete⟩, hparents⟩, rfl⟩
    refine ⟨hreachable, (incomplete_iff hp hd).mpr hincomplete, ?_⟩
    rwa [Definition.parents_of_stage? (hp.wellFormed.stage?_of_mem hd)]
  · rintro ⟨hreachable, hincomplete, hparents⟩
    obtain ⟨declared, hd, rfl⟩ : ∃ declared ∈ s.persona.definition.stages, declared.id = id := by
      obtain ⟨declared, hd, hid, -⟩ := hincomplete
      exact ⟨declared, hd, hid⟩
    refine ⟨declared, ⟨hd, ⟨hreachable, (incomplete_iff hp hd).mp hincomplete⟩, ?_⟩, rfl⟩
    rwa [Definition.parents_of_stage? (hp.wellFormed.stage?_of_mem hd)] at hparents

/-- What is available is accepted. -/
theorem accepts_of_mem_availableIds (hp : s.persona.IsRead) (hread : s.Readable store)
    (h : id ∈ (Position.of s.persona.definition (s.lineageIn store)).availableIds) : s.Accepts store id := by
  obtain ⟨-, ⟨_, hd, hid, -⟩, hsatisfied⟩ := (mem_availableIds_iff hp).mp h
  exact fun content hne hsize =>
    (accepts_iff hp hread (Definition.mem_ids_iff.mpr ⟨_, hd, hid⟩) ⟨content, hne, hsize⟩).mpr hsatisfied content hne hsize

theorem mem_availableIds_of_current? {position : Position} {declared : Stage}
    (h : position.current? = some declared) : declared.id ∈ position.availableIds :=
  List.mem_map_of_mem (List.mem_of_mem_head? h)

/-- What a position says about materializing stages. -/
structure Foretells (s : Session) (store : MemoryStore) (position : Position) : Prop where
  /-- The available stages stand in the order of declaration. -/
  sublist : position.availableIds.Sublist s.persona.definition.ids
  nodup : position.availableIds.Nodup
  /-- They are the reachable and incomplete stages that are accepted, under whatever limit. -/
  mem_iff : ∀ id, id ∈ position.availableIds ↔ s.persona.definition.Reachable id ∧ s.Incomplete store id ∧
    ∀ options, Accepts { s with options } store id
  /-- It is enough to look at the limit of the session, if it leaves room for any payload. -/
  mem_iff_of_room :
    (∃ content : Json, content ≠ .null ∧ content.canonicalText.utf8ByteSize ≤ s.options.maxPayload) →
      ∀ id, id ∈ position.availableIds ↔
        s.persona.definition.Reachable id ∧ s.Incomplete store id ∧ s.Accepts store id
  /-- The stage that is next is accepted. -/
  current : ∀ declared, position.current? = some declared → s.Accepts store declared.id
  /-- Any other reachable and incomplete stage is refused because of a missing parent. -/
  missing : ∀ id, s.persona.definition.Reachable id → s.Incomplete store id → id ∉ position.availableIds →
    ∀ content : Json, content ≠ .null → content.canonicalText.utf8ByteSize ≤ s.options.maxPayload →
      ∃ q ∈ s.persona.definition.parents id, s.persona.definition.isOptional q = false ∧
        (s.lineageIn store).isPresent q = false ∧
        store.answer (s.materialize id content) = .error (.missingParent id q)

/-- Where every present stage can be read, the position foretells which stages are materialized. -/
theorem position_foretells (hp : s.persona.IsRead) (hread : s.Readable store) :
    ∃ position, store.answer s.position = .ok position ∧ s.Foretells store position := by
  have hids : ∀ {id}, s.Incomplete store id → id ∈ s.persona.definition.ids := fun ⟨declared, hd, hid, _⟩ =>
    Definition.mem_ids_iff.mpr ⟨declared, hd, hid⟩
  have hsublist : (Position.of s.persona.definition (s.lineageIn store)).availableIds.Sublist
      s.persona.definition.ids := List.filter_sublist.map _
  -- The options do not matter for where stages stand and what is read of them.
  have haccepts : ∀ options id, s.Incomplete store id →
      (∃ content : Json, content ≠ .null ∧ content.canonicalText.utf8ByteSize ≤ options.maxPayload) →
      (Accepts { s with options } store id ↔ ∀ p ∈ s.persona.definition.parents id,
        Position.isSatisfied s.persona.definition (s.lineageIn store) p = true) := fun options id hincomplete hroom =>
    accepts_iff (s := { s with options }) hp hread (hids hincomplete) hroom
  refine ⟨_, by rw [MemoryStore.answer, run_position hp store], ⟨hsublist, hsublist.nodup hp.wellFormed.ids_nodup,
    fun id => ?_, fun hroom id => ?_, fun declared hcurrent => ?_, fun id hreachable hincomplete hout => ?_⟩⟩
  · rw [mem_availableIds_iff hp]
    refine and_congr_right fun _ => and_congr_right fun hincomplete => ⟨fun hsatisfied => ?_, fun haccepts' => ?_⟩
    · intro options content hne hsize
      exact (haccepts options id hincomplete ⟨content, hne, hsize⟩).mpr hsatisfied content hne hsize
    · have hroom : (Json.bool true).canonicalText.utf8ByteSize ≤ ({} : SessionOptions).maxPayload := by decide
      exact (haccepts {} id hincomplete ⟨.bool true, by simp, hroom⟩).mp (haccepts' {})
  · rw [mem_availableIds_iff hp]
    refine and_congr_right fun _ => and_congr_right fun hincomplete => ?_
    exact (haccepts s.options id hincomplete hroom).symm
  · exact accepts_of_mem_availableIds hp hread (mem_availableIds_of_current? hcurrent)
  · intro content hne hsize
    rw [mem_availableIds_iff hp] at hout
    have hunsatisfied : ∃ p ∈ s.persona.definition.parents id,
        Position.isSatisfied s.persona.definition (s.lineageIn store) p = false := by
      by_contra hall
      refine hout ⟨hreachable, hincomplete, fun p hparent => ?_⟩
      by_contra hnot
      exact hall ⟨p, hparent, by simpa using hnot⟩
    obtain ⟨p, hparent, hnot⟩ := hunsatisfied
    exact answer_missingParent hp hread (hids hincomplete) hparent hnot hne hsize

/-- What the position foretells after a history in which a mandatory parent moved away. -/
theorem position_foretells_forked : ∃ s : Session, s.persona.IsRead ∧ s.persona.definition = .forked ∧
    ∃ position, (s.history .empty forkedCalls).answer s.position = .ok position ∧
      s.Foretells (s.history .empty forkedCalls) position := by
  obtain ⟨s, hp, hd, -⟩ := exists_forked
  exact ⟨s, hp, hd, position_foretells hp (readable_history hp (by decide))⟩

end StageLineage.Session
