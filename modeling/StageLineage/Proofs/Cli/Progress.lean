import StageLineage.Proofs.Cli.Scenario

/-! Scenarios go through. Where every file below the session root holds an envelope and the contents that are made up
    are within the limit, each turn succeeds: what the position calls available the engine accepts, and the store is
    such a store again. A scenario ends because it takes no stage twice, whether or not the stage is complete then. -/

namespace StageLineage.Cli

/-! ### What a scenario is given -/

section
variable {s : Session} {skips : List String} {id : String}

/-- The stages that a scenario may write: all that are not skipped. -/
def pending (s : Session) (skips : List String) : List String :=
  s.persona.definition.ids.filter (!skips.contains ·)

theorem mem_pending_iff : id ∈ pending s skips ↔ id ∈ s.persona.definition.ids ∧ id ∉ skips := by
  simp [pending]

theorem nodup_pending (hp : s.persona.IsRead) : (pending s skips).Nodup := hp.wellFormed.ids_nodup.filter _

theorem length_pending_le : (pending s skips).length ≤ s.persona.definition.stages.length :=
  (List.length_filter_le _ _).trans_eq (List.length_map _)

end

/-- The calls of a scenario that wrote these stages, each with the content that is made up for its step. -/
def scenarioCalls (d : Definition) (done : List StagePath) : List Call :=
  done.zipIdx.filterMap fun (p, n) => (d.stage? p.stage).map fun stage => ⟨stage.id, syntheticContent stage (n + 1)⟩

theorem scenarioCalls_concat {d : Definition} {done : List StagePath} {p : StagePath} {stage : Stage}
    (h : d.stage? p.stage = some stage) : scenarioCalls d (done ++ [p]) =
      scenarioCalls d done ++ [⟨stage.id, syntheticContent stage (done.length + 1)⟩] := by
  simp [scenarioCalls, List.zipIdx_append, h]

/-! ### Turns that succeed -/

/-- A turn of a scenario that finds `store` and writes `p`: the stage may be written and is, and its mandatory parents
    are present. -/
structure Turn (s : Session) (store : MemoryStore) (step : Nat) (p : StagePath) (stage : Stage) : Prop where
  declared : s.persona.definition.stage? p.stage = some stage
  completesWith : stage.completesWith ≠ .never
  answer : ∃ m, store.answer (s.materialize stage.id (syntheticContent stage step)) = .ok m ∧ m.path = p
  parents : ∀ parent ∈ stage.parents, s.persona.definition.isOptional parent = false →
    (s.lineageIn store).isPresent parent = true

/-- What holds of a scenario that began in the store `start`, while nothing has failed. -/
structure Progress (s : Session) (start : MemoryStore) (skips : List String) (x : DriveState) : Prop where
  perm : (x.todo ++ x.done.map (·.stage)).Perm (pending s skips)
  store_eq : x.store = s.history start (scenarioCalls s.persona.definition x.done)
  legible : s.Legible x.store
  turns : ∀ before p after, x.done = before ++ p :: after → ∃ stage,
    Turn s (s.history start (scenarioCalls s.persona.definition before)) (before.length + 1) p stage

/-- Why a scenario ended: no stage that can run is left, or one that only the operator finishes is next. -/
def Ended (s : Session) (store : MemoryStore) (skips : List String) (done : List StagePath) : ScenarioEnd → Prop
  | .exhausted => ∀ id ∈ (Position.of s.persona.definition (s.lineageIn store)).availableIds,
      id ∈ skips ∨ id ∈ done.map (·.stage)
  | .atAction id => id ∈ (Position.of s.persona.definition (s.lineageIn store)).availableIds ∧ id ∉ skips ∧
      id ∉ done.map (·.stage) ∧ ∃ stage ∈ s.persona.definition.stages, stage.id = id ∧ stage.completesWith = .never

theorem DriveState.declared_of_next? {s : Session} {x : DriveState} {stage : Stage} (h : x.next? s = some stage) :
    stage ∈ s.persona.definition.stages :=
  List.mem_of_mem_filter (next?_mem h).1

namespace Progress
variable {s : Session} {start : MemoryStore} {skips : List String} {x last : DriveState} {stage : Stage}

theorem of_start (hlegible : s.Legible start) : Progress s start skips ⟨start, pending s skips, []⟩ where
  perm := by simp
  store_eq := rfl
  legible := hlegible
  turns before p after h := by simp at h

theorem length_le (h : Progress s start skips x) :
    x.todo.length + x.done.length ≤ s.persona.definition.stages.length := by
  have hlength := h.perm.length_eq
  rw [List.length_append, List.length_map] at hlength
  exact hlength ▸ length_pending_le

theorem not_skipped (h : Progress s start skips x) {p : StagePath} (hp : p ∈ x.done) : p.stage ∉ skips :=
  (mem_pending_iff.mp (h.perm.mem_iff.mp (List.mem_append_right _ (List.mem_map_of_mem hp)))).2

section
variable (hcount : s.persona.definition.stages.length < 2 ^ 64)
  (hroom : ∀ stage ∈ s.persona.definition.stages, ∀ step ≤ s.persona.definition.stages.length,
    (syntheticContent stage step).canonicalText.utf8ByteSize ≤ s.options.maxPayload)
include hcount hroom

theorem suits (h : Progress s start skips x) (hnext : x.next? s = some stage) : s.Suits (x.content stage) := by
  have htodo := List.length_pos_of_mem (DriveState.next?_mem hnext).2
  have hstep : x.done.length + 1 ≤ s.persona.definition.stages.length := by
    have := h.length_le
    omega
  exact suits_syntheticContent stage (Nat.lt_of_le_of_lt hstep hcount)
    (hroom stage (DriveState.declared_of_next? hnext) _ hstep)

theorem step (hp : s.persona.IsRead) (h : Progress s start skips x) (hstep : DriveState.Step s x last) :
    Progress s start skips last := by
  have hperm := (hstep.perm hp).trans h.perm
  cases hstep with
  | @intro stage m hnext hrule hanswer =>
    have hm := Session.materialized_of_answer hp hanswer
    have hsuits := h.suits hcount hroom hnext
    have hstage := hp.wellFormed.stage?_of_mem (DriveState.declared_of_next? hnext)
    have hdeclared : s.persona.definition.stage? m.path.stage = some stage := by rwa [hm.path_eq]
    refine ⟨hperm, ?_, h.legible.after hp ⟨stage.id, x.content stage⟩ hsuits.exact hsuits.depth,
      fun before p after hdone => ?_⟩
    · simp only [DriveState.advance, scenarioCalls_concat hdeclared, Session.history_concat, ← h.store_eq,
        DriveState.content]
    · rcases split_of_concat hdone with ⟨rfl, rfl, -⟩ | ⟨rest, rfl, hformer⟩
      -- The turn that was made last found the store that the scenario has come to.
      · rw [← h.store_eq]
        refine ⟨stage, hdeclared, hrule, ⟨m, hanswer, rfl⟩, fun parent hparent hmandatory => ?_⟩
        rw [← Definition.parents_of_stage? hstage] at hparent
        exact hm.isPresent_parent hp hparent hmandatory
      · exact h.turns before p rest hformer

theorem steps (hp : s.persona.IsRead) (h : Progress s start skips x)
    (hsteps : Relation.ReflTransGen (DriveState.Step s) x last) : Progress s start skips last := by
  induction hsteps with
  | refl => exact h
  | tail _ hstep ih => exact ih.step hcount hroom hp hstep

/-- A scenario that has come so far ends for a reason, and not by a failure. -/
theorem exists_ended (hp : s.persona.IsRead) (h : Progress s start skips x) {ending : Except Failure ScenarioEnd}
    (hstops : x.Stops s ending) : ∃ reached, ending = .ok reached ∧ Ended s x.store skips x.done reached := by
  cases hstops with
  | exhausted hnext =>
    refine ⟨.exhausted, rfl, fun id havailable => or_iff_not_imp_left.mpr fun hskips => ?_⟩
    obtain ⟨declared, hdeclared, hid⟩ := List.mem_map.mp havailable
    have hids : id ∈ s.persona.definition.ids :=
      Definition.mem_ids_iff.mpr ⟨declared, List.mem_of_mem_filter hdeclared, hid⟩
    exact List.mem_map.mpr (DriveState.exists_done h.perm hnext (mem_pending_iff.mpr ⟨hids, hskips⟩) havailable)
  | @atAction stage hnext hrule =>
    obtain ⟨havailable, htodo⟩ := DriveState.next?_mem hnext
    have hgiven := mem_pending_iff.mp (h.perm.mem_iff.mp (List.mem_append_left _ htodo))
    have hdisjoint := (List.nodup_append.mp (h.perm.nodup_iff.mpr (nodup_pending hp))).2.2
    exact ⟨.atAction stage.id, rfl, List.mem_map_of_mem havailable, hgiven.2,
      fun hdone => hdisjoint _ htodo _ hdone rfl, stage, DriveState.declared_of_next? hnext, rfl, hrule⟩
  | failed hnext _ hanswer =>
    obtain ⟨m, hm⟩ := DriveState.exists_answer hp h.legible hnext (h.suits hcount hroom hnext)
    cases hanswer.symm.trans hm

end

end Progress

/-- A scenario in a session in which every file holds an envelope, and which has room for all the contents that are
    made up for it, ends without an error, and only when nothing is left for it. It writes no more stages than there
    are, none twice, none that is skipped and none that only the operator finishes; and each while its mandatory
    parents are present. The number of a step is a word of 64 bits, so there have to be fewer stages than that. -/
theorem scenario_succeeds {s : Session} (hp : s.persona.IsRead) {store : MemoryStore} (hlegible : s.Legible store)
    (skips : List String) (hcount : s.persona.definition.stages.length < 2 ^ 64)
    (hroom : ∀ stage ∈ s.persona.definition.stages, ∀ step ≤ s.persona.definition.stages.length,
      (syntheticContent stage step).canonicalText.utf8ByteSize ≤ s.options.maxPayload) :
    ∃ done reached store',
      (drive s (pending s skips) [] : StateM MemoryStore _).run store = ((done, .ok reached), store') ∧
      Ended s store' skips done reached ∧ store' = s.history store (scenarioCalls s.persona.definition done) ∧
      done.length ≤ s.persona.definition.stages.length ∧ (done.map (·.stage)).Nodup ∧
      ∀ before p after, done = before ++ p :: after → p.stage ∉ skips ∧ ∃ stage,
        Turn s (s.history store (scenarioCalls s.persona.definition before)) (before.length + 1) p stage := by
  obtain ⟨last, ending, hsteps, hstops, houtcome⟩ := DriveState.exists_stops hp ⟨store, pending s skips, []⟩
  have hprogress := (Progress.of_start hlegible).steps hcount hroom hp hsteps
  obtain ⟨reached, rfl, hended⟩ := hprogress.exists_ended hcount hroom hp hstops
  refine ⟨_, reached, _, houtcome, hended, hprogress.store_eq, ?_, ?_, fun before p after hdone => ⟨?_, ?_⟩⟩
  · have := hprogress.length_le
    omega
  · exact (List.nodup_append.mp (hprogress.perm.nodup_iff.mpr (nodup_pending hp))).2.1
  · exact hprogress.not_skipped (by simp [hdone])
  · exact hprogress.turns before p after hdone

/-- A scenario that leaves out `o` and goes on where `x` was materialized. -/
theorem scenario_succeeds_forked : ∃ (s : Session) (store : MemoryStore), s.persona.IsRead ∧
    s.persona.definition = .forked ∧ store = s.history .empty [⟨"x", .bool true⟩] ∧ s.Legible store ∧
    ∃ done reached store', (drive s (pending s ["o"]) [] : StateM MemoryStore _).run store =
        ((done, .ok reached), store') ∧ done.length ≤ 4 ∧ ∀ p ∈ done, p.stage ≠ "o" := by
  obtain ⟨p, hp, hd⟩ := Persona.exists_forked
  have hcount : p.definition.stages.length < 2 ^ 64 := by rw [hd]; decide
  have hroom : ∀ stage ∈ p.definition.stages, ∀ step ≤ p.definition.stages.length,
      (syntheticContent stage step).canonicalText.utf8ByteSize ≤ Payload.defaultLimit := by rw [hd]; decide
  have hempty : Session.Legible ⟨p, {}, ⟨"r"⟩⟩ .empty := fun _ _ _ h => nomatch h
  have hlegible := hempty.after hp ⟨"x", .bool true⟩ (by decide) (by decide)
  obtain ⟨done, reached, store', hrun, -, -, hlength, -, hturns⟩ := scenario_succeeds hp hlegible ["o"] hcount hroom
  refine ⟨⟨p, {}, ⟨"r"⟩⟩, _, hp, hd, rfl, hlegible, done, reached, store', hrun, hlength.trans (by rw [hd]; decide), ?_⟩
  intro q hq
  obtain ⟨before, after, hsplit⟩ := List.append_of_mem hq
  simpa using (hturns before q after hsplit).1

end StageLineage.Cli
