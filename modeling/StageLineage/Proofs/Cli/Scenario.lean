import StageLineage.Cli.Scenario
import StageLineage.Proofs.Session.Driven

/-! Scenarios as runs of steps. Each step takes a stage from those that are to do and writes its file, so in a
    session that was empty the files are those of the stages that were done. A stage that was done stays where
    it is unless an optional stage above it is done later; it is then absent again, and a scenario leaves it. -/

namespace StageLineage.Cli

/-- Where a scenario is: what it has written, what it may still do and what it has done. -/
structure DriveState where
  store : MemoryStore
  todo : List String
  done : List StagePath

namespace DriveState
variable {s : Session} {x last : DriveState} {stage : Stage} {m : Materialization}

def next? (s : Session) (x : DriveState) : Option Stage :=
  (Position.of s.persona.definition (s.lineageIn x.store)).available.find? (x.todo.contains ·.id)

def content (x : DriveState) (stage : Stage) : Json := syntheticContent stage (x.done.length + 1)

def advance (s : Session) (x : DriveState) (stage : Stage) (m : Materialization) : DriveState :=
  ⟨x.store.after (s.materialize stage.id (x.content stage)), x.todo.erase stage.id, x.done ++ [m.path]⟩

inductive Step (s : Session) (x : DriveState) : DriveState → Prop
  | intro {stage : Stage} {m : Materialization} : x.next? s = some stage → stage.completesWith ≠ .never →
      x.store.answer (s.materialize stage.id (x.content stage)) = .ok m → Step s x (x.advance s stage m)

/-- How a scenario ends if it goes no further. -/
inductive Stops (s : Session) (x : DriveState) : Except Failure ScenarioEnd → Prop
  | exhausted : x.next? s = none → Stops s x (.ok .exhausted)
  | atAction {stage : Stage} : x.next? s = some stage → stage.completesWith = .never →
      Stops s x (.ok (.atAction stage.id))
  | failed {stage : Stage} {cause : SessionError} : x.next? s = some stage → stage.completesWith ≠ .never →
      x.store.answer (s.materialize stage.id (x.content stage)) = .error cause →
      Stops s x (.error (.step stage.id cause))

/-- What a scenario comes to from here, and the store after it. -/
def outcome (s : Session) (x : DriveState) : (List StagePath × Except Failure ScenarioEnd) × MemoryStore :=
  (drive s x.todo x.done : StateM MemoryStore _).run x.store

/-! ### Turns -/

theorem next?_mem (h : x.next? s = some stage) :
    stage ∈ (Position.of s.persona.definition (s.lineageIn x.store)).available ∧ stage.id ∈ x.todo :=
  ⟨List.mem_of_find?_eq_some h, by simpa using List.find?_some h⟩

theorem outcome_eq (hp : s.persona.IsRead) (x : DriveState) :
    x.outcome s =
      match x.next? s with
      | none => ((x.done, .ok .exhausted), x.store)
      | some stage =>
        if stage.completesWith = .never then ((x.done, .ok (.atAction stage.id)), x.store)
        else
          match x.store.run (s.materialize stage.id (x.content stage)) with
          | (.error cause, store) => ((x.done, .error (.step stage.id cause)), store)
          | (.ok m, store) => outcome s ⟨store, x.todo.erase stage.id, x.done ++ [m.path]⟩ := by
  have hposition : (ExceptT.run (s.position : ExceptT SessionError (StateM MemoryStore) Position)).run x.store =
      (.ok (Position.of s.persona.definition (s.lineageIn x.store)), x.store) := Session.run_position hp x.store
  unfold outcome next? content
  rw [drive, StateT.run_bind, hposition]
  dsimp only [bind, Id]
  -- The match keeps the equation that the measure of the loop needs, so what was found is generalized and then split.
  generalize (Position.of s.persona.definition (s.lineageIn x.store)).available.find? (x.todo.contains ·.id) = found
  cases found with
  | none => rfl
  | some stage =>
    by_cases hrule : stage.completesWith = .never
    · simp only [if_pos hrule]
      rfl
    · simp only [if_neg hrule, MemoryStore.run, StateT.run, StateT.bind]
      generalize (ExceptT.run (s.materialize stage.id (syntheticContent stage (x.done.length + 1)) :
        ExceptT SessionError (StateM MemoryStore) _)) x.store = answer
      obtain ⟨_ | m, store⟩ := answer <;> rfl

theorem outcome_of_stops (hp : s.persona.IsRead) {ending : Except Failure ScenarioEnd} (h : x.Stops s ending) :
    x.outcome s = ((x.done, ending), x.store) := by
  rw [outcome_eq hp]
  cases h with
  | exhausted hnext => rw [hnext]
  | atAction hnext hrule => simp only [hnext, if_pos hrule]
  | @failed stage cause hnext hrule hanswer =>
    have hrun : x.store.run (s.materialize stage.id (x.content stage)) = (.error cause, x.store) :=
      Prod.ext hanswer (Session.after_of_answer_error hp hanswer)
    simp only [hnext, if_neg hrule, hrun]

theorem outcome_of_step (hp : s.persona.IsRead) (h : Step s x last) : x.outcome s = last.outcome s := by
  cases h with
  | @intro stage m hnext hrule hanswer =>
    have hrun : x.store.run (s.materialize stage.id (x.content stage)) = (.ok m, (x.advance s stage m).store) :=
      Prod.ext hanswer rfl
    rw [outcome_eq hp]
    simp only [hnext, if_neg hrule, hrun]
    rfl

theorem outcome_of_steps (hp : s.persona.IsRead) (h : Relation.ReflTransGen (Step s) x last) :
    x.outcome s = last.outcome s := by
  induction h with
  | refl => rfl
  | tail _ hstep ih => exact ih.trans (outcome_of_step hp hstep)

/-- A scenario comes to an end, for there is less to do after each turn. -/
theorem exists_stops (hp : s.persona.IsRead) (x : DriveState) :
    ∃ last ending, Relation.ReflTransGen (Step s) x last ∧ last.Stops s ending ∧
      x.outcome s = ((last.done, ending), last.store) := by
  induction hlength : x.todo.length using Nat.strong_induction_on generalizing x with
  | _ n ih =>
    have here : ∀ {ending}, x.Stops s ending → ∃ last ending, Relation.ReflTransGen (Step s) x last ∧
        last.Stops s ending ∧ x.outcome s = ((last.done, ending), last.store) := fun h =>
      ⟨x, _, .refl, h, outcome_of_stops hp h⟩
    cases hnext : x.next? s with
    | none => exact here (.exhausted hnext)
    | some stage =>
      by_cases hrule : stage.completesWith = .never
      · exact here (.atAction hnext hrule)
      cases hanswer : x.store.answer (s.materialize stage.id (x.content stage)) with
      | error cause => exact here (.failed hnext hrule hanswer)
      | ok m =>
        have hstep : Step s x (x.advance s stage m) := .intro hnext hrule hanswer
        have hmem := (next?_mem hnext).2
        have hless : (x.advance s stage m).todo.length < n := by
          have := List.length_erase_of_mem hmem
          have := List.length_pos_of_mem hmem
          simp only [advance]
          omega
        obtain ⟨last, ending, hsteps, hstops, houtcome⟩ := ih _ hless (x.advance s stage m) rfl
        exact ⟨last, ending, hsteps.head hstep, hstops, (outcome_of_step hp hstep).trans houtcome⟩

/-! ### What a turn keeps -/

/-- The stages that were done and those that are to do are those that were given, and the files below the session
    root are those of the stages that were done. -/
structure Accounted (s : Session) (given : List String) (x : DriveState) : Prop where
  perm : (x.todo ++ x.done.map (·.stage)).Perm given
  done_mem : ∀ p ∈ x.done, p.stage ∈ s.persona.definition.ids ∧ s.persona.definition.Reachable p.stage ∧ p.dir.Named
  written : ∀ p ∈ x.done, x.store.fileExists (s.root.join p.artifactPath) = true
  only : ∀ file, file.startsWith s.root = true → x.store.fileExists file = true →
    ∃ p ∈ x.done, compare file (s.root.join p.artifactPath) = .eq

/-- What was done stands where it was written, unless an optional stage above it was done later. -/
def Settled (s : Session) (x : DriveState) : Prop :=
  ∀ before p after, x.done = before ++ p :: after →
    p.dir.names = ((s.lineageIn x.store).dir p.stage).names ∨
      ∃ o ∈ after, o.stage ∈ s.persona.definition.ancestors p.stage ∧ s.persona.definition.isOptional o.stage = true

theorem Step.perm (hp : s.persona.IsRead) (h : Step s x last) :
    (last.todo ++ last.done.map (·.stage)).Perm (x.todo ++ x.done.map (·.stage)) := by
  cases h with
  | @intro stage m hnext hrule hanswer =>
    have hstage : m.path.stage = stage.id := by rw [(Session.materialized_of_answer hp hanswer).path_eq]
    simp only [advance, List.map_append, List.map_cons, List.map_nil, hstage]
    rw [← List.append_assoc]
    exact (List.perm_append_singleton ..).trans ((List.perm_cons_erase (next?_mem hnext).2).symm.append_right _)

theorem Accounted.step (hp : s.persona.IsRead) {given : List String} (h : Accounted s given x) (hstep : Step s x last) :
    Accounted s given last := by
  have hperm := (hstep.perm hp).trans h.perm
  cases hstep with
  | @intro stage m hnext hrule hanswer =>
    have hm := Session.materialized_of_answer hp hanswer
    have havailable := (next?_mem hnext).1
    have hfile : m.artifactPath = s.root.join m.path.artifactPath := by
      rw [hm.artifactPath_eq, Session.file_eq hp, hm.path_eq]
    have hreachable : s.persona.definition.Reachable stage.id :=
      ((Session.mem_availableIds_iff hp).mp (List.mem_map_of_mem havailable)).1
    have hexists : ∀ file, (x.advance s stage m).store.fileExists file =
        (compare file (s.root.join m.path.artifactPath) == .eq || x.store.fileExists file) := fun file => by
      rw [advance, hm.after_eq, MemoryStore.fileExists, Session.storeWith, SortedMap.contains_insert, hfile]
      rfl
    have hmem : ∀ p ∈ (x.advance s stage m).done, p ∈ x.done ∨ p = m.path := fun p hp => by
      simpa [advance] using hp
    refine ⟨hperm, fun p hdone => ?_, fun p hdone => ?_, fun file hbelow hfile => ?_⟩
    · rcases hmem p hdone with hdone | rfl
      · exact h.done_mem p hdone
      · rw [hm.path_eq]
        exact ⟨hm.mem_ids, hreachable, Session.named_dir hp _ hm.mem_ids⟩
    · rw [hexists, Bool.or_eq_true, beq_iff_eq]
      rcases hmem p hdone with hdone | rfl
      · exact Or.inr (h.written p hdone)
      · exact Or.inl Std.ReflOrd.compare_self
    · rw [hexists, Bool.or_eq_true, beq_iff_eq] at hfile
      rcases hfile with hfile | hfile
      · exact ⟨m.path, by simp [advance], hfile⟩
      · obtain ⟨p, hdone, hcompare⟩ := h.only file hbelow hfile
        exact ⟨p, List.mem_append_left _ hdone, hcompare⟩

theorem Settled.step (hp : s.persona.IsRead) {given : List String} (haccounted : Accounted s given x)
    (h : Settled s x) (hstep : Step s x last) : Settled s last := by
  cases hstep with
  | @intro stage m hnext hrule hanswer =>
    have hm := Session.materialized_of_answer hp hanswer
    have hwf := hp.wellFormed
    intro before p after hdone
    simp only [advance, hm.after_eq] at hdone ⊢
    rcases split_of_concat hdone with ⟨-, rfl, -⟩ | ⟨rest, rfl, hformer⟩
    · left
      rw [hm.path_eq, hm.dir_eq hp]
    · have hmem : p ∈ x.done := by simp [hformer]
      rcases h before p rest hformer with hstood | ⟨o, ho, habove⟩
      · -- Only an optional stage above it that was not there could have moved it, and that is the one done now.
        by_cases hmoves : s.persona.definition.Above stage.id p.stage ∧
            s.persona.definition.isOptional stage.id = true
        · right
          exact ⟨m.path, by simp, by rw [hm.path_eq]; exact ⟨hwf.mem_ancestors_iff.mpr hmoves.1, hmoves.2⟩⟩
        · left
          rw [hstood, hm.dir_eq_of_kept hp (haccounted.done_mem p hmem).1 fun habove => Or.inl ?_]
          simpa [habove] using hmoves
      · right
        exact ⟨o, by simp [ho], habove⟩

theorem accounted_start {store : MemoryStore} (hempty : ∀ file, file.startsWith s.root = true →
    store.fileExists file = false) (given : List String) :
    Accounted s given ⟨store, given, []⟩ ∧ Settled s ⟨store, given, []⟩ := by
  refine ⟨⟨by simp, by simp, by simp, fun file hbelow hexists => ?_⟩, fun before p after h => by simp at h⟩
  rw [hempty file hbelow] at hexists
  cases hexists

theorem accounted_of_steps (hp : s.persona.IsRead) {given : List String} (h : Accounted s given x)
    (hsettled : Settled s x) (hsteps : Relation.ReflTransGen (Step s) x last) :
    Accounted s given last ∧ Settled s last := by
  induction hsteps with
  | refl => exact ⟨h, hsettled⟩
  | tail _ hstep ih => exact ⟨ih.1.step hp hstep, ih.2.step hp ih.1 hstep⟩

theorem Accounted.holds (hp : s.persona.IsRead) {given : List String} (h : Accounted s given x) :
    s.Holds x.store x.done := by
  intro id hid dir hdir
  have hname := hp.wellFormed.isName hid
  rw [Bool.eq_iff_iff, List.any_eq_true]
  constructor
  · intro hexists
    obtain ⟨q, hq, hcompare⟩ := h.only _ (StagePath.startsWith_join_artifactPath s.root hdir hname) hexists
    obtain ⟨hqid, -, hqnamed⟩ := h.done_mem q hq
    obtain ⟨hnames, hstage⟩ := (StagePath.compare_artifactPath_iff (p := ⟨id, dir⟩) s.root hdir hname hqnamed
      (hp.wellFormed.isName hqid)).mp hcompare
    exact ⟨q, hq, by simpa using ⟨hstage.symm, hnames.symm⟩⟩
  · rintro ⟨q, hq, hsame⟩
    obtain ⟨rfl, hnames⟩ : q.stage = id ∧ q.dir.names = dir.names := by simpa using hsame
    have hwritten := h.written q hq
    rw [StagePath.join_artifactPath s.root (h.done_mem q hq).2.2 hname, hnames] at hwritten
    rw [StagePath.join_artifactPath (p := ⟨q.stage, dir⟩) s.root hdir hname]
    exact hwritten

/-- A stage that was done is present exactly if it stands where it was written. -/
theorem Accounted.isPresent_iff (hp : s.persona.IsRead) {given : List String} (hnodup : given.Nodup)
    (h : Accounted s given x) {p : StagePath} (hdone : p ∈ x.done) :
    (s.lineageIn x.store).isPresent p.stage = true ↔ p.dir.names = ((s.lineageIn x.store).dir p.stage).names := by
  have hid := (h.done_mem p hdone).1
  rw [Session.isPresent_eq hp _ hid, Session.file_eq hp, h.holds hp _ hid _ (Session.named_dir hp x.store hid),
    List.any_eq_true]
  constructor
  · rintro ⟨q, hq, hsame⟩
    obtain ⟨hstage, hnames⟩ : q.stage = p.stage ∧ q.dir.names = _ := by simpa using hsame
    have hstages : (x.done.map (·.stage)).Nodup := (List.nodup_append.mp (h.perm.nodup_iff.mpr hnodup)).2.1
    exact List.inj_on_of_nodup_map hstages hq hdone hstage ▸ hnames
  · exact fun hnames => ⟨p, hdone, by simp [hnames]⟩

/-- What is known of a scenario in an empty session when it is exhausted. -/
theorem exists_todo_of_exhausted (hp : s.persona.IsRead) {store store' : MemoryStore} {given : List String}
    {done : List StagePath} (hempty : ∀ file, file.startsWith s.root = true → store.fileExists file = false)
    (hrun : (drive s given [] : StateM MemoryStore _).run store = ((done, .ok .exhausted), store')) :
    ∃ todo, Accounted s given ⟨store', todo, done⟩ ∧ Settled s ⟨store', todo, done⟩ ∧
      next? s ⟨store', todo, done⟩ = none := by
  obtain ⟨hstart, hstartSettled⟩ := accounted_start hempty given
  obtain ⟨⟨last, todo, written⟩, ending, hsteps, hstops, houtcome⟩ := exists_stops hp ⟨store, given, []⟩
  rw [outcome, hrun] at houtcome
  obtain ⟨⟨rfl, rfl⟩, rfl⟩ : (done = written ∧ .ok .exhausted = ending) ∧ store' = last := by
    simpa [Prod.ext_iff] using houtcome
  obtain ⟨haccounted, hsettled⟩ := accounted_of_steps hp hstart hstartSettled hsteps
  cases hstops with
  | exhausted hnext => exact ⟨todo, haccounted, hsettled, hnext⟩

/-- Where a scenario is exhausted, an available stage that was given was done. -/
theorem exists_done {given : List String} (hperm : (x.todo ++ x.done.map (·.stage)).Perm given)
    (hnone : x.next? s = none) {id : String} (hgiven : id ∈ given)
    (havailable : id ∈ (Position.of s.persona.definition (s.lineageIn x.store)).availableIds) :
    ∃ p ∈ x.done, p.stage = id := by
  obtain ⟨stage, hstage, rfl⟩ := List.mem_map.mp havailable
  have hout : stage.id ∉ x.todo := by simpa using List.find?_eq_none.mp hnone stage hstage
  rcases List.mem_append.mp (hperm.mem_iff.mpr hgiven) with htodo | hdone
  · exact absurd htodo hout
  · exact List.mem_map.mp hdone

/-! ### Steps that are made -/

/-- Where every file holds an envelope, nothing keeps the next stage from being materialized. -/
theorem exists_answer (hp : s.persona.IsRead) (hlegible : s.Legible x.store) (hnext : x.next? s = some stage)
    (hsuits : s.Suits (x.content stage)) :
    ∃ m, x.store.answer (s.materialize stage.id (x.content stage)) = .ok m := by
  have haccepts := Session.accepts_of_mem_availableIds hp (hlegible.readable hp) (List.mem_map_of_mem (next?_mem hnext).1)
  exact haccepts _ hsuits.ne_null hsuits.size

/-- Where every file holds an envelope, the next stage is materialized in its place. -/
theorem exists_step (hp : s.persona.IsRead) (hlegible : s.Legible x.store) (hnext : x.next? s = some stage)
    (hrule : stage.completesWith ≠ .never) (hsuits : s.Suits (x.content stage)) :
    ∃ store, s.Legible store ∧
      Step s x ⟨store, x.todo.erase stage.id, x.done ++ [⟨stage.id, (s.lineageIn x.store).dir stage.id⟩]⟩ := by
  obtain ⟨m, hm⟩ := exists_answer hp hlegible hnext hsuits
  have hstep := Step.intro hnext hrule hm
  rw [advance, (Session.materialized_of_answer hp hm).path_eq] at hstep
  exact ⟨_, hlegible.after hp ⟨stage.id, x.content stage⟩ hsuits.exact hsuits.depth, hstep⟩

end DriveState

theorem suits_syntheticContent {s : Session} (stage : Stage) {step : Nat} (hstep : step < 2 ^ 64)
    (hsize : (syntheticContent stage step).canonicalText.utf8ByteSize ≤ s.options.maxPayload) :
    s.Suits (syntheticContent stage step) := by
  have hnumber : (Json.ofNat step).Exact := by
    simp only [Json.ofNat, Json.Exact, Json.numbers, List.forall_mem_singleton, Json.Number.Exact, Json.minInteger,
      Json.maxInteger]
    omega
  have hfields : ∀ f ∈ stage.produces.map fun key =>
      (key, Json.object [("stage", .string stage.id), ("step", .ofNat step)]), f.2.Exact ∧ f.2.depth ≤ 1 := by
    intro f hf
    obtain ⟨key, -, rfl⟩ := List.mem_map.mp hf
    have hstage : (Json.string stage.id).Exact := fun _ hn => absurd hn List.not_mem_nil
    exact ⟨Json.exact_object_iff.mpr (by simp [hstage, hnumber]), by simp [Json.depth, Json.fieldsDepth, Json.ofNat]⟩
  have hdepth : (syntheticContent stage step).depth ≤ 2 :=
    Nat.succ_le_succ (Json.fieldsDepth_le_iff.mpr fun f hf => (hfields f hf).2)
  exact ⟨by simp [syntheticContent], hsize, Json.exact_object_iff.mpr fun f hf => (hfields f hf).1,
    hdepth.trans (by decide)⟩

/-! ### Exhausted scenarios -/

/-- A stage was done, and then an optional stage above it was done and moved it away from its envelope. -/
def Displaced (s : Session) (store : MemoryStore) (done : List StagePath) (id : String) : Prop :=
  ∃ before p after, done = before ++ p :: after ∧ p.stage = id ∧
    p.dir.names ≠ ((s.lineageIn store).dir id).names ∧
    ∃ o ∈ after, o.stage ∈ s.persona.definition.ancestors id ∧ s.persona.definition.isOptional o.stage = true

/-- When a scenario in an empty session says that nothing is left, a stage that was not skipped and is completed by
    its own envelope can still be run exactly if its parents are satisfied and it was displaced after it was run. -/
theorem available_iff_displaced {s : Session} (hp : s.persona.IsRead) {store store' : MemoryStore}
    (hempty : ∀ file, file.startsWith s.root = true → store.fileExists file = false) (skips : List String)
    {done : List StagePath} (hrun : (drive s (s.persona.definition.ids.filter (!skips.contains ·)) [] :
      StateM MemoryStore _).run store = ((done, .ok .exhausted), store')) :
    ∃ position, store'.answer s.position = .ok position ∧
      ∀ declared ∈ s.persona.definition.stages, declared.completionTarget? = some declared.id → declared.id ∉ skips →
        (declared.id ∈ position.availableIds ↔
          (∀ p ∈ declared.parents, Position.isSatisfied s.persona.definition (s.lineageIn store') p = true) ∧
            Displaced s store' done declared.id) := by
  have hwf := hp.wellFormed
  obtain ⟨todo, haccounted, hsettled, hnone⟩ := DriveState.exists_todo_of_exhausted hp hempty hrun
  have hnodup : (s.persona.definition.ids.filter (!skips.contains ·)).Nodup := hwf.ids_nodup.filter _
  refine ⟨_, congrArg Prod.fst (Session.run_position hp store'), fun declared hdeclared htarget hskips => ?_⟩
  have hid : declared.id ∈ s.persona.definition.ids := Definition.mem_ids_iff.mpr ⟨declared, hdeclared, rfl⟩
  have hgiven : declared.id ∈ s.persona.definition.ids.filter (!skips.contains ·) := by simpa [hid] using hskips
  have hiff : declared.id ∈ (Position.of s.persona.definition (s.lineageIn store')).availableIds ↔
      s.persona.definition.Reachable declared.id ∧ (s.lineageIn store').isPresent declared.id = false ∧
        ∀ p ∈ declared.parents, Position.isSatisfied s.persona.definition (s.lineageIn store') p = true := by
    rw [Session.mem_availableIds_iff hp, Definition.parents_of_stage? (hwf.stage?_of_mem hdeclared),
      Session.incomplete_iff hp hdeclared, Stage.isComplete, htarget]
    rfl
  constructor
  · intro havailable
    obtain ⟨p, hdone, hstage⟩ := DriveState.exists_done haccounted.perm hnone hgiven havailable
    obtain ⟨-, habsent, hsatisfied⟩ := hiff.mp havailable
    obtain ⟨before, after, hsplit⟩ := List.append_of_mem hdone
    have hmoved : p.dir.names ≠ ((s.lineageIn store').dir p.stage).names := by
      rw [Ne, ← haccounted.isPresent_iff hp hnodup hdone, hstage, habsent]
      exact Bool.false_ne_true
    refine ⟨hsatisfied, before, p, after, hsplit, hstage, hstage ▸ hmoved, ?_⟩
    exact hstage ▸ (hsettled before p after hsplit).resolve_left hmoved
  · rintro ⟨hsatisfied, before, p, after, hsplit, hstage, hmoved, -⟩
    have hdone : p ∈ done := by simp [hsplit]
    refine hiff.mpr ⟨hstage ▸ (haccounted.done_mem p hdone).2.1, ?_, hsatisfied⟩
    rw [← hstage, ← Bool.not_eq_true, haccounted.isPresent_iff hp hnodup hdone, hstage]
    exact hmoved

/-! ### An optional stage that comes up late -/

def lateDone : List StagePath :=
  [⟨"x", ⟨[.stage "x"]⟩⟩, ⟨"a", ⟨[.stage "x", .stage "a"]⟩⟩, ⟨"o", ⟨[.stage "x", .stage "o"]⟩⟩]

theorem late_steps {s : Session} (hp : s.persona.IsRead) (hd : s.persona.definition = .late)
    (hroom : 32 ≤ s.options.maxPayload) :
    ∃ store, Relation.ReflTransGen (DriveState.Step s) ⟨.empty, ["x", "a", "o"], []⟩ ⟨store, [], lateDone⟩ := by
  have turn : ∀ {store : MemoryStore} {todo : List String} {done : List StagePath} (stage : Stage) (l : Lineage),
      DriveState.Accounted s ["x", "a", "o"] ⟨store, todo, done⟩ → s.Legible store → l.root = s.root →
      l.fits .late done = true → (Position.of .late l).available.find? (todo.contains ·.id) = some stage →
      stage.completesWith ≠ .never → done.length + 1 < 2 ^ 64 →
      (syntheticContent stage (done.length + 1)).canonicalText.utf8ByteSize ≤ 32 →
      ∃ store', s.Legible store' ∧ DriveState.Step s ⟨store, todo, done⟩
        ⟨store', todo.erase stage.id, done ++ [⟨stage.id, l.dir stage.id⟩]⟩ := by
    intro store todo done stage l haccounted hlegible hroot hfits hnext hrule hstep hsize
    obtain rfl : s.lineageIn store = l := (haccounted.holds hp).lineageIn_eq hp hroot (hd ▸ hfits)
    rw [← hd] at hnext
    exact DriveState.exists_step hp hlegible hnext hrule (suits_syntheticContent stage hstep (hsize.trans hroom))
  have hstart : DriveState.Accounted s ["x", "a", "o"] ⟨.empty, ["x", "a", "o"], []⟩ :=
    (DriveState.accounted_start (fun _ _ => rfl) _).1
  obtain ⟨σ, hlegible, hx⟩ : ∃ σ, s.Legible σ ∧
      DriveState.Step s ⟨.empty, ["x", "a", "o"], []⟩ ⟨σ, ["a", "o"], lateDone.take 1⟩ :=
    turn (.plain "x" [] false) (Lineage.late s.root []) hstart (fun _ _ _ h => nomatch h) rfl
      (by cbv) (by rw [Position.of, Definition.reachable_late]; rfl) (by decide) (by decide) (by decide)
  have hafter := hstart.step hp hx
  obtain ⟨τ, hlegible, ha⟩ : ∃ τ, s.Legible τ ∧
      DriveState.Step s ⟨σ, ["a", "o"], lateDone.take 1⟩ ⟨τ, ["o"], lateDone.take 2⟩ :=
    turn (.plain "a" ["x", "o"] false) (Lineage.late s.root ["x"]) hafter hlegible rfl
      (by cbv) (by rw [Position.of, Definition.reachable_late]; rfl) (by decide) (by decide) (by decide)
  have hafter := hafter.step hp ha
  obtain ⟨store, -, ho⟩ : ∃ store, s.Legible store ∧
      DriveState.Step s ⟨τ, ["o"], lateDone.take 2⟩ ⟨store, [], lateDone⟩ :=
    turn (.plain "o" ["x"] true) (Lineage.late s.root ["x", "a"]) hafter hlegible rfl
      (by cbv) (by rw [Position.of, Definition.reachable_late]; rfl) (by decide) (by decide) (by decide)
  exact ⟨store, ((Relation.ReflTransGen.single hx).tail ha).tail ho⟩

/-- A scenario that writes `x`, `a` and `o` and then finds nothing left, though `a` can be run again below `o`. -/
theorem displaced_late : ∃ (s : Session) (store : MemoryStore), s.persona.IsRead ∧ s.persona.definition = .late ∧
    (drive s (s.persona.definition.ids.filter (!List.contains [] ·)) [] : StateM MemoryStore _).run .empty =
      ((lateDone, .ok .exhausted), store) ∧
    ∃ position, store.answer s.position = .ok position ∧ "a" ∈ position.availableIds := by
  obtain ⟨s, hp, hd, hroom⟩ : ∃ s : Session, s.persona.IsRead ∧ s.persona.definition = .late ∧
      32 ≤ s.options.maxPayload := by
    obtain ⟨p, -, hp, hd⟩ := Persona.compile_eq_ok Manifest.ofDocument_late
    have hroom : 32 ≤ Payload.defaultLimit := by decide
    exact ⟨⟨p, {}, ⟨"r"⟩⟩, hp, hd, hroom⟩
  have hempty : ∀ file : Path, file.startsWith s.root = true → MemoryStore.empty.fileExists file = false :=
    fun _ _ => rfl
  have hids : s.persona.definition.ids.filter (!List.contains [] ·) = ["x", "a", "o"] := by
    rw [hd]
    decide
  obtain ⟨store, hsteps⟩ := late_steps hp hd hroom
  obtain ⟨hstart, hsettled⟩ := DriveState.accounted_start hempty ["x", "a", "o"]
  obtain ⟨haccounted, -⟩ := DriveState.accounted_of_steps hp hstart hsettled hsteps
  have hrun : (drive s (s.persona.definition.ids.filter (!List.contains [] ·)) [] : StateM MemoryStore _).run .empty =
      ((lateDone, .ok .exhausted), store) := by
    rw [hids]
    exact (DriveState.outcome_of_steps hp hsteps).trans
      (DriveState.outcome_of_stops hp (.exhausted (List.find?_eq_none.mpr fun _ _ => by simp)))
  obtain ⟨position, hposition, havailable⟩ := available_iff_displaced hp hempty [] hrun
  have hl : s.lineageIn store = Lineage.late s.root ["x", "o"] := (haccounted.holds hp).lineageIn_eq hp rfl (hd ▸ by cbv)
  have hdeclared : Stage.plain "a" ["x", "o"] false ∈ s.persona.definition.stages := by simp [hd, Definition.late]
  have habove : "o" ∈ Definition.late.ancestors "a" := by
    rw [show Definition.late.ancestors "a" = ["x", "o"] by cbv]
    decide
  have hnames : ((Lineage.late s.root ["x", "o"]).dir "a").names = ["x", "_join_o_x", "a"] := rfl
  have hmoved : ["x", "a"] ≠ ["x", "_join_o_x", "a"] := by decide
  refine ⟨s, store, hp, hd, hrun, position, hposition, (havailable _ hdeclared rfl List.not_mem_nil).mpr ⟨?_, ?_⟩⟩
  · rw [hl, hd]
    exact List.forall_mem_cons.mpr ⟨rfl, List.forall_mem_singleton.mpr rfl⟩
  · rw [Displaced, hl, hd]
    exact ⟨lateDone.take 1, ⟨"a", ⟨[.stage "x", .stage "a"]⟩⟩, lateDone.drop 2, rfl, rfl, hnames ▸ hmoved, _,
      List.mem_singleton_self _, habove, by decide⟩

end StageLineage.Cli
