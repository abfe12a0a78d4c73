import StageLineage.Proofs.Lineage.Chained
import StageLineage.Proofs.Session.ReadBack
import StageLineage.Proofs.Session.Stale

/-! Repairing a session in memory. The stale stages are materialized anew in the order in which they are reported,
    each with the content that it has. A stage that is materialized is chained to its parents as they are, and these
    are not written any more, as they come before it; so what is left of the report holds all that is stale, and in
    the end nothing is. No stage moves, for only present stages are written, and no content changes, so that all calls
    succeed if each would at first. -/

namespace StageLineage.Session

section Remake
variable {m : Type → Type} [Monad m] [SessionStore m]

/-- Materializes stages one after another, each with the content of its stored envelope. -/
def remake (s : Session) : List String → ExceptT SessionError m (List Materialization)
  | [] => return []
  | stage :: rest => do
    match ← s.readEnvelope stage with
    | none => s.remake rest
    | some e =>
      let x ← s.materialize stage e.content
      return x :: (← s.remake rest)

end Remake

variable {s : Session} {store store' store'' : MemoryStore} {stage id : String} {e : Envelope} {m : Materialization}
  {rest : List String}

/-! ### What stays -/

/-- All stages stand where they stood, the same ones are present, and each has the content that it had. -/
structure SameContents (s : Session) (store store' : MemoryStore) : Prop where
  lineage_eq : s.lineageIn store' = s.lineageIn store
  content_eq : ∀ id, (s.storedIn store' id).map (·.content) = (s.storedIn store id).map (·.content)

theorem SameContents.refl (s : Session) (store : MemoryStore) : s.SameContents store store := ⟨rfl, fun _ => rfl⟩

theorem SameContents.trans (h : s.SameContents store store') (h' : s.SameContents store' store'') :
    s.SameContents store store'' :=
  ⟨h'.lineage_eq.trans h.lineage_eq, fun id => (h'.content_eq id).trans (h.content_eq id)⟩

/-- Every present stage can be read, and no stored content holds a float. -/
structure Repairable (s : Session) (store : MemoryStore) : Prop where
  readable : s.Readable store
  floatFree : ∀ id e, s.readIn store id = .ok (some e) → e.content.FloatFree

theorem SameContents.exists_readIn (hp : s.persona.IsRead) (h : s.SameContents store store')
    (hread : s.readIn store id = .ok (some e)) : ∃ e', s.readIn store' id = .ok (some e') ∧ e'.content = e.content := by
  have hcontent := h.content_eq id
  rw [(storedIn_eq_some_iff hp).mpr hread, Option.map_some, Option.map_eq_some_iff] at hcontent
  obtain ⟨e', he', hsame⟩ := hcontent
  exact ⟨e', (storedIn_eq_some_iff hp).mp he', hsame⟩

theorem SameContents.symm (h : s.SameContents store store') : s.SameContents store' store :=
  ⟨h.lineage_eq.symm, fun id => (h.content_eq id).symm⟩

theorem SameContents.repairable (hp : s.persona.IsRead) (h : s.SameContents store store') (hstore : s.Repairable store) :
    s.Repairable store' where
  readable id hid hpresent := by
    obtain ⟨e, he⟩ := hstore.readable id hid (h.lineage_eq ▸ hpresent)
    obtain ⟨e', he', -⟩ := h.exists_readIn hp he
    exact ⟨e', he'⟩
  floatFree id e he := by
    obtain ⟨e', he', hcontent⟩ := h.symm.exists_readIn hp he
    exact hcontent ▸ hstore.floatFree id e' he'

/-! ### One stage -/

theorem readWithin_of_readIn (hp : s.persona.IsRead) (hread : s.readIn store id = .ok (some e)) :
    Json.ReadWithin Envelope.contentDepth e.content := by
  obtain ⟨-, bytes, -, he⟩ := Lineage.envelopes_eq_some_iff.mp ((storedIn_eq_some_iff hp).mpr hread)
  exact Envelope.readWithin_of_ofBytes? he

/-- A stage that is materialized with the content of its own envelope. -/
structure Remade (s : Session) (store : MemoryStore) (stage : String) (e : Envelope) (m : Materialization) : Prop
    extends s.Materialized store stage e.content m where
  read : s.readIn store stage = .ok (some e)
  floatFree : e.content.FloatFree

namespace Remade
variable (hp : s.persona.IsRead) (h : s.Remade store stage e m)
include hp h

theorem envelope_content : m.envelope.content = e.content :=
  h.content_eq.trans (readWithin_of_readIn hp h.read).canonical

theorem readIn_self : s.readIn (s.storeWith store m) stage = .ok (some m.envelope) := by
  have hwithin := readWithin_of_readIn hp h.read
  have hread := h.readIn_eq hp (hwithin.exact h.floatFree)
  rwa [hwithin.canonical, if_pos hwithin.depth, h.after_eq] at hread

theorem readIn_of_ne (hne : id ≠ stage) : s.readIn (s.storeWith store m) id = s.readIn store id := by
  by_cases hid : id ∈ s.persona.definition.ids
  · exact h.readIn_eq_of_kept hp hid hne fun _ => Or.inr (isPresent_of_readIn hp h.read)
  · rw [readIn_of_notMem s _ hid, readIn_of_notMem s _ hid]

theorem sameContents : s.SameContents store (s.storeWith store m) where
  lineage_eq := by
    have hpresent := isPresent_of_readIn hp h.read
    refine (realizes hp _).eq_of_forall hp.wellFormed (realizes hp store) fun id hid =>
      ⟨h.dir_eq_of_kept hp hid fun _ => Or.inr hpresent, ?_⟩
    by_cases hne : id = stage
    · rw [hne, h.isPresent_self hp, hpresent]
    · exact h.isPresent_eq_of_kept hp hid hne fun _ => Or.inr hpresent
  content_eq id := by
    by_cases hne : id = stage
    · rw [hne, (storedIn_eq_some_iff hp).mpr (h.readIn_self hp), (storedIn_eq_some_iff hp).mpr h.read,
        Option.map_some, Option.map_some, h.envelope_content hp]
    · rw [storedIn_congr hp (h.readIn_of_ne hp hne)]

/-- A stage that is materialized drops out of the stale ones, and no other stage joins them. -/
theorem holdsStale (hparents : ∀ p ∈ s.persona.definition.parents stage, p ∉ rest)
    (hstale : HoldsStale s.persona.definition (s.storedIn store) {q | q ∈ stage :: rest}) :
    HoldsStale s.persona.definition (s.storedIn (s.storeWith store m)) {q | q ∈ rest} := by
  rintro id ⟨e', he', hamiss⟩
  -- Its new envelope is sealed and chained to its parents, none of which is to be materialized after it.
  by_cases hne : id = stage
  · obtain rfl := hne
    obtain rfl := Option.some.inj (((storedIn_eq_some_iff hp).mpr (h.readIn_self hp)).symm.trans he')
    rcases hamiss with hverify | ⟨p, hparent, hrest | hchanged⟩
    · rw [h.verify] at hverify
      cases hverify
    · exact absurd hrest (hparents p hparent)
    · rw [map_storedIn hp] at hchanged
      exact absurd (h.get?_parents hp hparent) hchanged
  -- Any other envelope is the one it was, so it was reported already; of its parents only the stage has changed.
  · rw [storedIn_congr hp (h.readIn_of_ne hp hne)] at he'
    refine (List.mem_cons.mp (hstale id ⟨e', he', hamiss.imp_right ?_⟩)).resolve_left hne
    rintro ⟨p, hparent, hrest | hchanged⟩
    · exact ⟨p, hparent, Or.inl (List.mem_cons_of_mem _ hrest)⟩
    · refine ⟨p, hparent, ?_⟩
      by_cases hpstage : p = stage
      · exact Or.inl (hpstage ▸ List.mem_cons_self ..)
      · rw [storedIn_congr hp (h.readIn_of_ne hp hpstage)] at hchanged
        exact Or.inr hchanged

end Remade

/-! ### All stages of the report -/

theorem run_remake_cons (hp : s.persona.IsRead) (hread : s.readIn store stage = .ok (some e)) (rest : List String) :
    store.run (s.remake (stage :: rest)) =
      match store.run (s.materialize stage e.content) with
      | (.error cause, store') => (.error cause, store')
      | (.ok m, store') => ((store'.answer (s.remake rest)).map (m :: ·), store'.after (s.remake rest)) := by
  have hid := mem_ids_of_isPresent hp (isPresent_of_readIn hp hread)
  simp only [remake, MemoryStore.run_bind, run_readEnvelope hp store hid, run_readFrom hp store hid, hread]
  rcases store.run (s.materialize stage e.content) with ⟨_ | m, store'⟩
  · rfl
  · simp only [MemoryStore.answer, MemoryStore.after]
    rcases store'.run (s.remake rest) with ⟨_ | ms, store''⟩ <;> rfl

theorem run_of_answer (hp : s.persona.IsRead) {content : Json}
    (hm : store.answer (s.materialize stage content) = .ok m) :
    store.run (s.materialize stage content) = (.ok m, s.storeWith store m) :=
  Prod.ext hm (materialized_of_answer hp hm).after_eq

theorem answer_remake_cons_iff (hp : s.persona.IsRead) (hread : s.readIn store stage = .ok (some e))
    {ms : List Materialization} :
    store.answer (s.remake (stage :: rest)) = .ok ms ↔
      ∃ m, store.answer (s.materialize stage e.content) = .ok m ∧
        ∃ ms', (s.storeWith store m).answer (s.remake rest) = .ok ms' ∧ m :: ms' = ms := by
  rw [MemoryStore.answer, run_remake_cons hp hread]
  cases hanswer : store.answer (s.materialize stage e.content) with
  | error cause =>
    have hrun : store.run (s.materialize stage e.content) = (.error cause, store.after (s.materialize stage e.content)) :=
      Prod.ext hanswer rfl
    simp [hrun]
  | ok m =>
    simp only [run_of_answer hp hanswer, Except.ok.injEq, exists_eq_left']
    cases (s.storeWith store m).answer (s.remake rest) <;> simp [Except.map]

theorem after_remake_cons (hp : s.persona.IsRead) (hread : s.readIn store stage = .ok (some e))
    (hm : store.answer (s.materialize stage e.content) = .ok m) :
    store.after (s.remake (stage :: rest)) = (s.storeWith store m).after (s.remake rest) := by
  rw [MemoryStore.after, run_remake_cons hp hread, run_of_answer hp hm]

/-- Stages that hold all that is stale, none of them behind a child of it, are materialized anew: if all calls succeed,
    nothing is stale afterwards. -/
theorem sameContents_remake (hp : s.persona.IsRead) {stages : List String} (hstore : s.Repairable store)
    (hpresent : ∀ id ∈ stages, (s.lineageIn store).isPresent id = true)
    (hordered : stages.Pairwise fun id p => p ∉ s.persona.definition.parents id)
    (hstale : HoldsStale s.persona.definition (s.storedIn store) {q | q ∈ stages}) {ms : List Materialization}
    (hanswer : store.answer (s.remake stages) = .ok ms) :
    s.SameContents store (store.after (s.remake stages)) ∧ ms.map (·.path.stage) = stages ∧
      HoldsStale s.persona.definition (s.storedIn (store.after (s.remake stages))) ∅ := by
  induction stages generalizing store ms with
  | nil =>
    obtain rfl : [] = ms := Except.ok.inj hanswer
    exact ⟨.refl s store, rfl, fun id h => absurd (hstale id (h.mono (Set.empty_subset _))) List.not_mem_nil⟩
  | cons stage rest ih =>
    obtain ⟨hparents, hordered⟩ := List.pairwise_cons.mp hordered
    obtain ⟨hstage, hrest⟩ := List.forall_mem_cons.mp hpresent
    obtain ⟨e, hread⟩ := hstore.readable stage (mem_ids_of_isPresent hp hstage) hstage
    obtain ⟨m, hm, ms', hms', rfl⟩ := (answer_remake_cons_iff hp hread).mp hanswer
    have hremade : s.Remade store stage e m := ⟨materialized_of_answer hp hm, hread, hstore.floatFree stage e hread⟩
    have hsame := hremade.sameContents hp
    obtain ⟨hkept, hstages, hnone⟩ := ih (hsame.repairable hp hstore) (fun id hid => hsame.lineage_eq ▸ hrest id hid)
      hordered (hremade.holdsStale hp (fun p hparent hmem => hparents p hmem hparent) hstale) hms'
    rw [after_remake_cons hp hread hm]
    exact ⟨hsame.trans hkept, by rw [List.map_cons, hstages, hremade.path_eq], hnone⟩

/-- A stage whose content is accepted and that lacks no parent. -/
def CanRemake (s : Session) (store : MemoryStore) (id : String) : Prop :=
  ∃ e, s.readIn store id = .ok (some e) ∧ (∃ payload, Payload.ofValue s.options.maxPayload e.content = .ok payload) ∧
    ∀ p ∈ s.persona.definition.parents id, Position.isSatisfied s.persona.definition (s.lineageIn store) p = true

theorem SameContents.canRemake (hp : s.persona.IsRead) (h : s.SameContents store store')
    (hid : s.CanRemake store id) : s.CanRemake store' id := by
  obtain ⟨e, hread, haccepted, hparents⟩ := hid
  obtain ⟨e', hread', hcontent⟩ := h.exists_readIn hp hread
  exact ⟨e', hread', hcontent ▸ haccepted, h.lineage_eq ▸ hparents⟩

theorem canRemake_iff (hp : s.persona.IsRead) (hstore : s.Repairable store)
    (hread : s.readIn store id = .ok (some e)) :
    s.CanRemake store id ↔ ∃ m, store.answer (s.materialize id e.content) = .ok m := by
  have hid := mem_ids_of_isPresent hp (isPresent_of_readIn hp hread)
  have hobstacles : (∀ p ∈ s.persona.definition.parents id, s.obstacle? store id p = none) ↔
      ∀ p ∈ s.persona.definition.parents id, Position.isSatisfied s.persona.definition (s.lineageIn store) p = true :=
    forall₂_congr fun p hparent => by
      rw [obstacle?_eq hp hstore.readable id (hp.wellFormed.mem_of_parents hparent)]
      simp
  rw [exists_answer_iff hp store hid, hobstacles]
  constructor
  · rintro ⟨e', hread', h⟩
    obtain rfl := Option.some.inj (Except.ok.inj (hread.symm.trans hread'))
    exact h
  · exact fun h => ⟨e, hread, h⟩

/-- As no content changes and no stage moves, all calls succeed exactly if each would at first. -/
theorem exists_answer_remake_iff (hp : s.persona.IsRead) {stages : List String} (hstore : s.Repairable store)
    (hpresent : ∀ id ∈ stages, (s.lineageIn store).isPresent id = true) :
    (∃ ms, store.answer (s.remake stages) = .ok ms) ↔ ∀ id ∈ stages, s.CanRemake store id := by
  induction stages generalizing store with
  | nil => exact ⟨fun _ _ hid => absurd hid List.not_mem_nil, fun _ => ⟨[], rfl⟩⟩
  | cons stage rest ih =>
    obtain ⟨hstage, hrest⟩ := List.forall_mem_cons.mp hpresent
    obtain ⟨e, hread⟩ := hstore.readable stage (mem_ids_of_isPresent hp hstage) hstage
    have hstep : ∀ m, store.answer (s.materialize stage e.content) = .ok m →
        s.SameContents store (s.storeWith store m) := fun m hm =>
      Remade.sameContents hp ⟨materialized_of_answer hp hm, hread, hstore.floatFree stage e hread⟩
    have ih := fun m hm => ih ((hstep m hm).repairable hp hstore) fun id hid => (hstep m hm).lineage_eq ▸ hrest id hid
    rw [List.forall_mem_cons]
    constructor
    · rintro ⟨ms, hms⟩
      obtain ⟨m, hm, ms', hms', -⟩ := (answer_remake_cons_iff hp hread).mp hms
      exact ⟨(canRemake_iff hp hstore hread).mpr ⟨m, hm⟩, fun id hid =>
        (hstep m hm).symm.canRemake hp ((ih m hm).mp ⟨ms', hms'⟩ id hid)⟩
    · rintro ⟨hfirst, hothers⟩
      obtain ⟨m, hm⟩ := (canRemake_iff hp hstore hread).mp hfirst
      obtain ⟨ms', hms'⟩ := (ih m hm).mpr fun id hid => (hstep m hm).canRemake hp (hothers id hid)
      exact ⟨m :: ms', (answer_remake_cons_iff hp hread).mpr ⟨m, hm, ms', hms', rfl⟩⟩

/-- What the repair of a session comes to: nothing is stale, every stage stands where it stood, the same stages are
    present, and each has the content that it had. -/
structure Repaired (s : Session) (store store' : MemoryStore) : Prop where
  stale_eq : store'.answer s.stale = .ok []
  lineage_eq : store'.answer s.lineage = store.answer s.lineage
  content_eq : ∀ id e, store.answer (s.readEnvelope id) = .ok (some e) →
    ∃ e', store'.answer (s.readEnvelope id) = .ok (some e') ∧ e'.content = e.content

/-- If the stale stages are materialized anew in the order of the report, each with its own content, and all these
    calls succeed, the session is repaired. -/
theorem repaired_remake (hp : s.persona.IsRead) (h : s.Repairable store) :
    ∃ stale, store.answer s.stale = .ok stale ∧ ∀ ms, store.answer (s.remake (stale.map (·.stage))) = .ok ms →
      ms.map (·.path.stage) = stale.map (·.stage) ∧
        s.Repaired store (store.after (s.remake (stale.map (·.stage)))) := by
  obtain ⟨stale, hstale, hreport⟩ := run_stale_report hp h.readable
  refine ⟨stale, congrArg Prod.fst hstale, fun ms hanswer => ?_⟩
  have hordered := (hp.wellFormed.order_pairwise.filter _).sublist hreport.sublist
  have hpresent : ∀ id ∈ stale.map (·.stage), (s.lineageIn store).isPresent id = true := fun _ hid =>
    hreport.present_of_mem hid
  obtain ⟨hsame, hstages, hnone⟩ := sameContents_remake hp h hpresent hordered hreport.isLeast.1 hanswer
  obtain ⟨stale', hstale', hreport'⟩ := run_stale_report hp (hsame.repairable hp h).readable
  obtain rfl : stale' = [] := hreport'.eq_nil_iff.mpr fun id hid => hnone id hid
  refine ⟨hstages, congrArg Prod.fst hstale', ?_, fun id e he => hsame.exists_readIn hp he⟩
  rw [MemoryStore.answer, MemoryStore.answer, (run_lineage hp _).1, (run_lineage hp store).1, hsame.lineage_eq]

/-! ### A parent that appears -/

theorem mem_ids_detached (hid : id ∈ Definition.detached.ids) : id = "o" ∨ id = "s" := by
  simpa [Definition.ids, Definition.detached, Stage.plain] using hid

section Detached
variable (hp : s.persona.IsRead) (hd : s.persona.definition = .detached) (hroom : 4 ≤ s.options.maxPayload)
include hp hd hroom

theorem exists_answer_detached (hread : s.Readable store) (hid : id ∈ s.persona.definition.ids) :
    ∃ m, store.answer (s.materialize id (.bool true)) = .ok m := by
  have hsmall : (Json.bool true).canonicalText.utf8ByteSize ≤ 4 := by decide
  have hoptional : ∀ id ∈ Definition.detached.ids, ∀ p ∈ Definition.detached.parents id,
      Definition.detached.isOptional p = true := by decide
  refine (exists_answer_iff hp store hid _).mpr
    ⟨Envelope.exists_ofValue (by simp) (hsmall.trans hroom), fun p hparent => ?_⟩
  rw [obstacle?_eq hp hread id (hp.wellFormed.mem_of_parents hparent), if_pos]
  rw [hd] at hid hparent
  rw [hd]
  exact Bool.or_eq_true_iff.mpr (Or.inr (hoptional id hid p hparent))

/-- If `s` is materialized and then its optional parent `o`, the first envelope is chained to no `o`. -/
theorem exists_late_parent (hroot : s.root = ⟨"r"⟩) : ∃ (store : MemoryStore) (e e' : Envelope),
    s.readIn store "s" = .ok (some e) ∧ s.readIn store "o" = .ok (some e') ∧ e.content = .bool true ∧
      e'.content = .bool true ∧ e.parents.get? "o" = none := by
  have hs : "s" ∈ s.persona.definition.ids := hd ▸ by decide
  have ho : "o" ∈ s.persona.definition.ids := hd ▸ by decide
  have hparent : "o" ∈ s.persona.definition.parents "s" := hd ▸ by decide
  have hexact : (Json.bool true).Exact := by decide
  have habsent : ∀ id ∈ s.persona.definition.ids, (s.lineageIn .empty).isPresent id = false := fun id hid =>
    isPresent_eq hp .empty hid
  have hreadable : s.Readable .empty := fun id hid hpresent => by
    rw [habsent id hid] at hpresent
    cases hpresent
  obtain ⟨m, hanswer⟩ := exists_answer_detached hp hd hroom hreadable hs
  have hm := materialized_of_answer hp hanswer
  have hread : s.readIn (s.storeWith .empty m) "s" = .ok (some m.envelope) := hm.after_eq ▸ hm.readIn_eq hp hexact
  have hnone : s.readIn (s.storeWith .empty m) "o" = .ok none := by
    rw [hm.readIn_parent_eq hp hparent, readIn_eq_none_iff hp _ ho, habsent "o" ho]
  have hreadable' : s.Readable (s.storeWith .empty m) := fun id hid hpresent => by
    rcases mem_ids_detached (hd ▸ hid) with rfl | rfl
    · rw [(readIn_eq_none_iff hp _ ho).mp hnone] at hpresent
      cases hpresent
    · exact ⟨_, hread⟩
  obtain ⟨m', hanswer'⟩ := exists_answer_detached hp hd hroom hreadable' ho
  have hm' := materialized_of_answer hp hanswer'
  have hdir : ∀ store, (s.lineageIn store).dir "s" = ⟨[.stage "o", .stage "s"]⟩ := fun store => by
    have hl := realizes hp store
    rw [hd, hroot] at hl
    rw [Lineage.dir, hl.path?_detached.1]
    rfl
  refine ⟨s.storeWith (s.storeWith .empty m) m', m.envelope, m'.envelope, ?_, ?_, hm.content_eq, hm'.content_eq, ?_⟩
  · rw [hm'.readIn_eq_of_dir_eq hp hs (by decide) ((hdir _).trans (hdir _).symm), hread]
  · exact hm'.after_eq ▸ hm'.readIn_eq hp hexact
  · rw [hm.get?_parents hp hparent, fingerprintIn?, hnone]

end Detached

/-- The stage `s` is stale as its parent appeared after it, and it is repaired. -/
theorem repaired_detached : ∃ (s : Session) (store : MemoryStore) (stale : List StaleStage) (ms : List Materialization),
    s.persona.IsRead ∧ s.persona.definition = .detached ∧ s.Repairable store ∧ store.answer s.stale = .ok stale ∧
      "s" ∈ stale.map (·.stage) ∧ store.answer (s.remake (stale.map (·.stage))) = .ok ms ∧
      ms.map (·.path.stage) = stale.map (·.stage) ∧
      s.Repaired store (store.after (s.remake (stale.map (·.stage)))) := by
  obtain ⟨p, -, hp, hd⟩ := Persona.compile_eq_ok Manifest.ofDocument_detached
  have hroom : 4 ≤ Payload.defaultLimit := by decide
  obtain ⟨s, hp, hd, hroot, hroom⟩ : ∃ s : Session, s.persona.IsRead ∧ s.persona.definition = .detached ∧
      s.root = ⟨"r"⟩ ∧ 4 ≤ s.options.maxPayload := ⟨⟨p, {}, ⟨"r"⟩⟩, hp, hd, rfl, hroom⟩
  obtain ⟨store, e, e', hs, ho, hcontent, hcontent', hnone⟩ := exists_late_parent hp hd hroom hroot
  have hread : ∀ id ∈ s.persona.definition.ids, ∃ e, s.readIn store id = .ok (some e) ∧ e.content = .bool true := by
    intro id hid
    rcases mem_ids_detached (hd ▸ hid) with rfl | rfl
    · exact ⟨e', ho, hcontent'⟩
    · exact ⟨e, hs, hcontent⟩
  have hfree : (Json.bool true).FloatFree := by decide
  have hstore : s.Repairable store := by
    refine ⟨fun id hid _ => (hread id hid).imp fun _ h => h.1, fun id e he => ?_⟩
    obtain ⟨e', he', htrue⟩ := hread id (mem_ids_of_isPresent hp (isPresent_of_readIn hp he))
    obtain rfl := Option.some.inj (Except.ok.inj (he.symm.trans he'))
    exact htrue ▸ hfree
  obtain ⟨stale, hstale, h⟩ := repaired_remake hp hstore
  obtain ⟨stale', hstale', hreport⟩ := run_stale_report hp hstore.readable
  obtain rfl : stale = stale' := Except.ok.inj (hstale.symm.trans (congrArg Prod.fst hstale'))
  have hmem : "s" ∈ stale.map (·.stage) := by
    refine hreport.isLeast.1 "s" ⟨e, (storedIn_eq_some_iff hp).mpr hs, Or.inr ⟨"o", hd ▸ by decide, Or.inr ?_⟩⟩
    rw [hnone, (storedIn_eq_some_iff hp).mpr ho]
    simp
  have hpresent : ∀ id ∈ stale.map (·.stage), (s.lineageIn store).isPresent id = true := fun _ hid =>
    hreport.present_of_mem hid
  obtain ⟨ms, hms⟩ := (exists_answer_remake_iff hp hstore hpresent).mpr fun id hid => by
    obtain ⟨e, he, htrue⟩ := hread id (mem_ids_of_isPresent hp (hpresent id hid))
    refine (canRemake_iff hp hstore he).mpr ?_
    rw [htrue]
    exact exists_answer_detached hp hd hroom hstore.readable (mem_ids_of_isPresent hp (hpresent id hid))
  obtain ⟨hstages, hrepaired⟩ := h ms hms
  exact ⟨s, store, stale, ms, hp, hd, hstore, hstale, hmem, hms, hstages, hrepaired⟩

end StageLineage.Session
