import StageLineage.Proofs.Session.Frame

/-! Independent stages. A call neither moves nor changes anything that a stage reads which does not lie
    below its own stage, so two calls for stages neither of which lies above the other get the same answers
    in either order. They write two files, and the directories that they make are the same in the end,
    whichever of them comes first to a place where both go on. -/

namespace StageLineage

namespace Session
variable {s : Session} {store : MemoryStore} {stage id : String} {content content' : Json} {m n : Materialization}

/-- A call is answered as it was before a call for a stage that does not lie above. -/
theorem Materialized.answer_eq (hp : s.persona.IsRead) (h : s.Materialized store stage content m) (hne : id ≠ stage)
    (habove : ¬ s.persona.definition.Above stage id) (content' : Json) :
    (s.storeWith store m).answer (s.materialize id content') = store.answer (s.materialize id content') := by
  by_cases hid : id ∈ s.persona.definition.ids
  · have hread : ∀ p ∈ s.persona.definition.parents id, s.readIn (s.storeWith store m) p = s.readIn store p := by
      intro p hparent
      refine h.readIn_eq_of_not_above hp (hp.wellFormed.mem_of_parents hparent) ?_ fun hp => habove (hp.tail hparent)
      rintro rfl
      exact habove (.single hparent)
    have hkept : s.persona.definition.Above stage id →
        s.persona.definition.isOptional stage = false ∨ (s.lineageIn store).isPresent stage = true :=
      fun hid => absurd hid habove
    have hsame := materializedIn_congr hp (h.dir_eq_of_kept hp hid hkept) hread
    rw [h.isPresent_eq_of_kept hp hid hne hkept] at hsame
    rw [MemoryStore.answer, MemoryStore.answer, run_materialize hp _ hid, run_materialize hp _ hid,
      firstObstacle?_congr hread]
    cases Payload.ofValue s.options.maxPayload content' with
    | error cause => rfl
    | ok payload =>
      cases s.firstObstacle? store id with
      | some e => rfl
      | none => exact congrArg Except.ok (hsame payload)
  · rw [MemoryStore.answer, MemoryStore.answer, run_materialize_of_notMem s _ hid, run_materialize_of_notMem s _ hid]

theorem answer_after_eq (hp : s.persona.IsRead) (store : MemoryStore) (hne : id ≠ stage)
    (habove : ¬ s.persona.definition.Above stage id) (content content' : Json) :
    (store.after (s.materialize stage content)).answer (s.materialize id content') =
      store.answer (s.materialize id content') := by
  cases h : store.answer (s.materialize stage content) with
  | error e => rw [after_of_answer_error hp h]
  | ok m =>
    have hm := materialized_of_answer hp h
    rw [hm.after_eq, hm.answer_eq hp hne habove]

/-- The envelopes of two stages may be written in either order. -/
theorem Materialized.storeWith_comm (hp : s.persona.IsRead) (h : s.Materialized store stage content m)
    (h' : s.Materialized store id content' n) (hne : stage ≠ id) :
    s.storeWith (s.storeWith store m) n = s.storeWith (s.storeWith store n) m := by
  have hfiles : compare m.artifactPath n.artifactPath ≠ .eq := by
    rw [h.artifactPath_eq, h'.artifactPath_eq, Ne, compare_file_iff hp store store h.mem_ids h'.mem_ids]
    exact fun hsame => hne hsame.2
  have hdirectories := MemoryStore.directories_metaDir_comm store s.root (h.named_dir hp) (h'.named_dir hp)
  exact congrArg₂ MemoryStore.mk hdirectories (SortedMap.insert_comm _ hfiles _ _)

/-- Two calls for different stages, neither of which lies above the other, get in either order the answers
    that they get alone, and they lead to the same store. -/
theorem materialize_comm (hp : s.persona.IsRead) (store : MemoryStore) {a b : Call} (hne : a.stage ≠ b.stage)
    (hab : a.stage ∉ s.persona.definition.ancestors b.stage) (hba : b.stage ∉ s.persona.definition.ancestors a.stage) :
    (store.after (s.materialize b.stage b.content)).answer (s.materialize a.stage a.content) =
        store.answer (s.materialize a.stage a.content) ∧
      (store.after (s.materialize a.stage a.content)).answer (s.materialize b.stage b.content) =
        store.answer (s.materialize b.stage b.content) ∧
      (store.after (s.materialize a.stage a.content)).after (s.materialize b.stage b.content) =
        (store.after (s.materialize b.stage b.content)).after (s.materialize a.stage a.content) := by
  rw [hp.wellFormed.mem_ancestors_iff] at hab hba
  have ha := answer_after_eq hp store hne hba b.content a.content
  have hb := answer_after_eq hp store hne.symm hab a.content b.content
  refine ⟨ha, hb, ?_⟩
  cases hm : store.answer (s.materialize a.stage a.content) with
  | error e => rw [after_of_answer_error hp hm, after_of_answer_error hp (ha.trans hm)]
  | ok m =>
    cases hn : store.answer (s.materialize b.stage b.content) with
    | error e => rw [after_of_answer_error hp hn, after_of_answer_error hp (hb.trans hn)]
    | ok n =>
      have hm' := materialized_of_answer hp hm
      have hn' := materialized_of_answer hp hn
      rw [(materialized_of_answer hp (hb.trans hn)).after_eq, (materialized_of_answer hp (ha.trans hm)).after_eq,
        hm'.after_eq, hn'.after_eq, hm'.storeWith_comm hp hn' hne]

end Session

/-- A manifest in which the stages `l` and `r` lie side by side, and the stage `j` below both. -/
def Manifest.diamond : Json :=
  .object [("name", .string "Diamond"), ("persona", .string "diamond"),
    ("stages", .array [plainEntry "x" [] false, plainEntry "l" ["x"] true, plainEntry "r" ["x"] false,
      plainEntry "j" ["l", "r"] false])]

/-- The definition that `Manifest.diamond` describes. -/
def Definition.diamond : Definition where
  header := ⟨"Diamond", "diamond", "", none, "1.0.0", false, []⟩
  stages := [.plain "x" [] false, .plain "l" ["x"] true, .plain "r" ["x"] false, .plain "j" ["l", "r"] false]
  order := ["x", "l", "r", "j"]

theorem Manifest.ofDocument_diamond : ofDocument diamond = .ok .diamond := by cbv

/-- The two sides of the diamond, of which the optional one moves the stage below both. -/
theorem Session.comm_diamond : ∃ s : Session, s.persona.IsRead ∧ s.persona.definition = .diamond ∧
    ∀ (store : MemoryStore) (left right : Json),
      (store.after (s.materialize "r" right)).answer (s.materialize "l" left) = store.answer (s.materialize "l" left) ∧
        (store.after (s.materialize "l" left)).answer (s.materialize "r" right) =
          store.answer (s.materialize "r" right) ∧
        (store.after (s.materialize "l" left)).after (s.materialize "r" right) =
          (store.after (s.materialize "r" right)).after (s.materialize "l" left) := by
  obtain ⟨p, -, hp, hd⟩ := Persona.compile_eq_ok Manifest.ofDocument_diamond
  refine ⟨⟨p, {}, ⟨"r"⟩⟩, hp, hd, fun store left right => ?_⟩
  have hl : p.definition.ancestors "l" = ["x"] := by
    rw [hd]
    cbv
  have hr : p.definition.ancestors "r" = ["x"] := by
    rw [hd]
    cbv
  exact Session.materialize_comm (s := ⟨p, {}, ⟨"r"⟩⟩) hp store (a := ⟨"l", left⟩) (b := ⟨"r", right⟩) (by simp)
    (by simp [hr]) (by simp [hl])

end StageLineage
