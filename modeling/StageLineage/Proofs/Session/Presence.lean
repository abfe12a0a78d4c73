import StageLineage.Proofs.Session.History

/-! Presence of mandatory parents. A stage was materialized only with its mandatory parents, but one of
    them may move away later, when an optional stage above it appears. A stage below a single parent moves
    along with it; a stage below a join may stay where it is. -/

namespace StageLineage

namespace Lineage
variable {d : Definition} {l : Lineage}

theorem names_place_of_singleton {id p : String} (h : l.effective d id = [p]) :
    (l.place d id).names = (l.dir p).names ++ [id] := by
  rw [place, h, LineagePath.names_child]
  rfl

theorem effective_eq_singleton {id p : String} (hp : p ∈ d.parents id) (hmandatory : d.isOptional p = false)
    (h : (l.effective d id).length ≤ 1) : l.effective d id = [p] := by
  obtain ⟨q, hq⟩ := List.length_eq_one_iff.mp
    (Nat.le_antisymm h (List.length_pos_of_mem (mem_effective_of_mandatory (l := l) hp hmandatory)))
  have hmem : p ∈ l.effective d id := mem_effective_of_mandatory hp hmandatory
  rw [hq] at hmem ⊢
  rw [List.mem_singleton.mp hmem]

/-- A stage that two or more parents take part in stands below their join. -/
theorem names_place_of_join {id : String} (h : 1 < (l.effective d id).length) :
    ∃ base ids, (l.place d id).names = base ++ [(Segment.join ids).dirName, id] ∧
      ∀ p ∈ l.effective d id, p ∈ ids := by
  have hnodup := effective_nodup (d := d) l id
  match heffective : l.effective d id, h with
  | [], h => simp at h
  | [_], h => simp at h
  | p :: q :: rest, _ =>
    rw [heffective] at hnodup
    have hperm := Segment.sortedIds_perm hnodup
    let base := ((q :: rest).map fun p => (p, l.dir p)).foldl (fun common p => common.common p.2) (l.dir p)
    have hplace : l.place d id = (base.child (.join (Segment.sortedIds (p :: q :: rest)))).child (.stage id) := by
      rw [place, heffective]
      simp [Topology.above, base, Function.comp_def]
    refine ⟨base.names, Segment.sortedIds (p :: q :: rest), ?_, fun x hx => hperm.mem_iff.mpr hx⟩
    rw [hplace, LineagePath.names_child, LineagePath.names_child, List.append_assoc]
    rfl

end Lineage

namespace Session
variable {s : Session} {store : MemoryStore}

/-- A stage that stands where it stood is still present, as long as files stay where they are. -/
theorem isPresent_of_names_eq (hp : s.persona.IsRead) {store' : MemoryStore} {id : String}
    (hid : id ∈ s.persona.definition.ids) (hkept : ∀ p, store.fileExists p = true → store'.fileExists p = true)
    (hnames : ((s.lineageIn store').dir id).names = ((s.lineageIn store).dir id).names)
    (h : (s.lineageIn store).isPresent id = true) : (s.lineageIn store').isPresent id = true := by
  have hname := hp.wellFormed.isName hid
  have hfile : (s.lineageIn store').file id = (s.lineageIn store).file id := by
    rw [file_eq hp, file_eq hp, StagePath.join_artifactPath s.root (named_dir hp _ hid) hname,
      StagePath.join_artifactPath s.root (named_dir hp _ hid) hname, hnames]
    rfl
  rw [isPresent_eq hp _ hid] at h ⊢
  rw [hfile]
  exact hkept _ h

/-- As long as files stay where they are, a present stage is absent later only if an optional stage above it
    has appeared. -/
theorem isPresent_or_exists_appeared (hp : s.persona.IsRead) {store' : MemoryStore} {id : String}
    (hid : id ∈ s.persona.definition.ids) (hkept : ∀ p, store.fileExists p = true → store'.fileExists p = true)
    (h : (s.lineageIn store).isPresent id = true) :
    (s.lineageIn store').isPresent id = true ∨
      ∃ o, s.persona.definition.Above o id ∧ s.persona.definition.isOptional o = true ∧
        (s.lineageIn store).isPresent o = false ∧ (s.lineageIn store').isPresent o = true := by
  have hwf := hp.wellFormed
  rcases (realizes hp store').dir_eq_or_exists hwf (realizes hp store) id hid with
    hdir | ⟨o, habove, hoptional, hdir, hchanged⟩
  · exact Or.inl (isPresent_of_names_eq hp hid hkept (by rw [hdir]) h)
  · refine Or.inr ⟨o, habove, hoptional, ?_⟩
    cases hbefore : (s.lineageIn store).isPresent o with
    | true =>
      -- It stands where it stood, so it cannot have vanished.
      have hlater := isPresent_of_names_eq hp (hwf.mem_of_above habove) hkept (by rw [hdir]) hbefore
      exact absurd (hlater.trans hbefore.symm) hchanged
    | false =>
      rw [hbefore] at hchanged
      exact ⟨rfl, by simpa using hchanged⟩

/-- If all that stands between a mandatory parent and its child is at most one parent that takes part, the
    parent stands where its child does. -/
theorem names_parent_of_not_join (hp : s.persona.IsRead) {store' : MemoryStore} {id p : String}
    (hparent : p ∈ s.persona.definition.parents id) (hmandatory : s.persona.definition.isOptional p = false)
    (hsingle : ((s.lineageIn store').effective s.persona.definition id).length ≤ 1)
    (hnames : ((s.lineageIn store').dir id).names = ((s.lineageIn store).dir id).names) :
    ((s.lineageIn store').dir p).names = ((s.lineageIn store).dir p).names := by
  have hpid : p ∈ s.persona.definition.ids := hp.wellFormed.mem_of_parents hparent
  have hid : id ∈ s.persona.definition.ids := Definition.mem_ids_of_parents hparent
  rw [dir_eq_place hp store' hid, dir_eq_place hp store hid,
    Lineage.names_place_of_singleton (Lineage.effective_eq_singleton hparent hmandatory hsingle)] at hnames
  rcases Nat.lt_or_ge 1 ((s.lineageIn store).effective s.persona.definition id).length with hjoin | hsingle
  · -- The join is named after the parent among others, so it cannot be the directory of the parent.
    obtain ⟨base, ids, hbase, hmem⟩ := Lineage.names_place_of_join hjoin
    have hassoc : base ++ [(Segment.join ids).dirName, id] = (base ++ [(Segment.join ids).dirName]) ++ [id] := by simp
    rw [hbase, hassoc] at hnames
    have hparentNames := List.append_cancel_right hnames
    rw [dir_eq_place hp store' hpid, Lineage.place, LineagePath.names_child] at hparentNames
    have hlast := (List.append_inj' hparentNames rfl).2
    have hp_mem := hmem p (Lineage.mem_effective_of_mandatory hparent hmandatory)
    exact absurd (List.singleton_inj.mp hlast).symm (Segment.dirName_join_ne hp_mem)
  · rw [Lineage.names_place_of_singleton (Lineage.effective_eq_singleton hparent hmandatory hsingle)] at hnames
    exact List.append_cancel_right hnames

theorem Materialized.isPresent_parent (hp : s.persona.IsRead) {stage : String} {content : Json} {m : Materialization}
    (h : s.Materialized store stage content m) {p : String} (hparent : p ∈ s.persona.definition.parents stage)
    (hmandatory : s.persona.definition.isOptional p = false) : (s.lineageIn store).isPresent p = true := by
  have hobstacle := h.obstacle? p hparent
  rw [← Bool.not_eq_false, ← readIn_eq_none_iff hp _ (hp.wellFormed.mem_of_parents hparent)]
  intro hnone
  simp [Session.obstacle?, hnone, hmandatory] at hobstacle

/-- A mandatory parent of a present stage is present itself, or it has moved: then the stage stands below a
    join, it was last materialized while the parent was present, and since then an optional ancestor of the
    parent was materialized for the first time. -/
theorem isPresent_parent_or_moved (hp : s.persona.IsRead) (calls : List Call) {id p : String}
    (hpresent : (s.lineageIn (s.history .empty calls)).isPresent id = true)
    (hparent : p ∈ s.persona.definition.parents id) (hmandatory : s.persona.definition.isOptional p = false) :
    (s.lineageIn (s.history .empty calls)).isPresent p = true ∨
      1 < ((s.lineageIn (s.history .empty calls)).effective s.persona.definition id).length ∧
      ∃ before c after m, s.Origin calls id before c after m ∧
        (s.lineageIn (s.history .empty before)).isPresent p = true ∧
        ∃ o ∈ s.persona.definition.ancestors p, s.persona.definition.isOptional o = true ∧
          (s.lineageIn (s.history .empty before)).isPresent o = false ∧
          (s.lineageIn (s.history .empty calls)).isPresent o = true := by
  have hwf := hp.wellFormed
  have hpid : p ∈ s.persona.definition.ids := hwf.mem_of_parents hparent
  obtain ⟨before, c, after, m, horigin⟩ := exists_origin hp hpresent
  have hkept : ∀ q, (s.history .empty before).fileExists q = true → (s.history .empty calls).fileExists q = true := by
    intro q hq
    rw [horigin.calls_eq, history_append]
    exact fileExists_history hp (c :: after) hq
  have hbefore : (s.lineageIn (s.history .empty before)).isPresent p = true :=
    (materialized_of_answer hp horigin.answer_eq).isPresent_parent hp (horigin.stage_eq ▸ hparent) hmandatory
  rcases Nat.lt_or_ge 1 ((s.lineageIn (s.history .empty calls)).effective s.persona.definition id).length with
    hjoin | hsingle
  · refine (isPresent_or_exists_appeared hp hpid hkept hbefore).imp_right ?_
    rintro ⟨o, habove, hoptional, happeared⟩
    exact ⟨hjoin, before, c, after, m, horigin, hbefore, o, hwf.mem_ancestors_iff.mpr habove, hoptional, happeared⟩
  · have hnames := names_parent_of_not_join hp hparent hmandatory hsingle horigin.names_eq
    exact Or.inl (isPresent_of_names_eq hp hpid hkept hnames hbefore)

/-! ### A parent that moved -/

/-- The envelope files of a store are those of some stage paths. -/
def Holds (s : Session) (store : MemoryStore) (written : List StagePath) : Prop :=
  ∀ id ∈ s.persona.definition.ids, ∀ dir : LineagePath, dir.Named →
    store.fileExists (s.root.join (StagePath.mk id dir).artifactPath) =
      written.any fun p => p.stage == id && p.dir.names == dir.names

/-- Every call of a history succeeds. -/
def Succeeds (s : Session) (calls : List Call) : Prop :=
  ∀ before c after, calls = before ++ c :: after →
    ∃ m, (s.history .empty before).answer (s.materialize c.stage c.content) = .ok m

theorem Succeeds.materialized (hp : s.persona.IsRead) {calls : List Call} (h : s.Succeeds calls) (before : List Call)
    (c : Call) {after : List Call} (heq : calls = before ++ c :: after) :
    ∃ m, s.Materialized (s.history .empty before) c.stage c.content m ∧
      s.history .empty (before ++ [c]) = s.storeWith (s.history .empty before) m := by
  obtain ⟨m, hanswer⟩ := h before c after heq
  have hm := materialized_of_answer hp hanswer
  exact ⟨m, hm, by rw [history_concat, hm.after_eq]⟩

theorem Succeeds.concat {calls : List Call} {c : Call} (h : s.Succeeds calls)
    (hc : ∃ m, (s.history .empty calls).answer (s.materialize c.stage c.content) = .ok m) :
    s.Succeeds (calls ++ [c]) := by
  intro before c' after heq
  rcases split_of_concat heq with ⟨rfl, rfl, -⟩ | ⟨rest, -, hcalls⟩
  · exact hc
  · exact h before c' rest hcalls

theorem holds_empty (s : Session) : s.Holds .empty [] := fun _ _ _ _ => rfl

/-- A lineage that fits the files of a store is the one of the session. -/
theorem Holds.lineageIn_eq (hp : s.persona.IsRead) {written : List StagePath} (h : s.Holds store written)
    {l : Lineage} (hroot : l.root = s.root) (hfits : l.fits s.persona.definition written = true) :
    s.lineageIn store = l := by
  have hl := Lineage.realizes_of_fits (f := store.fileExists) hp.wellFormed hfits (by rw [hroot]; exact h)
  exact (realizes hp store).eq hp.wellFormed (hroot ▸ hl)

/-- Materializing a stage adds its file and no other. -/
theorem Holds.after (hp : s.persona.IsRead) {written : List StagePath} (h : s.Holds store written) {stage : String}
    {content : Json} {m : Materialization} (hm : s.Materialized store stage content m) :
    s.Holds (store.after (s.materialize stage content)) (⟨stage, (s.lineageIn store).dir stage⟩ :: written) := by
  obtain ⟨payload, -, rfl⟩ := hm.ofValue
  intro id hid dir hdir
  have hcompare : (compare (s.root.join (StagePath.mk id dir).artifactPath) ((s.lineageIn store).file stage) == .eq) =
      (stage == id && ((s.lineageIn store).dir stage).names == dir.names) := by
    rw [file_eq hp, Bool.eq_iff_iff, beq_iff_eq, StagePath.compare_artifactPath_iff s.root hdir
      (hp.wellFormed.isName hid) (named_dir hp store hm.mem_ids) (hp.wellFormed.isName hm.mem_ids), Bool.and_eq_true,
      beq_iff_eq, beq_iff_eq, and_comm, eq_comm, eq_comm (b := dir.names)]
  have hold : store.files.contains (s.root.join (StagePath.mk id dir).artifactPath) =
      written.any fun p => p.stage == id && p.dir.names == dir.names := h id hid dir hdir
  rw [hm.after_eq, MemoryStore.fileExists, storeWith, SortedMap.contains_insert, materializedIn, hcompare, hold,
    List.any_cons]

/-- A stage whose parents are satisfied in the lineage that fits is materialized, where that lineage says. -/
theorem Holds.concat (hp : s.persona.IsRead) {calls : List Call} {written : List StagePath}
    (hcalls : ∀ c ∈ calls, c.content.Exact ∧ c.content.depth ≤ Envelope.contentDepth) (hsucceeds : s.Succeeds calls)
    (h : s.Holds (s.history .empty calls) written) {l : Lineage} (hroot : l.root = s.root)
    (hfits : l.fits s.persona.definition written = true) {c : Call} (hid : c.stage ∈ s.persona.definition.ids)
    (hparents : ∀ p ∈ s.persona.definition.parents c.stage,
      (l.isPresent p || s.persona.definition.isOptional p) = true)
    (hne : c.content ≠ .null) (hsize : c.content.canonicalText.utf8ByteSize ≤ s.options.maxPayload) :
    s.Succeeds (calls ++ [c]) ∧ s.Holds (s.history .empty (calls ++ [c])) (⟨c.stage, l.dir c.stage⟩ :: written) := by
  have hl := h.lineageIn_eq hp hroot hfits
  have hobstacles : ∀ p ∈ s.persona.definition.parents c.stage,
      s.obstacle? (s.history .empty calls) c.stage p = none := by
    intro p hparent
    have hpid := hp.wellFormed.mem_of_parents hparent
    have hsatisfied : Position.isSatisfied s.persona.definition (s.lineageIn (s.history .empty calls)) p = true :=
      hl ▸ hparents p hparent
    rw [obstacle?_eq hp (readable_history hp hcalls) c.stage hpid, if_pos hsatisfied]
  obtain ⟨m, hm⟩ := (exists_answer_iff hp (s.history .empty calls) hid c.content).mpr
    ⟨Envelope.exists_ofValue hne hsize, hobstacles⟩
  refine ⟨hsucceeds.concat ⟨m, hm⟩, ?_⟩
  rw [history_concat, ← hl]
  exact h.after hp (materialized_of_answer hp hm)

/-- The lineage of the manifest with the fork as long as `o` is absent. -/
def unforkedLineage (root : Path) (present : List String) : Lineage :=
  ⟨root, [⟨⟨"x", ⟨[.stage "x"]⟩⟩, present.contains "x"⟩, ⟨⟨"o", ⟨[.stage "x", .stage "o"]⟩⟩, false⟩,
    ⟨⟨"a", ⟨[.stage "x", .stage "a"]⟩⟩, present.contains "a"⟩,
    ⟨⟨"s", ⟨[.stage "x", .join ["a", "x"], .stage "s"]⟩⟩, present.contains "s"⟩]⟩

/-- The lineage after all calls: `s` is present where it was, but `a` is not where it belongs. -/
def forkedLineage (root : Path) : Lineage :=
  ⟨root, [⟨⟨"x", ⟨[.stage "x"]⟩⟩, true⟩, ⟨⟨"o", ⟨[.stage "x", .stage "o"]⟩⟩, true⟩,
    ⟨⟨"a", ⟨[.stage "x", .join ["o", "x"], .stage "a"]⟩⟩, false⟩,
    ⟨⟨"s", ⟨[.stage "x", .join ["a", "x"], .stage "s"]⟩⟩, true⟩]⟩

theorem forked_history (hp : s.persona.IsRead) (hd : s.persona.definition = .forked)
    (hroom : ∀ b, (Json.bool b).canonicalText.utf8ByteSize ≤ s.options.maxPayload) :
    s.Succeeds forkedCalls ∧ s.lineageIn (s.history .empty forkedCalls) = forkedLineage s.root := by
  have step : ∀ {ids : List String} {written : List StagePath} {l : Lineage} (id : String),
      s.Succeeds (ids.map fun id => ⟨id, .bool true⟩) →
      s.Holds (s.history .empty (ids.map fun id => ⟨id, .bool true⟩)) written → l.root = s.root →
      l.fits .forked written = true → id ∈ Definition.forked.ids →
      ((Definition.forked.parents id).all fun p => l.isPresent p || Definition.forked.isOptional p) = true →
      s.Succeeds ((ids ++ [id]).map fun id => ⟨id, .bool true⟩) ∧
        s.Holds (s.history .empty ((ids ++ [id]).map fun id => ⟨id, .bool true⟩)) (⟨id, l.dir id⟩ :: written) := by
    intro ids written l id hsucceeds h hroot hfits hid hparents
    rw [List.map_append]
    have hexact : (Json.bool true).Exact ∧ (Json.bool true).depth ≤ Envelope.contentDepth := by decide
    refine h.concat hp (fun c hc => ?_) hsucceeds hroot (hd ▸ hfits) (hd ▸ hid)
      (hd ▸ List.all_eq_true.mp hparents) (by simp) (hroom true)
    obtain ⟨_, -, rfl⟩ := List.mem_map.mp hc
    exact hexact
  have hnone : s.Succeeds ([].map fun id => ⟨id, .bool true⟩) := fun before c after heq => by simp at heq
  obtain ⟨hx, hxfiles⟩ := step (l := unforkedLineage s.root []) "x" hnone (holds_empty s) rfl (by cbv) (by decide)
    (by cbv)
  obtain ⟨ha, hafiles⟩ := step (l := unforkedLineage s.root ["x"]) "a" hx hxfiles rfl (by cbv) (by decide) (by cbv)
  obtain ⟨hs, hsfiles⟩ := step (l := unforkedLineage s.root ["x", "a"]) "s" ha hafiles rfl (by cbv) (by decide)
    (by cbv)
  obtain ⟨ho, hofiles⟩ := step (l := unforkedLineage s.root ["x", "a", "s"]) "o" hs hsfiles rfl (by cbv) (by decide)
    (by cbv)
  exact ⟨ho, hofiles.lineageIn_eq hp rfl (hd ▸ by cbv)⟩

/-- There is a history of successful calls after which a present stage lacks a mandatory parent. -/
theorem exists_absent_parent : ∃ s : Session, s.persona.IsRead ∧ s.persona.definition = .forked ∧
    s.Succeeds forkedCalls ∧ (s.lineageIn (s.history .empty forkedCalls)).isPresent "s" = true ∧
    "a" ∈ s.persona.definition.parents "s" ∧ s.persona.definition.isOptional "a" = false ∧
    (s.lineageIn (s.history .empty forkedCalls)).isPresent "a" = false := by
  obtain ⟨s, hp, hd, -, hroom⟩ := exists_forked
  obtain ⟨hsucceeds, hl⟩ := forked_history hp hd hroom
  exact ⟨s, hp, hd, hsucceeds, hl ▸ rfl, by rw [hd]; decide, by rw [hd]; decide, hl ▸ rfl⟩

/-- After these calls the optional stage `o` is what moved the parent `a` of `s`. -/
theorem moved_forked : ∃ s : Session, s.persona.IsRead ∧
    1 < ((s.lineageIn (s.history .empty forkedCalls)).effective s.persona.definition "s").length ∧
    ∃ before c after m, s.Origin forkedCalls "s" before c after m ∧
      (s.lineageIn (s.history .empty before)).isPresent "a" = true ∧
      ∃ o ∈ s.persona.definition.ancestors "a", s.persona.definition.isOptional o = true ∧
        (s.lineageIn (s.history .empty before)).isPresent o = false ∧
        (s.lineageIn (s.history .empty forkedCalls)).isPresent o = true := by
  obtain ⟨s, hp, hd, -, hroom⟩ := exists_forked
  obtain ⟨-, hl⟩ := forked_history hp hd hroom
  have hpresent : (s.lineageIn (s.history .empty forkedCalls)).isPresent "s" = true := hl ▸ rfl
  have habsent : (s.lineageIn (s.history .empty forkedCalls)).isPresent "a" = false := hl ▸ rfl
  have hmoved := isPresent_parent_or_moved (p := "a") hp forkedCalls hpresent (by rw [hd]; decide) (by rw [hd]; decide)
  exact ⟨s, hp, hmoved.resolve_left (by rw [habsent]; exact Bool.false_ne_true)⟩

end Session
end StageLineage
