import StageLineage.Proofs.Json.Printer
import StageLineage.Proofs.Session.Availability
import StageLineage.Proofs.Session.Frame
import StageLineage.Proofs.Session.Refusal

/-! The bytes that are hashed for an envelope tell its content and its parents. No control character stands in
    a canonical text and no colon in a stage id, so the zero after the content and the colons after the keys are
    found again. The parents of an envelope that was sealed are declared parents, whatever the store held. -/

namespace StageLineage

namespace Fingerprint

/-- A content without NUL, and parents whose keys can be the names of directories. -/
structure Delimited (content : String) (parents : ParentFingerprints) : Prop where
  nul_notMem : '\x00' ∉ content.toList
  validate_key : ∀ entry ∈ parents.entries, Segment.validate entry.1 = .ok ()

theorem Delimited.eq_of_hashedBytes {content content' : String} {parents parents' : ParentFingerprints}
    (h : Delimited content parents) (h' : Delimited content' parents')
    (hbytes : hashedBytes content parents = hashedBytes content' parents') :
    content = content' ∧ parents = parents' := by
  rw [← toUTF8_hashedText, ← toUTF8_hashedText] at hbytes
  exact hashedText_inj h.nul_notMem h'.nul_notMem
    (fun entry hmem => Segment.colon_notMem_of_validate (h.validate_key entry hmem))
    (fun entry hmem => Segment.colon_notMem_of_validate (h'.validate_key entry hmem)) (Text.toUTF8_inj hbytes)

/-- A key with a newline and a colon in it would pass for two parents. -/
theorem hashedBytes_forged (content : String) (f g : Fingerprint) :
    hashedBytes content (.ofList [("a:" ++ f.toHex ++ "\nb", g)]) =
      hashedBytes content (.ofList [("a", f), ("b", g)]) := by
  have hone : (SortedMap.ofList [("a:" ++ f.toHex ++ "\nb", g)]).entries = [("a:" ++ f.toHex ++ "\nb", g)] := rfl
  have htwo : (SortedMap.ofList [("a", f), ("b", g)]).entries = [("a", f), ("b", g)] := by
    have hgt : compare "b" "a" = .gt := by decide
    simp [SortedMap.ofList, SortedMap.insert, SortedMap.insertEntry, SortedMap.empty, hgt]
  have htext : "\n".intercalate ["a:" ++ f.toHex ++ "\nb" ++ ":" ++ g.toHex] =
      "\n".intercalate ["a" ++ ":" ++ f.toHex, "b" ++ ":" ++ g.toHex] :=
    String.toList_inj.mp (by simp [String.intercalate_cons_cons])
  rw [hashedBytes, hashedBytes, hone, htwo]
  exact congrArg (fun text : String => content.toUTF8.toList ++ 0x00 :: text.toUTF8.toList) htext

end Fingerprint

/-! ### Operations on any store -/

namespace Session
variable {σ α β : Type}

/-- What a session operation can answer, in some state of its store. -/
def Answers (x : ExceptT SessionError (StateM σ) α) (a : α) : Prop :=
  ∃ before after, (ExceptT.run x).run before = (.ok a, after)

theorem Answers.of_bind {x : ExceptT SessionError (StateM σ) α} {f : α → ExceptT SessionError (StateM σ) β} {b : β}
    (h : Answers (x >>= f) b) : ∃ a, Answers x a ∧ Answers (f a) b := by
  obtain ⟨before, after, hrun⟩ := h
  rw [ExceptT.run_bind, StateT.run_bind] at hrun
  cases hx : (ExceptT.run x).run before with
  | mk r between =>
    rw [hx] at hrun
    cases r with
    | error e => cases hrun
    | ok a => exact ⟨a, ⟨before, between, hx⟩, between, after, hrun⟩

theorem Answers.eq_of_pure {a b : α} (h : Answers (pure a : ExceptT SessionError (StateM σ) α) b) : b = a := by
  obtain ⟨_, _, hrun⟩ := h
  cases hrun
  rfl

theorem not_answers_throw {e : SessionError} {a : α} : ¬ Answers (throw e : ExceptT SessionError (StateM σ) α) a := by
  rintro ⟨_, _, hrun⟩
  cases hrun

/-! ### Sealed envelopes -/

section
variable [SessionStore (StateM σ)] {s : Session} {stage : String} {content : Json} {m : Materialization}

/-- Only the fingerprints of parents that were looked at are added. -/
theorem mem_of_gatherParents {d : Definition} {l : Lineage} {declared : List String} {found : GatheredParents} :
    ∀ {parents : List String} {g : GatheredParents}, (∀ p ∈ parents, p ∈ declared) →
      (∀ entry ∈ g.fingerprints.entries, entry.1 ∈ declared) →
      Answers (gatherParents d l stage g parents : ExceptT SessionError (StateM σ) GatheredParents) found →
      ∀ entry ∈ found.fingerprints.entries, entry.1 ∈ declared
  | [], g, _, hg, h => by
    obtain rfl := h.eq_of_pure
    exact hg
  | p :: parents, g, hparents, hg, h => by
    obtain ⟨hp, hrest⟩ := List.forall_mem_cons.mp hparents
    rw [gatherParents] at h
    split at h
    · obtain ⟨read, -, h⟩ := h.of_bind
      cases read with
      | none => exact absurd h not_answers_throw
      | some e =>
        refine mem_of_gatherParents hrest (fun entry hentry => ?_) h
        rcases SortedMap.mem_insertEntry hentry with heq | heq | hmem
        · exact Std.LawfulEqCmp.eq_of_compare heq ▸ hp
        · exact heq ▸ hp
        · exact hg entry hmem
    · split at h
      · exact mem_of_gatherParents (g := { g with skipped := g.skipped ++ [p] }) hrest hg h
      · exact absurd h not_answers_throw

/-- An envelope that was sealed holds the content that was given and fingerprints of declared parents only. -/
theorem exists_ofPayload_of_answers
    (h : Answers (s.materialize stage content : ExceptT SessionError (StateM σ) Materialization) m) :
    ∃ payload parents, Payload.ofValue s.options.maxPayload content = .ok payload ∧
      m.envelope = .ofPayload payload parents ∧
      ∀ entry ∈ parents.entries, entry.1 ∈ s.persona.definition.parents stage := by
  rw [materialize] at h
  split at h
  · exact absurd h not_answers_throw
  · next declared hdeclared =>
    split at h
    · exact absurd h not_answers_throw
    · next payload hpayload =>
      obtain ⟨l, -, h⟩ := h.of_bind
      obtain ⟨g, hg, h⟩ := h.of_bind
      rw [Definition.parents_of_stage? hdeclared]
      have hparents := mem_of_gatherParents (fun _ => Stage.mem_distinctParents_iff.mp) (by simp [SortedMap.empty]) hg
      rw [writeEnvelope] at h
      split at h
      · exact absurd h not_answers_throw
      · obtain ⟨replaced, -, h⟩ := h.of_bind
        obtain ⟨-, -, h⟩ := h.of_bind
        obtain ⟨-, -, h⟩ := h.of_bind
        obtain rfl := h.eq_of_pure
        exact ⟨payload, g.fingerprints, hpayload, rfl, hparents⟩

theorem sealed_of_answers (hp : s.persona.IsRead)
    (h : Answers (s.materialize stage content : ExceptT SessionError (StateM σ) Materialization) m) :
    Fingerprint.Delimited content.canonicalText m.envelope.parents ∧
      m.envelope.fingerprint = .ofData (Fingerprint.hashedBytes content.canonicalText m.envelope.parents) := by
  obtain ⟨payload, parents, hpayload, henvelope, hparents⟩ := exists_ofPayload_of_answers h
  obtain ⟨-, -, rfl⟩ := Envelope.ofValue_eq_ok_iff.mp hpayload
  rw [henvelope]
  refine ⟨⟨content.nul_notMem_canonicalText, fun entry hentry => ?_⟩, ?_⟩
  · exact hp.wellFormed.validate_id _ (hp.wellFormed.mem_of_parents (hparents entry hentry))
  · rw [← Fingerprint.toUTF8_hashedText]
    rfl

end

/-- Fingerprints are digests of bytes that tell the content and the parents, for contents without NUL and keys that
    can be the names of directories. Canonical texts are such contents, and envelopes are sealed for such keys. -/
theorem hashed_unambiguous :
    (∀ content parents, Fingerprint.chain content parents = .ofData (Fingerprint.hashedBytes content parents)) ∧
    (∀ content content' parents parents', Fingerprint.Delimited content parents →
      Fingerprint.Delimited content' parents' →
      Fingerprint.hashedBytes content parents = Fingerprint.hashedBytes content' parents' →
      content = content' ∧ parents = parents') ∧
    (∀ j : Json, ∀ c ∈ j.canonicalText.toList, 0x20 ≤ c.toNat) ∧
    ∀ (σ : Type) [SessionStore (StateM σ)] (s : Session) (stage : String) (content : Json) (m : Materialization),
      s.persona.IsRead → Answers (s.materialize stage content : ExceptT SessionError (StateM σ) Materialization) m →
      Fingerprint.Delimited content.canonicalText m.envelope.parents ∧
        m.envelope.fingerprint = .ofData (Fingerprint.hashedBytes content.canonicalText m.envelope.parents) :=
  ⟨fun content parents => by rw [Fingerprint.chain, Fingerprint.toUTF8_hashedText],
    fun _ _ _ _ h h' => h.eq_of_hashedBytes h', Json.shown_canonicalText, fun _ _ _ _ _ _ => sealed_of_answers⟩

/-- The stage `a` of the fork is sealed after the call for its parent `x`, and again after all calls, when `o` is there
    too and has moved it. -/
theorem sealed_forked : ∃ (s : Session) (store store' : MemoryStore) (m m' : Materialization), s.persona.IsRead ∧
    store.answer (s.materialize "a" (.bool true)) = .ok m ∧ store'.answer (s.materialize "a" (.bool true)) = .ok m' ∧
    (m.envelope.parents.contains "x" = true ∧ m.envelope.parents.contains "o" = false) ∧
    m'.envelope.parents.contains "x" = true ∧ m'.envelope.parents.contains "o" = true := by
  obtain ⟨s, hp, hd, -, hroom⟩ := exists_forked
  obtain ⟨hsucceeds, hl⟩ := forked_history hp hd hroom
  have hparents : s.persona.definition.parents "a" = ["x", "o"] := by rw [hd]; decide
  have hcalls : ∀ c ∈ forkedCalls, c.content.Exact ∧ c.content.depth ≤ Envelope.contentDepth := by decide
  obtain ⟨mx, hmx, hstore⟩ := hsucceeds.materialized hp [] ⟨"x", .bool true⟩ rfl
  obtain ⟨m, hm⟩ := hsucceeds (forkedCalls.take 1) ⟨"a", .bool true⟩ (forkedCalls.drop 2) rfl
  have haccepts : s.Accepts (s.history .empty forkedCalls) "a" := by
    refine (accepts_iff hp (readable_history hp hcalls) (by rw [hd]; decide) ⟨_, by simp, hroom true⟩).mpr ?_
    rw [hparents, hl, hd]
    exact List.forall_mem_cons.mpr ⟨rfl, List.forall_mem_singleton.mpr rfl⟩
  obtain ⟨m', hm'⟩ := haccepts (.bool true) (by simp) (hroom true)
  have hfirst := ((materialized_of_answer hp hm).chainedTo hp).contains_iff
  have hlater := ((materialized_of_answer hp hm').chainedTo hp).contains_iff
  refine ⟨s, _, _, m, m', hp, hm, hm', ⟨(hfirst "x").mpr ⟨by simp [hparents], ?_⟩, ?_⟩,
    (hlater "x").mpr ⟨by simp [hparents], hl ▸ rfl⟩, (hlater "o").mpr ⟨by simp [hparents], hl ▸ rfl⟩⟩
  · exact hstore ▸ hmx.isPresent_self hp
  · by_contra hcontains
    obtain ⟨c, hc, hstage⟩ := exists_call_of_isPresent hp ((hfirst "o").mp (by simpa using hcontains)).2
    obtain rfl := List.mem_singleton.mp hc
    exact absurd hstage (by decide)

/-- The content is the same in both envelopes, and the bytes that are hashed tell the one parent from the two. -/
theorem hashed_forked : ∃ (s : Session) (m m' : Materialization), s.persona.IsRead ∧
    Answers (s.materialize "a" (.bool true) : ExceptT SessionError (StateM MemoryStore) Materialization) m ∧
    Answers (s.materialize "a" (.bool true) : ExceptT SessionError (StateM MemoryStore) Materialization) m' ∧
    (m.envelope.parents.contains "x" = true ∧ m.envelope.parents.contains "o" = false) ∧
    (m'.envelope.parents.contains "x" = true ∧ m'.envelope.parents.contains "o" = true) ∧
    Fingerprint.hashedBytes (Json.bool true).canonicalText m.envelope.parents ≠
      Fingerprint.hashedBytes (Json.bool true).canonicalText m'.envelope.parents := by
  obtain ⟨s, store, store', m, m', hp, hm, hm', hone, htwo⟩ := sealed_forked
  have hanswers : Answers (s.materialize "a" (.bool true) : ExceptT SessionError (StateM MemoryStore) _) m :=
    ⟨store, store.after _, Prod.ext hm rfl⟩
  have hanswers' : Answers (s.materialize "a" (.bool true) : ExceptT SessionError (StateM MemoryStore) _) m' :=
    ⟨store', store'.after _, Prod.ext hm' rfl⟩
  obtain ⟨-, htold, -, hsealed⟩ := hashed_unambiguous
  have hdelimited := (hsealed _ _ _ _ _ hp hanswers).1
  have hdelimited' := (hsealed _ _ _ _ _ hp hanswers').1
  refine ⟨s, m, m', hp, hanswers, hanswers', hone, htwo, fun hbytes => ?_⟩
  rw [(htold _ _ _ _ hdelimited hdelimited' hbytes).2, htwo.2] at hone
  exact absurd hone.2 (by decide)

end Session
end StageLineage
