import Mathlib.Logic.Relation
import StageLineage.Proofs.Json.Printer
import StageLineage.Proofs.Session.Frame
import StageLineage.Proofs.Session.Reported

/-! Lineage commitment. The fingerprint of a stage that is not stale is the digest of its content and of the
    fingerprints of its present parents, which are not stale either. Going up from there, equal fingerprints
    in two sessions of one definition belong to equal lineages, unless two strings that were hashed on the
    way collide. -/

namespace StageLineage

/-! ### Hashed strings -/

/-- The bytes whose digest is the fingerprint that an envelope ought to have. -/
def Envelope.hashedBytes (e : Envelope) : List UInt8 :=
  (Fingerprint.hashedText e.content.canonicalText e.parents).toUTF8.toList

theorem Envelope.hash_hashedBytes {e : Envelope} (h : e.verify = true) : Blake3.hash e.hashedBytes = e.fingerprint.bytes :=
  congrArg Fingerprint.bytes (verify_iff.mp h).symm

/-- Different strings that are hashed for two envelopes have one digest. -/
def Envelope.Collides (e e' : Envelope) : Prop :=
  e.hashedBytes ≠ e'.hashedBytes ∧ Blake3.hash e.hashedBytes = Blake3.hash e'.hashedBytes

namespace Session
variable {s s' : Session} {store store' : MemoryStore} {id p : String} {e e' : Envelope}

theorem colon_notMem_of_mem_parentFingerprints (hp : s.persona.IsRead) {entry : String × Fingerprint}
    (h : entry ∈ (s.parentFingerprints store id).entries) : ':' ∉ entry.1.toList := by
  have hget := SortedMap.get?_of_mem h
  rw [get?_parentFingerprints] at hget
  split at hget
  · next hparent =>
    exact Segment.colon_notMem_of_validate (hp.wellFormed.validate_id _ (hp.wellFormed.mem_of_parents hparent))
  · cases hget

theorem Sealed.colon_notMem (hp : s.persona.IsRead) (h : s.Sealed store id e) :
    ∀ entry ∈ e.parents.entries, ':' ∉ entry.1.toList := by
  obtain ⟨_, hparents⟩ := h.parents
  rw [hparents]
  exact fun entry hmem => colon_notMem_of_mem_parentFingerprints hp hmem

/-- Sealed envelopes with equal fingerprints are equal, unless the strings that were hashed for them collide. -/
theorem Sealed.eq_of_not_collides (hp : s.persona.IsRead) (hp' : s'.persona.IsRead) (h : s.Sealed store id e)
    (h' : s'.Sealed store' id e') (hsame : e.fingerprint = e'.fingerprint) (hnot : ¬ e.Collides e') :
    e.content = e'.content ∧ e.parents = e'.parents := by
  have hhash : Blake3.hash e.hashedBytes = Blake3.hash e'.hashedBytes := by
    rw [Envelope.hash_hashedBytes h.verify, Envelope.hash_hashedBytes h'.verify, hsame]
  have hbytes : e.hashedBytes = e'.hashedBytes := by
    by_contra hne
    exact hnot ⟨hne, hhash⟩
  obtain ⟨htext, hparents⟩ := Fingerprint.hashedText_inj e.content.nul_notMem_canonicalText
    e'.content.nul_notMem_canonicalText (h.colon_notMem hp) (h'.colon_notMem hp') (Text.toUTF8_inj hbytes)
  have hcontent := Json.canonical_eq_of_compact_eq h.exact.canonical h'.exact.canonical htext
  rw [h.canonical, h'.canonical, h.canonical, h'.canonical] at hcontent
  exact ⟨hcontent, hparents⟩

/-! ### Lineages -/

/-- The stages that going from a stage to present declared parents leads to, the stage itself included. -/
def Upstream (s : Session) (store : MemoryStore) : String → String → Prop :=
  Relation.ReflTransGen fun id p => p ∈ s.persona.definition.parents id ∧ (s.lineageIn store).isPresent p = true

theorem upstream_iff {q : String} : s.Upstream store id q ↔
    id = q ∨ ∃ p ∈ s.persona.definition.parents id, (s.lineageIn store).isPresent p = true ∧ s.Upstream store p q := by
  simp only [Upstream, ← and_assoc]
  exact Relation.ReflTransGen.cases_head_iff

/-- Two strings that were hashed for the envelopes of one stage upstream collide. -/
def Collision (s s' : Session) (store store' : MemoryStore) (id : String) : Prop :=
  ∃ p e e', s.Upstream store id p ∧ s'.Upstream store' id p ∧ s.readIn store p = .ok (some e) ∧
    s'.readIn store' p = .ok (some e') ∧ e.Collides e'

/-- The same stages lie upstream in two sessions, and each has the same content and fingerprint in both. -/
structure Agree (s s' : Session) (store store' : MemoryStore) (id : String) : Prop where
  upstream_iff : ∀ p, s.Upstream store id p ↔ s'.Upstream store' id p
  envelope : ∀ p, s.Upstream store id p → ∃ e e', s.readIn store p = .ok (some e) ∧
    s'.readIn store' p = .ok (some e') ∧ e.content = e'.content ∧ e.fingerprint = e'.fingerprint

/-- A stage in two sessions: it is present and not stale, and its stored fingerprints are equal. -/
structure Match (s s' : Session) (store store' : MemoryStore) (id : String) : Prop where
  present : (s.lineageIn store).isPresent id = true
  present' : (s'.lineageIn store').isPresent id = true
  fresh : ¬ s.IsStale store id
  fresh' : ¬ s'.IsStale store' id
  fingerprint : s.fingerprintIn? store id = s'.fingerprintIn? store' id

section Match
variable (hp : s.persona.IsRead) (hp' : s'.persona.IsRead) (hd : s'.persona.definition = s.persona.definition)
variable (hsealed : ∀ id, (s.lineageIn store).isPresent id = true → ∃ e, s.Sealed store id e)
variable (hsealed' : ∀ id, (s'.lineageIn store').isPresent id = true → ∃ e, s'.Sealed store' id e)
include hp hp' hd hsealed hsealed'

/-- The present parents of a stage that matches are the same in both sessions, and match as well. -/
theorem Match.parent (h : Match s s' store store' id) (he : s.Sealed store id e) (he' : s'.Sealed store' id e')
    (hsame : e.parents = e'.parents) (hparent : p ∈ s.persona.definition.parents id) :
    ((s.lineageIn store).isPresent p = true ↔ (s'.lineageIn store').isPresent p = true) ∧
      ((s.lineageIn store).isPresent p = true → Match s s' store store' p) := by
  have hparent' : p ∈ s'.persona.definition.parents id := hd ▸ hparent
  have hpid := hp.wellFormed.mem_of_parents hparent
  have hpid' := hp'.wellFormed.mem_of_parents hparent'
  have hfresh := h.fresh
  have hfresh' := h.fresh'
  rw [isStale_iff hp he.read] at hfresh
  rw [isStale_iff hp' he'.read] at hfresh'
  push Not at hfresh hfresh'
  obtain ⟨hchained, hpfresh⟩ := hfresh.2 p hparent
  obtain ⟨hchained', hpfresh'⟩ := hfresh'.2 p hparent'
  have hfingerprint : s.fingerprintIn? store p = s'.fingerprintIn? store' p := by
    rw [← hchained, ← hchained', hsame]
  have hpresent : (s.lineageIn store).isPresent p = true ↔ (s'.lineageIn store').isPresent p = true := by
    constructor
    · intro hpresent
      obtain ⟨f, hf⟩ := hsealed p hpresent
      exact isPresent_of_fingerprintIn? hp' hpid' (hfingerprint ▸ hf.fingerprintIn?_eq)
    · intro hpresent
      obtain ⟨f, hf⟩ := hsealed' p hpresent
      exact isPresent_of_fingerprintIn? hp hpid (hfingerprint ▸ hf.fingerprintIn?_eq)
  exact ⟨hpresent, fun hppresent => ⟨hppresent, hpresent.mp hppresent, hpfresh, hpfresh', hfingerprint⟩⟩

/-- A stage that matches has one lineage in both sessions, unless there is a collision in it. -/
theorem Match.agree :
    ∀ id ∈ s.persona.definition.ids, Match s s' store store' id → ¬ Collision s s' store store' id →
      Agree s s' store store' id := by
  refine hp.wellFormed.parents_induction fun id _ ih h hnot => ?_
  obtain ⟨e, he⟩ := hsealed id h.present
  obtain ⟨e', he'⟩ := hsealed' id h.present'
  have hfingerprint : e.fingerprint = e'.fingerprint := by
    have hstored := h.fingerprint
    rw [he.fingerprintIn?_eq, he'.fingerprintIn?_eq] at hstored
    exact Option.some.inj hstored
  obtain ⟨hcontent, hparents⟩ := he.eq_of_not_collides hp hp' he' hfingerprint fun hcollides =>
    hnot ⟨id, e, e', .refl, .refl, he.read, he'.read, hcollides⟩
  have hmatch := fun p => Match.parent (p := p) hp hp' hd hsealed hsealed' h he he' hparents
  -- What collides upstream of a parent collides upstream of the stage.
  have hagree : ∀ p ∈ s.persona.definition.parents id, (s.lineageIn store).isPresent p = true →
      Agree s s' store store' p := by
    intro p hparent hpresent
    refine ih p hparent ((hmatch p hparent).2 hpresent) fun ⟨q, f, f', hq, hq', hcollides⟩ => hnot ?_
    exact ⟨q, f, f', hq.head ⟨hparent, hpresent⟩,
      hq'.head ⟨hd ▸ hparent, (hmatch p hparent).1.mp hpresent⟩, hcollides⟩
  refine ⟨fun q => ?_, fun q hq => ?_⟩
  · rw [upstream_iff, upstream_iff, hd]
    refine or_congr_right (exists_congr fun p => and_congr_right fun hparent => ?_)
    obtain ⟨hpresent, -⟩ := hmatch p hparent
    constructor
    · rintro ⟨hp, hq⟩
      exact ⟨hpresent.mp hp, (hagree p hparent hp).upstream_iff q |>.mp hq⟩
    · rintro ⟨hp', hq⟩
      exact ⟨hpresent.mpr hp', (hagree p hparent (hpresent.mpr hp')).upstream_iff q |>.mpr hq⟩
  · rcases upstream_iff.mp hq with rfl | ⟨p, hparent, hpresent, hq⟩
    · exact ⟨e, e', he.read, he'.read, hcontent, hfingerprint⟩
    · exact (hagree p hparent hpresent).envelope q hq

end Match

/-- In two histories of one definition, a stage that is present and not reported as stale in either and has one
    stored fingerprint has one lineage: the same stages lie upstream, with the same contents and fingerprints,
    unless two of the strings that were hashed for them collide. -/
theorem lineage_commitment (hp : s.persona.IsRead) (hp' : s'.persona.IsRead)
    (hd : s'.persona.definition = s.persona.definition) {calls calls' : List Call}
    (hcalls : ∀ c ∈ calls, c.content.Exact ∧ c.content.depth ≤ 126)
    (hcalls' : ∀ c ∈ calls', c.content.Exact ∧ c.content.depth ≤ 126)
    (hpresent : (s.lineageIn (s.history .empty calls)).isPresent id = true)
    (hpresent' : (s'.lineageIn (s'.history .empty calls')).isPresent id = true)
    {stale stale' : List StaleStage} (hstale : (s.history .empty calls).answer s.stale = .ok stale)
    (hstale' : (s'.history .empty calls').answer s'.stale = .ok stale') (hfresh : ∀ r ∈ stale, r.stage ≠ id)
    (hfresh' : ∀ r ∈ stale', r.stage ≠ id)
    (hsame : s.fingerprintIn? (s.history .empty calls) id = s'.fingerprintIn? (s'.history .empty calls') id) :
    Collision s s' (s.history .empty calls) (s'.history .empty calls') id ∨
      Agree s s' (s.history .empty calls) (s'.history .empty calls') id := by
  have hnotStale : ∀ {s : Session} {calls : List Call} {stale : List StaleStage}, s.persona.IsRead →
      (∀ c ∈ calls, c.content.Exact ∧ c.content.depth ≤ 126) →
      (s.history .empty calls).answer s.stale = .ok stale → (∀ r ∈ stale, r.stage ≠ id) →
      ¬ s.IsStale (s.history .empty calls) id := by
    intro s calls stale hp hcalls hstale hfresh hisStale
    obtain ⟨found, hfound, hiff⟩ := run_stale_iff hp (readable_history hp hcalls)
    rw [MemoryStore.answer, hfound] at hstale
    obtain ⟨r, hr, hid⟩ := (hiff id).mpr hisStale
    exact hfresh r (Except.ok.inj hstale ▸ hr) hid
  by_cases hcollision : Collision s s' (s.history .empty calls) (s'.history .empty calls') id
  · exact Or.inl hcollision
  · refine Or.inr (Match.agree hp hp' hd (fun _ => exists_sealed hp hcalls) (fun _ => exists_sealed hp' hcalls') id
      (mem_ids_of_isPresent hp hpresent) ⟨hpresent, hpresent', ?_, ?_, hsame⟩ hcollision)
    · exact hnotStale hp hcalls hstale hfresh
    · exact hnotStale hp' hcalls' hstale' hfresh'

/-- After the calls for `x` and `a` the stage `a` is present and not stale, and the call for the stage `s`
    below them leaves it so. -/
theorem fresh_forked (hp : s.persona.IsRead) (hd : s.persona.definition = .forked)
    (hroom : ∀ b, (Json.bool b).canonicalText.utf8ByteSize ≤ s.options.maxPayload) :
    (s.lineageIn (s.history .empty (forkedCalls.take 2))).isPresent "a" = true ∧
      s.readIn (s.history .empty (forkedCalls.take 3)) "a" = s.readIn (s.history .empty (forkedCalls.take 2)) "a" ∧
      ¬ s.IsStale (s.history .empty (forkedCalls.take 2)) "a" ∧
      ¬ s.IsStale (s.history .empty (forkedCalls.take 3)) "a" := by
  obtain ⟨hsucceeds, -⟩ := forked_history hp hd hroom
  obtain ⟨mx, hx, hxstore⟩ := hsucceeds.materialized hp [] ⟨"x", .bool true⟩ rfl
  obtain ⟨ma, ha, hastore⟩ := hsucceeds.materialized hp (forkedCalls.take 1) ⟨"a", .bool true⟩ rfl
  obtain ⟨ms, hs, hsstore⟩ := hsucceeds.materialized hp (forkedCalls.take 2) ⟨"s", .bool true⟩ rfl
  have hcontent : (Json.bool true).Exact ∧ (Json.bool true).depth ≤ Envelope.contentDepth := by decide
  have hid : "a" ∈ s.persona.definition.ids := by
    rw [hd]
    decide
  have habove : ¬ s.persona.definition.Above "s" "a" := by
    rw [← hp.wellFormed.mem_ancestors_iff, hd, show Definition.forked.ancestors "a" = ["x", "o"] by cbv]
    decide
  -- Of the parents of `a`, `x` has none itself and `o` is absent.
  have hfreshx : ¬ s.IsStale (s.history .empty (forkedCalls.take 1)) "x" := by
    have hiff := hx.isStale_iff hp hcontent.1 hcontent.2
    rw [← hxstore, hd] at hiff
    intro hstale
    obtain ⟨q, hq, -⟩ := hiff.mp hstale
    cases hq
  have hfresho : ¬ s.IsStale (s.history .empty (forkedCalls.take 1)) "o" := by
    intro hstale
    obtain ⟨c, hc, hstage⟩ := exists_call_of_isPresent hp (hstale.isPresent hp)
    obtain rfl := List.mem_singleton.mp hc
    exact absurd hstage (by decide)
  have hfresha : ¬ s.IsStale (s.history .empty (forkedCalls.take 2)) "a" := by
    have hiff := ha.isStale_iff hp hcontent.1 hcontent.2
    rw [← hastore, hd, show Definition.forked.parents "a" = ["x", "o"] by decide] at hiff
    intro hstale
    obtain ⟨q, hq, hqstale⟩ := hiff.mp hstale
    rcases List.mem_pair.mp hq with rfl | rfl
    · exact hfreshx hqstale
    · exact hfresho hqstale
  refine ⟨hastore ▸ ha.isPresent_self hp, ?_, hfresha, ?_⟩
  · have hkept := hs.readIn_eq_of_not_above hp hid (by decide) habove
    rwa [← hsstore] at hkept
  · have hiff := hs.isStale_iff_of_not_above hp hid (by decide) habove
    rw [← hsstore] at hiff
    exact fun hstale => hfresha (hiff.mp hstale)

/-- The stage `a` after the calls for `x` and `a`, and after the call for the stage below them. -/
theorem commitment_forked : ∃ s : Session, s.persona.IsRead ∧ s.persona.definition = .forked ∧
    (s.lineageIn (s.history .empty (forkedCalls.take 2))).isPresent "a" = true ∧
    (Collision s s (s.history .empty (forkedCalls.take 2)) (s.history .empty (forkedCalls.take 3)) "a" ∨
      Agree s s (s.history .empty (forkedCalls.take 2)) (s.history .empty (forkedCalls.take 3)) "a") := by
  obtain ⟨s, hp, hd, -, hroom⟩ := exists_forked
  obtain ⟨hpresent, hread, hfresh, hfresh'⟩ := fresh_forked hp hd hroom
  have hcalls : ∀ c ∈ forkedCalls.take 2, c.content.Exact ∧ c.content.depth ≤ 126 := by decide
  have hcalls' : ∀ c ∈ forkedCalls.take 3, c.content.Exact ∧ c.content.depth ≤ 126 := by decide
  obtain ⟨stale, hstale, hiff⟩ := run_stale_iff hp (readable_history hp hcalls)
  obtain ⟨stale', hstale', hiff'⟩ := run_stale_iff hp (readable_history hp hcalls')
  have hid := mem_ids_of_isPresent hp hpresent
  refine ⟨s, hp, hd, hpresent, lineage_commitment hp hp rfl hcalls hcalls' hpresent ?_
    (congrArg Prod.fst hstale) (congrArg Prod.fst hstale') ?_ ?_ ?_⟩
  · rw [isPresent_congr hp hid hread, hpresent]
  · exact fun r hr hr' => hfresh ((hiff _).mp ⟨r, hr, hr'⟩)
  · exact fun r hr hr' => hfresh' ((hiff' _).mp ⟨r, hr, hr'⟩)
  · rw [fingerprintIn?, fingerprintIn?, hread]

end Session
end StageLineage
