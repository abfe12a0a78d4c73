import StageLineage.Proofs.Session.StaleSet

/-! Stale stages of a session in memory. If every present stage can be read, the scan finds nothing
    exactly if every present stage is chained to its parents as they are; and in a history every present
    stage can be read and passes its own check. -/

namespace StageLineage

namespace Session
variable {s : Session} {store : MemoryStore}

/-- The stored envelope of a stage passes its check and has the stored fingerprints of the parents. -/
def Chained (s : Session) (store : MemoryStore) (id : String) : Prop :=
  ∃ e, s.readIn store id = .ok (some e) ∧ e.verify = true ∧
    ∀ p ∈ s.persona.definition.parents id, e.parents.get? p = s.fingerprintIn? store p

theorem isPresent_of_fingerprintIn? (hp : s.persona.IsRead) {id : String} (hid : id ∈ s.persona.definition.ids)
    {f : Fingerprint} (h : s.fingerprintIn? store id = some f) : (s.lineageIn store).isPresent id = true := by
  rw [← Bool.not_eq_false, ← readIn_eq_none_iff hp store hid]
  intro hnone
  simp [fingerprintIn?, hnone] at h

/-- Where no stage is stale, an envelope is not stale exactly if it is chained. -/
theorem not_staleGiven_iff (hp : s.persona.IsRead) {id : String} {e : Envelope} (hread : s.readIn store id = .ok (some e)) :
    ¬ StaleGiven s.persona.definition (s.storedIn store) ∅ id ↔
      e.verify = true ∧ ∀ p ∈ s.persona.definition.parents id, e.parents.get? p = s.fingerprintIn? store p := by
  rw [staleGiven_iff ((storedIn_eq_some_iff hp).mpr hread)]
  simp [Amiss, map_storedIn hp]

/-- The scan answers if every present stage can be read, and it finds nothing exactly if all are chained. -/
theorem run_stale (hp : s.persona.IsRead) (hread : s.Readable store) :
    ∃ stale, store.run s.stale = (.ok stale, store) ∧
      (stale = [] ↔ ∀ id, (s.lineageIn store).isPresent id = true → s.Chained store id) := by
  obtain ⟨stale, hstale, hreport⟩ := run_stale_report hp hread
  refine ⟨stale, hstale, hreport.eq_nil_iff.trans (forall_congr' fun id => ⟨fun hfresh hpresent => ?_, fun hchained => ?_⟩)⟩
  · obtain ⟨e, he⟩ := hread id (mem_ids_of_isPresent hp hpresent) hpresent
    exact ⟨e, he, (not_staleGiven_iff hp he).mp hfresh⟩
  · intro hstale
    have hpresent : (s.lineageIn store).isPresent id = true := by
      obtain ⟨e, he, -⟩ := hstale
      exact isPresent_of_readIn hp ((storedIn_eq_some_iff hp).mp he)
    obtain ⟨e, he, hchain⟩ := hchained hpresent
    exact (not_staleGiven_iff hp he).mpr hchain hstale

/-! ### Histories -/

/-- A sealed envelope is chained exactly if its parents have the fingerprints that they had. -/
theorem chained_iff (s : Session) {store store' : MemoryStore} {id : String} {e : Envelope} (hverify : e.verify = true)
    (hread : s.readIn store id = .ok (some e)) (hparents : e.parents = s.parentFingerprints store' id) :
    s.Chained store id ↔ e.parents = s.parentFingerprints store id := by
  constructor
  · rintro ⟨e', hread', -, hsame⟩
    rw [hread] at hread'
    cases hread'
    refine SortedMap.ext_get? fun q => ?_
    rw [get?_parentFingerprints]
    split
    · next hq => exact hsame q hq
    · next hq => rw [hparents, get?_parentFingerprints, if_neg hq]
  · intro heq
    exact ⟨e, hread, hverify, fun p hp => by rw [heq, get?_parentFingerprints, if_pos hp]⟩

/-- In every history of exact contents that are nested at most 126 containers deep, the scan answers; it
    finds nothing exactly if the stored parents of every present stage are the stored fingerprints of its
    declared parents; and then every stored fingerprint is the one of the content and these parents. -/
theorem stale_history (hp : s.persona.IsRead) (calls : List Call)
    (hcalls : ∀ c ∈ calls, c.content.Exact ∧ c.content.depth ≤ 126) :
    ∃ stale, (s.history .empty calls).answer s.stale = .ok stale ∧
      (stale = [] ↔ ∀ id, (s.lineageIn (s.history .empty calls)).isPresent id = true →
        ∃ e, s.readIn (s.history .empty calls) id = .ok (some e) ∧
          e.parents = s.parentFingerprints (s.history .empty calls) id) ∧
      (stale = [] → ∀ id, (s.lineageIn (s.history .empty calls)).isPresent id = true →
        ∃ e, s.readIn (s.history .empty calls) id = .ok (some e) ∧
          e.fingerprint = .chain e.content.canonicalText (s.parentFingerprints (s.history .empty calls) id)) := by
  have hsealed : ∀ id, (s.lineageIn (s.history .empty calls)).isPresent id = true →
      ∃ e store', s.readIn (s.history .empty calls) id = .ok (some e) ∧ e.verify = true ∧
        e.parents = s.parentFingerprints store' id := by
    intro id hpresent
    obtain ⟨e, he⟩ := exists_sealed hp hcalls hpresent
    obtain ⟨store', hparents⟩ := he.parents
    exact ⟨e, store', he.read, he.verify, hparents⟩
  obtain ⟨stale, hstale, hiff⟩ := run_stale hp (readable_history hp hcalls)
  have hparents : stale = [] ↔ ∀ id, (s.lineageIn (s.history .empty calls)).isPresent id = true →
      ∃ e, s.readIn (s.history .empty calls) id = .ok (some e) ∧
        e.parents = s.parentFingerprints (s.history .empty calls) id := by
    rw [hiff]
    refine forall_congr' fun id => imp_congr_right fun hpresent => ?_
    obtain ⟨e, store', hread, hverify, he⟩ := hsealed id hpresent
    rw [chained_iff s hverify hread he]
    refine ⟨fun h => ⟨e, hread, h⟩, fun ⟨e', hread', h⟩ => ?_⟩
    rw [hread] at hread'
    cases hread'
    exact h
  refine ⟨stale, by rw [MemoryStore.answer, hstale], hparents, fun hnil id hpresent => ?_⟩
  obtain ⟨e, hread, he⟩ := hparents.mp hnil id hpresent
  obtain ⟨e', -, hread', hverify, -⟩ := hsealed id hpresent
  rw [hread] at hread'
  cases hread'
  exact ⟨e, hread, by rw [← he]; exact Envelope.verify_iff.mp hverify⟩

/-- A history in which a parent appeared after its child was materialized. -/
theorem stale_forked : ∃ s : Session, s.persona.IsRead ∧ s.persona.definition = .forked ∧
    (∀ c ∈ forkedCalls, c.content.Exact ∧ c.content.depth ≤ 126) ∧
    ∃ stale, (s.history .empty forkedCalls).answer s.stale = .ok stale ∧
      (stale = [] ↔ ∀ id, (s.lineageIn (s.history .empty forkedCalls)).isPresent id = true →
        ∃ e, s.readIn (s.history .empty forkedCalls) id = .ok (some e) ∧
          e.parents = s.parentFingerprints (s.history .empty forkedCalls) id) ∧
      (stale = [] → ∀ id, (s.lineageIn (s.history .empty forkedCalls)).isPresent id = true →
        ∃ e, s.readIn (s.history .empty forkedCalls) id = .ok (some e) ∧
          e.fingerprint = .chain e.content.canonicalText
            (s.parentFingerprints (s.history .empty forkedCalls) id)) := by
  obtain ⟨s, hp, hd, -⟩ := exists_forked
  exact ⟨s, hp, hd, by decide, stale_history hp forkedCalls (by decide)⟩

end Session
end StageLineage
