import StageLineage.Proofs.Session.ReadBack
import StageLineage.Proofs.Session.Stale

/-! Which stages of a session in memory the stale scan reports. A present stage is stale if its envelope fails its
    own check, if it was chained to a parent as it no longer is, or if a parent is stale. A stage that is
    materialized is stale afterwards only because of a parent. -/

namespace StageLineage

namespace Session
variable {s : Session} {store store' : MemoryStore} {id p : String} {e : Envelope}

/-- The least set of stages that holds the tampered ones, the ones whose parents changed, and with a stage
    the present ones that declare it as a parent. -/
inductive IsStale (s : Session) (store : MemoryStore) : String → Prop
  | tampered {id : String} {e : Envelope} : s.readIn store id = .ok (some e) → e.verify = false → IsStale s store id
  | changed {id p : String} {e : Envelope} : s.readIn store id = .ok (some e) → p ∈ s.persona.definition.parents id →
      e.parents.get? p ≠ s.fingerprintIn? store p → IsStale s store id
  | inherited {id p : String} : (s.lineageIn store).isPresent id = true → p ∈ s.persona.definition.parents id →
      IsStale s store p → IsStale s store id

theorem IsStale.isPresent (hp : s.persona.IsRead) (h : s.IsStale store id) :
    (s.lineageIn store).isPresent id = true := by
  cases h with
  | tampered hread _ => exact isPresent_of_readIn hp hread
  | changed hread _ _ => exact isPresent_of_readIn hp hread
  | inherited hpresent _ _ => exact hpresent

/-- Whether a stage is stale is decided by its envelope, the fingerprints of its parents, and which of them
    are stale. -/
theorem isStale_iff (hp : s.persona.IsRead) (hread : s.readIn store id = .ok (some e)) :
    s.IsStale store id ↔ e.verify = false ∨ ∃ p ∈ s.persona.definition.parents id,
      e.parents.get? p ≠ s.fingerprintIn? store p ∨ s.IsStale store p := by
  constructor
  · rintro (⟨hread', hverify⟩ | ⟨hread', hparent, hchanged⟩ | ⟨_, hparent, hstale⟩)
    · rw [hread] at hread'
      cases hread'
      exact Or.inl hverify
    · rw [hread] at hread'
      cases hread'
      exact Or.inr ⟨_, hparent, Or.inl hchanged⟩
    · exact Or.inr ⟨_, hparent, Or.inr hstale⟩
  · rintro (hverify | ⟨p, hparent, hchanged | hstale⟩)
    · exact .tampered hread hverify
    · exact .changed hread hparent hchanged
    · exact .inherited (isPresent_of_readIn hp hread) hparent hstale

/-- A stage stays stale as long as what is read of it and of the stages above it stays. -/
theorem IsStale.congr (hp : s.persona.IsRead) (h : s.IsStale store id)
    (hsame : ∀ q, q = id ∨ s.persona.definition.Above q id → s.readIn store' q = s.readIn store q) :
    s.IsStale store' id := by
  induction h with
  | tampered hread hverify => exact .tampered ((hsame _ (Or.inl rfl)).trans hread) hverify
  | @changed id p e hread hparent hchanged =>
    refine .changed ((hsame _ (Or.inl rfl)).trans hread) hparent ?_
    rwa [fingerprintIn?, hsame p (Or.inr (.single hparent))]
  | @inherited id p hpresent hparent _ ih =>
    refine .inherited ?_ hparent (ih fun q hq => hsame q (Or.inr ?_))
    · rw [isPresent_congr hp (mem_ids_of_isPresent hp hpresent) (hsame _ (Or.inl rfl)), hpresent]
    · rcases hq with rfl | habove
      · exact .single hparent
      · exact habove.tail hparent

/-! ### The scan -/

theorem isLeast_isStale (hp : s.persona.IsRead) (hreadable : s.Readable store) :
    IsLeast {R | HoldsStale s.persona.definition (s.storedIn store) R} {id | s.IsStale store id} := by
  constructor
  · rintro id ⟨e, he, hstale⟩
    refine (isStale_iff hp ((storedIn_eq_some_iff hp).mp he)).mpr (hstale.imp_right ?_)
    rintro ⟨p, hparent, hstale | hchanged⟩
    · exact ⟨p, hparent, Or.inr hstale⟩
    · exact ⟨p, hparent, Or.inl (map_storedIn hp store p ▸ hchanged)⟩
  · intro R hclosed id hstale
    induction hstale with
    | tampered hread hverify => exact hclosed _ ⟨_, (storedIn_eq_some_iff hp).mpr hread, Or.inl hverify⟩
    | changed hread hparent hchanged =>
      exact hclosed _ ⟨_, (storedIn_eq_some_iff hp).mpr hread,
        Or.inr ⟨_, hparent, Or.inr (map_storedIn hp store _ ▸ hchanged)⟩⟩
    | inherited hpresent hparent _ ih =>
      obtain ⟨e, he⟩ := hreadable _ (mem_ids_of_isPresent hp hpresent) hpresent
      exact hclosed _ ⟨e, (storedIn_eq_some_iff hp).mpr he, Or.inr ⟨_, hparent, Or.inl ih⟩⟩

/-- Where every present stage can be read, the stale stages are reported and no others. -/
theorem run_stale_iff (hp : s.persona.IsRead) (hreadable : s.Readable store) :
    ∃ stale, store.run s.stale = (.ok stale, store) ∧ ∀ id, (∃ r ∈ stale, r.stage = id) ↔ s.IsStale store id := by
  obtain ⟨stale, hstale, hreport⟩ := run_stale_report hp hreadable
  refine ⟨stale, hstale, fun id => ?_⟩
  rw [← List.mem_map]
  exact Set.ext_iff.mp (hreport.isLeast.unique (isLeast_isStale hp hreadable)) id

/-! ### Repair -/

/-- Materializing a stage leaves the staleness of the stages alone that do not lie below it. -/
theorem Materialized.isStale_iff_of_not_above (hp : s.persona.IsRead) {stage : String} {content : Json}
    {m : Materialization} (h : s.Materialized store stage content m) (hid : id ∈ s.persona.definition.ids)
    (hne : id ≠ stage) (habove : ¬ s.persona.definition.Above stage id) :
    s.IsStale (s.storeWith store m) id ↔ s.IsStale store id := by
  have hsame : ∀ q, q = id ∨ s.persona.definition.Above q id →
      s.readIn (s.storeWith store m) q = s.readIn store q := by
    rintro q (rfl | hq)
    · exact h.readIn_eq_of_not_above hp hid hne habove
    · refine h.readIn_eq_of_not_above hp (hp.wellFormed.mem_of_above hq) ?_ fun hstage => habove (hstage.trans hq)
      rintro rfl
      exact habove hq
  exact ⟨fun hstale => hstale.congr hp fun q hq => (hsame q hq).symm, fun hstale => hstale.congr hp hsame⟩

/-- A stage that was materialized is stale only if a parent is. -/
theorem Materialized.isStale_iff (hp : s.persona.IsRead) {stage : String} {content : Json} {m : Materialization}
    (h : s.Materialized store stage content m) (hexact : content.Exact)
    (hdepth : content.depth ≤ Envelope.contentDepth) :
    s.IsStale (s.storeWith store m) stage ↔ ∃ p ∈ s.persona.definition.parents stage, s.IsStale store p := by
  have hread := h.readIn_eq hp hexact
  rw [if_pos ((Json.depth_canonical_le _).trans hdepth), h.after_eq] at hread
  rw [Session.isStale_iff hp hread, h.verify]
  simp only [Bool.true_eq_false, false_or]
  refine exists_congr fun p => and_congr_right fun hparent => ?_
  rw [h.isStale_iff_of_not_above hp (hp.wellFormed.mem_of_parents hparent) (hp.wellFormed.ne_of_parents hparent)
    (hp.wellFormed.not_above_of_parents hparent)]
  exact or_iff_right (absurd (h.get?_parents hp hparent))

end Session
end StageLineage
