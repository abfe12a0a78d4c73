import StageLineage.Proofs.Manifest.Entry

/-! The documents that are accepted. Besides what header and stages say of themselves, the stages have distinct ids
    and name only each other, and no stage comes back to itself by going from parents to children. -/

namespace StageLineage

/-! ### Two lists side by side -/

section Pairs
variable {α β : Type} {R : α → β → Prop} {l : List α} {l' : List β}

theorem forall_iff_of_forall₂ {P : α → Prop} {Q : β → Prop} (h : List.Forall₂ R l l')
    (hR : ∀ a b, R a b → (P a ↔ Q b)) : (∀ a ∈ l, P a) ↔ ∀ b ∈ l', Q b := by
  induction h with
  | nil => simp
  | cons hab _ ih => rw [List.forall_mem_cons, List.forall_mem_cons, hR _ _ hab, ih]

theorem exists_iff_of_forall₂ {P : α → Prop} {Q : β → Prop} (h : List.Forall₂ R l l')
    (hR : ∀ a b, R a b → (P a ↔ Q b)) : (∃ a ∈ l, P a) ↔ ∃ b ∈ l', Q b := by
  induction h with
  | nil => simp
  | cons hab _ ih => rw [List.exists_mem_cons_iff, List.exists_mem_cons_iff, hR _ _ hab, ih]

theorem pairwise_iff_of_forall₂ {S : α → α → Prop} {T : β → β → Prop} (h : List.Forall₂ R l l')
    (hR : ∀ a b a' b', R a b → R a' b' → (S a a' ↔ T b b')) : l.Pairwise S ↔ l'.Pairwise T := by
  induction h with
  | nil => simp
  | cons hab hrest ih =>
    rw [List.pairwise_cons, List.pairwise_cons, ih, forall_iff_of_forall₂ hrest fun _ _ => hR _ _ _ _ hab]

end Pairs

namespace Manifest
variable {root : Fields} {entry : Json} {entries : List Json} {s : Stage} {stages : List Stage} {ids : List String}

/-! ### What stages say of each other -/

def HasId (entry : Json) (id : String) : Prop :=
  ∃ fields, entry = .object fields ∧ Json.field? fields "id" = some (.string id)

def HasParent (entry : Json) (p : String) : Prop :=
  ∃ fields items, entry = .object fields ∧ Json.field? fields "previous" = some (.array items) ∧ .string p ∈ items

def CompletedBy (entry : Json) (target : String) : Prop :=
  ∃ fields, entry = .object fields ∧ Json.field? fields "completes_with" = some (.string target)

/-- Among some entries, the stage `p` is a parent of the stage `id`. -/
def ParentIn (entries : List Json) (p id : String) : Prop := ∃ entry ∈ entries, HasId entry id ∧ HasParent entry p

structure IsStageList (entries : List Json) : Prop where
  ne_nil : entries ≠ []
  isStage : ∀ entry ∈ entries, ∃ fields, entry = .object fields ∧ IsStage fields
  distinct : entries.Pairwise fun entry entry' => ∀ id, HasId entry id → ¬ HasId entry' id
  parents_mem : ∀ entry ∈ entries, ∀ p, HasParent entry p → ∃ parent ∈ entries, HasId parent p
  target_mem : ∀ entry ∈ entries, ∀ t, CompletedBy entry t → ∃ target ∈ entries, HasId target t
  acyclic : ∀ id, ¬ Relation.TransGen (ParentIn entries) id id

inductive IsManifest : Json → Prop
  | object {root : Fields} {entries : List Json} (header : IsHeader root)
    (hentries : Json.field? root "stages" = some (.array entries)) (stages : IsStageList entries) :
    IsManifest (.object root)

/-! ### Entries and their stages -/

theorem IsReadFrom.hasId_iff (h : IsReadFrom entry s) (id : String) : HasId entry id ↔ s.id = id := by
  obtain ⟨index, h⟩ := h
  obtain ⟨fields, -, rfl, hid, -⟩ := fields_of_stage h
  simp [HasId, (present?_eq_some_iff.mp hid).1]

theorem IsReadFrom.hasParent_iff (h : IsReadFrom entry s) (p : String) : HasParent entry p ↔ p ∈ s.parents := by
  obtain ⟨index, h⟩ := h
  obtain ⟨fields, -, rfl, -, hprevious, -⟩ := fields_of_stage h
  have harray : ∀ items, Json.field? fields "previous" = some (.array items) ↔
      present? fields "previous" = some (.array items) := fun items => by simp [present?_eq_some_iff]
  simp only [HasParent, Json.object.injEq, exists_and_left, exists_eq_left', harray, hprevious, Stage.parents]
  cases s.previous <;> simp

theorem completesWith_of_stage {index : Nat} (h : stage index entry = .ok s) :
    ∃ fields, entry = .object fields ∧ completesWith s.id fields = .ok s.completesWith := by
  obtain ⟨fields, hfields, h⟩ := bind_eq_ok_iff.mp h
  obtain ⟨id, -, h⟩ := bind_eq_ok_iff.mp h
  iterate 3 obtain ⟨_, -, h⟩ := bind_eq_ok_iff.mp h
  obtain ⟨rule, hrule, h⟩ := bind_eq_ok_iff.mp h
  iterate 8 obtain ⟨_, -, h⟩ := bind_eq_ok_iff.mp h
  cases h
  exact ⟨fields, stageFields_eq_ok_iff.mp hfields, hrule⟩

theorem IsReadFrom.completedBy_iff (h : IsReadFrom entry s) (t : String) :
    CompletedBy entry t ↔ s.completesWith = .artifactOf t := by
  obtain ⟨index, h⟩ := h
  obtain ⟨fields, rfl, hrule⟩ := completesWith_of_stage h
  simp only [CompletedBy, Json.object.injEq, exists_eq_left']
  rw [completesWith] at hrule
  split at hrule
  · next hnone => simp [hnone, ← Except.ok.inj hrule]
  · next hnull => simp [hnull, ← Except.ok.inj hrule]
  · next target htarget => simp [htarget, ← Except.ok.inj hrule]
  · cases hrule

theorem exists_isReadFrom_iff : (∃ s, IsReadFrom entry s) ↔ ∃ fields, entry = .object fields ∧ IsStage fields := by
  constructor
  · rintro ⟨s, index, h⟩
    obtain ⟨fields, -, rfl, -⟩ := fields_of_stage h
    exact ⟨fields, rfl, exists_stage_iff.mp ⟨s, h⟩⟩
  · rintro ⟨fields, rfl, h⟩
    obtain ⟨s, hs⟩ : ∃ s, stage 0 (.object fields) = .ok s := exists_stage_iff.mpr h
    exact ⟨s, 0, hs⟩

theorem exists_forall₂_iff : (∃ stages, List.Forall₂ IsReadFrom entries stages) ↔
    ∀ entry ∈ entries, ∃ fields, entry = .object fields ∧ IsStage fields := by
  induction entries with
  | nil => simp
  | cons entry entries ih =>
    rw [List.forall_mem_cons, ← ih, ← exists_isReadFrom_iff]
    constructor
    · rintro ⟨_, _ | ⟨hs, hstages⟩⟩
      exact ⟨⟨_, hs⟩, _, hstages⟩
    · rintro ⟨⟨s, hs⟩, stages, hstages⟩
      exact ⟨s :: stages, .cons hs hstages⟩

/-! ### Reading all stages -/

theorem stagesAfter_eq_ok {before more : List Stage} (h : List.Forall₂ IsReadFrom entries more)
    (hnodup : ((before ++ more).map (·.id)).Nodup) : stagesAfter before entries = .ok (before ++ more) := by
  induction h generalizing before with
  | nil => rw [stagesAfter, List.append_nil]
  | @cons entry s entries more hs _ ih =>
    obtain ⟨index, hs⟩ := hs
    have hfresh : before.findIdx? (·.id == s.id) = none := by
      rw [List.findIdx?_eq_none_iff]
      intro x hx
      rw [List.map_append, List.nodup_append] at hnodup
      simpa using hnodup.2.2 x.id (List.mem_map_of_mem hx) s.id (List.mem_cons_self ..)
    rw [List.append_cons] at hnodup ⊢
    rw [stagesAfter, stage_eq_ok hs]
    simp only [hfresh]
    exact ih hnodup

theorem stagesAfter_nil_iff :
    stagesAfter [] entries = .ok stages ↔ List.Forall₂ IsReadFrom entries stages ∧ (stages.map (·.id)).Nodup := by
  constructor
  · intro h
    obtain ⟨more, rfl, hread⟩ := forall₂_of_stagesAfter h
    exact ⟨hread, (ids_of_stagesAfter h .nil fun s hs => nomatch hs).1⟩
  · rintro ⟨hread, hnodup⟩
    exact stagesAfter_eq_ok hread hnodup

theorem entries_eq_ok_iff :
    Manifest.entries root = .ok entries ↔ Json.field? root "stages" = some (.array entries) ∧ entries ≠ [] := by
  have harray : Json.field? root "stages" = some (.array entries) ↔ present? root "stages" = some (.array entries) := by
    simp [present?_eq_some_iff]
  rw [Manifest.entries, harray]
  cases present? root "stages" with
  | none => simp
  | some value =>
    cases value with
    | array items => cases items <;> simp +contextual [eq_comm]
    | _ => simp

theorem checkReferences_eq_ok_iff : checkReferences ids s = .ok () ↔
    (∀ p ∈ s.parents, p ∈ ids) ∧ ∀ t, s.completesWith = .artifactOf t → t ∈ ids := by
  refine ⟨mem_of_checkReferences, fun ⟨hparents, htarget⟩ => ?_⟩
  have hnone : s.parents.find? (· ∉ ids) = none := List.find?_eq_none.mpr (by simpa using hparents)
  rw [checkReferences, hnone]
  cases hrule : s.completesWith with
  | artifactOf t => simp [htarget t hrule]
  | _ => rfl

theorem forM_eq_ok_iff {ε α : Type} {f : α → Except ε Unit} {l : List α} :
    l.forM f = .ok () ↔ ∀ x ∈ l, f x = .ok () := by
  refine ⟨forM_eq_ok, fun h => ?_⟩
  induction l with
  | nil => rfl
  | cons y l ih =>
    obtain ⟨hy, hl⟩ := List.forall_mem_cons.mp h
    rw [List.forM_eq_forM, List.forM_cons, hy]
    exact ih hl

theorem checked_eq_ok_iff {c : Header × List Stage} : checked (.object root) = .ok c ↔ header root = .ok c.1 ∧
    ∃ entries, Manifest.entries root = .ok entries ∧ stagesAfter [] entries = .ok c.2 ∧
      ∀ s ∈ c.2, checkReferences (c.2.map (·.id)) s = .ok () := by
  constructor
  · intro h
    obtain ⟨header, hheader, h⟩ := bind_eq_ok_iff.mp h
    obtain ⟨entries, hentries, h⟩ := bind_eq_ok_iff.mp h
    obtain ⟨stages, hstages, h⟩ := bind_eq_ok_iff.mp h
    obtain ⟨_, hrefs, h⟩ := bind_eq_ok_iff.mp h
    cases h
    exact ⟨hheader, entries, hentries, hstages, forM_eq_ok hrefs⟩
  · rintro ⟨hheader, entries, hentries, hstages, hrefs⟩
    refine bind_eq_ok_iff.mpr ⟨_, hheader, bind_eq_ok_iff.mpr ⟨_, hentries, bind_eq_ok_iff.mpr ⟨_, hstages, ?_⟩⟩⟩
    exact bind_eq_ok_iff.mpr ⟨(), forM_eq_ok_iff.mpr hrefs, rfl⟩

/-! ### Entries and the graph of their stages -/

section Graph
variable (h : List.Forall₂ IsReadFrom entries stages)
include h

theorem exists_hasId_iff (id : String) : (∃ entry ∈ entries, HasId entry id) ↔ id ∈ stages.map (·.id) :=
  (exists_iff_of_forall₂ h fun _ _ hs => hs.hasId_iff id).trans List.mem_map.symm

theorem distinct_iff : (entries.Pairwise fun entry entry' => ∀ id, HasId entry id → ¬ HasId entry' id) ↔
    (stages.map (·.id)).Nodup := by
  rw [List.Nodup, List.pairwise_map]
  refine pairwise_iff_of_forall₂ h fun entry s entry' s' hs hs' => ?_
  simp only [hs.hasId_iff, hs'.hasId_iff, forall_eq']
  exact ne_comm

theorem parentIn_iff (p id : String) : ParentIn entries p id ↔ id ∈ (StageGraph.ofStages stages).children p := by
  rw [StageGraph.mem_children_iff_mem_parents, StageGraph.mem_parents_ofStages]
  exact exists_iff_of_forall₂ h fun _ _ hs => and_congr (hs.hasId_iff id) (hs.hasParent_iff p)

theorem acyclic_iff : (∀ id, ¬ Relation.TransGen (ParentIn entries) id id) ↔ (StageGraph.ofStages stages).Acyclic := by
  have hedges : ParentIn entries = fun p id => id ∈ (StageGraph.ofStages stages).children p :=
    funext₂ fun p id => propext (parentIn_iff h p id)
  rw [hedges]
  rfl

theorem references_iff : (∀ entry ∈ entries, (∀ p, HasParent entry p → ∃ parent ∈ entries, HasId parent p) ∧
      ∀ t, CompletedBy entry t → ∃ target ∈ entries, HasId target t) ↔
    ∀ s ∈ stages, checkReferences (stages.map (·.id)) s = .ok () := by
  refine forall_iff_of_forall₂ h fun entry s hs => ?_
  rw [checkReferences_eq_ok_iff]
  exact and_congr (forall_congr' fun p => imp_congr (hs.hasParent_iff p) (exists_hasId_iff h p))
    (forall_congr' fun t => imp_congr (hs.completedBy_iff t) (exists_hasId_iff h t))

/-- What is asked of the entries is what is checked of their stages. -/
theorem isStageList_iff : IsStageList entries ↔ entries ≠ [] ∧ (stages.map (·.id)).Nodup ∧
    (∀ s ∈ stages, checkReferences (stages.map (·.id)) s = .ok ()) ∧ (StageGraph.ofStages stages).Acyclic := by
  rw [← distinct_iff h, ← references_iff h, ← acyclic_iff h]
  constructor
  · rintro ⟨hne, -, hdistinct, hparents, htargets, hacyclic⟩
    exact ⟨hne, hdistinct, fun entry hentry => ⟨hparents entry hentry, htargets entry hentry⟩, hacyclic⟩
  · rintro ⟨hne, hdistinct, hrefs, hacyclic⟩
    exact ⟨hne, exists_forall₂_iff.mp ⟨stages, h⟩, hdistinct, fun entry hentry => (hrefs entry hentry).1,
      fun entry hentry => (hrefs entry hentry).2, hacyclic⟩

end Graph

/-- A document is accepted exactly if it is a manifest. -/
theorem exists_ofDocument_iff (document : Json) : (∃ d, ofDocument document = .ok d) ↔ IsManifest document := by
  constructor
  · rintro ⟨d, h⟩
    obtain ⟨hchecked, horder⟩ := checked_of_ofDocument h
    have hacyclic := StageGraph.exists_order_iff (stages_of_checked hchecked).1 (within_of_checked hchecked)
    cases document with
    | object root =>
      obtain ⟨hheader, entries, hentries, hstages, hrefs⟩ := checked_eq_ok_iff.mp hchecked
      obtain ⟨hfield, hne⟩ := entries_eq_ok_iff.mp hentries
      obtain ⟨hread, hnodup⟩ := stagesAfter_nil_iff.mp hstages
      have hlist := (isStageList_iff hread).mpr ⟨hne, hnodup, hrefs, hacyclic.mp ⟨_, horder⟩⟩
      exact .object (exists_header_iff.mp ⟨_, hheader⟩) hfield hlist
    | _ => cases h
  · rintro @⟨root, entries, hheader, hfield, hlist⟩
    obtain ⟨header, hheader⟩ := exists_header_iff.mpr hheader
    obtain ⟨stages, hread⟩ := exists_forall₂_iff.mpr hlist.isStage
    obtain ⟨hne, hnodup, hrefs, hacyclic⟩ := (isStageList_iff hread).mp hlist
    have hstages := stagesAfter_nil_iff.mpr ⟨hread, hnodup⟩
    have hchecked : checked (.object root) = .ok (header, stages) :=
      checked_eq_ok_iff.mpr ⟨hheader, entries, entries_eq_ok_iff.mpr ⟨hfield, hne⟩, hstages, hrefs⟩
    rcases ofDocument_of_checked hchecked with ⟨-, order, h⟩ | ⟨hcyclic, -⟩
    · exact ⟨_, h⟩
    · exact absurd hacyclic hcyclic

end Manifest
end StageLineage
