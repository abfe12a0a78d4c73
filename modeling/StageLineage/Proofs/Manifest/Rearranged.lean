import Mathlib.Data.List.Perm.Basic
import StageLineage.Proofs.Manifest.Cycle
import StageLineage.Proofs.Topology

/-! Manifests that list the same stages in another order. What the reader finds in them agrees up to the order of
    the stages and of their parents, so the graphs have the same edges, and one of them has a cycle if the other
    has one. -/

namespace StageLineage

/-! ### Stages in two orders -/

theorem exists_mem_of_forall₂ {α β : Type} {R : α → β → Prop} {l : List α} {l' : List β} (h : List.Forall₂ R l l') :
    ∀ a ∈ l, ∃ b ∈ l', R a b := by
  induction h with
  | nil => exact fun a ha => nomatch ha
  | @cons a b l l' hab _ ih =>
    intro x hx
    rcases List.mem_cons.mp hx with rfl | hx
    · exact ⟨b, List.mem_cons_self .., hab⟩
    · obtain ⟨y, hy, hxy⟩ := ih x hx
      exact ⟨y, List.mem_cons_of_mem _ hy, hxy⟩

namespace Stage

/-- The stages have the same id and the same parents, and both or neither may be skipped. -/
structure Alike (s s' : Stage) : Prop where
  id_eq : s.id = s'.id
  optional_eq : s.optional = s'.optional
  mem_parents_iff : ∀ p, p ∈ s.parents ↔ p ∈ s'.parents

/-- Lists of stages that are alike, in two orders. -/
def Rearranged (stages stages' : List Stage) : Prop :=
  ∃ same : List Stage, stages.Perm same ∧ List.Forall₂ Alike same stages'

variable {stages stages' : List Stage}

theorem Rearranged.ids_perm (h : Rearranged stages stages') : (stages.map (·.id)).Perm (stages'.map (·.id)) := by
  obtain ⟨same, hperm, halike⟩ := h
  have hids : same.map (·.id) = stages'.map (·.id) := by
    rw [← List.forall₂_eq_eq_eq, List.forall₂_map_left_iff, List.forall₂_map_right_iff]
    exact halike.imp fun _ _ h => h.id_eq
  exact hids ▸ hperm.map _

theorem Rearranged.exists_right (h : Rearranged stages stages') : ∀ s ∈ stages, ∃ s' ∈ stages', s.Alike s' := by
  obtain ⟨same, hperm, halike⟩ := h
  exact fun s hs => exists_mem_of_forall₂ halike s (hperm.mem_iff.mp hs)

theorem Rearranged.exists_left (h : Rearranged stages stages') : ∀ s' ∈ stages', ∃ s ∈ stages, s.Alike s' := by
  obtain ⟨same, hperm, halike⟩ := h
  intro s' hs'
  obtain ⟨s, hs, halike⟩ := exists_mem_of_forall₂ (R := flip Alike) halike.flip s' hs'
  exact ⟨s, hperm.mem_iff.mpr hs, halike⟩

end Stage

namespace StageGraph

theorem mem_parents_iff_of_rearranged {stages stages' : List Stage} (h : Stage.Rearranged stages stages') {p id : String} :
    p ∈ (ofStages stages).parents id ↔ p ∈ (ofStages stages').parents id := by
  rw [mem_parents_ofStages, mem_parents_ofStages]
  constructor
  · rintro ⟨s, hs, rfl, hp⟩
    obtain ⟨s', hs', halike⟩ := h.exists_right s hs
    exact ⟨s', hs', halike.id_eq.symm, (halike.mem_parents_iff p).mp hp⟩
  · rintro ⟨s', hs', rfl, hp⟩
    obtain ⟨s, hs, halike⟩ := h.exists_left s' hs'
    exact ⟨s, hs, halike.id_eq, (halike.mem_parents_iff p).mpr hp⟩

theorem acyclic_iff_of_rearranged {stages stages' : List Stage} (h : Stage.Rearranged stages stages') :
    (ofStages stages).Acyclic ↔ (ofStages stages').Acyclic := by
  have hleads : (ofStages stages).Leads = (ofStages stages').Leads := by
    refine congrArg Relation.TransGen (funext₂ fun x y => propext ?_)
    rw [mem_children_iff_mem_parents, mem_children_iff_mem_parents, mem_parents_iff_of_rearranged h]
  rw [Acyclic, Acyclic, hleads]

end StageGraph

namespace Manifest

/-! ### Documents in two orders -/

/-- Values of `previous` that differ in no more than the order and the repetitions of the parents. -/
inductive SameParents : Option Json → Option Json → Prop
  | absent : SameParents none none
  | listed {items items' : List Json} (h : ∀ p, p ∈ items ↔ p ∈ items') :
    SameParents (some (.array items)) (some (.array items'))

/-- Entries of stages that differ in no more than the order and the repetitions of the parents. -/
inductive SameEntry : Json → Json → Prop
  | object {fields fields' : Fields} (hother : ∀ key, key ≠ "previous" → Json.field? fields key = Json.field? fields' key)
    (hprevious : SameParents (present? fields "previous") (present? fields' "previous")) :
    SameEntry (.object fields) (.object fields')

/-- Documents that list the same stages in two orders. -/
inductive Rearranged : Json → Json → Prop
  | object {root root' : Fields} {entries entries' same : List Json}
    (hentries : Json.field? root "stages" = some (.array entries))
    (hentries' : Json.field? root' "stages" = some (.array entries'))
    (hperm : entries.Perm same) (hsame : List.Forall₂ SameEntry same entries') :
    Rearranged (.object root) (.object root')

/-! ### Entries -/

theorem texts_eq_ok_iff {stage : Option String} {field : String} {items : List Json} {l : List String} :
    texts stage field items = .ok l ↔ items = l.map .string := by
  fun_induction texts stage field items generalizing l with
  | case1 => simp [eq_comm]
  | case2 text items ih =>
    cases l with
    | nil =>
      cases texts stage field items <;> simp [Except.map]
    | cons x l =>
      simp only [List.map_cons, List.cons.injEq, ← ih]
      cases texts stage field items <;> simp [Except.map]
  | case3 item items hne =>
    cases l with
    | nil => simp
    | cons x l =>
      simp only [List.map_cons, List.cons.injEq, reduceCtorEq, false_iff, not_and]
      exact fun heq => absurd heq (hne x)

theorem present?_of_texts? {stage : Option String} {fields : Fields} {field : String} {l : Option (List String)}
    (h : texts? stage fields field = .ok l) : present? fields field = l.map fun l => .array (l.map .string) := by
  unfold texts? at h
  split at h
  · next hnone =>
    cases h
    exact hnone
  · next items hitems =>
    cases htexts : texts stage field items with
    | error e => simp [htexts, Except.map] at h
    | ok texts =>
      obtain rfl : some texts = l := by simpa [htexts, Except.map] using h
      rw [hitems, texts_eq_ok_iff.mp htexts]
      rfl
  · cases h

theorem present?_of_boolean? {stage : Option String} {fields : Fields} {field : String} {b : Option Bool}
    (h : boolean? stage fields field = .ok b) : present? fields field = b.map .bool := by
  unfold boolean? at h
  split at h <;> cases h <;> assumption

theorem present?_of_stageId {index : Nat} {fields : Fields} {id : String} (h : stageId index fields = .ok id) :
    present? fields "id" = some (.string id) := by
  unfold stageId at h
  split at h
  · cases h
  · split at h
    · cases h
      assumption
    · cases h
  · cases h

/-- What a stage that was read says of itself and its parents stands in its entry. -/
theorem fields_of_stage {index : Nat} {entry : Json} {s : Stage} (h : stage index entry = .ok s) :
    ∃ (fields : Fields) (b : Option Bool), entry = .object fields ∧ present? fields "id" = some (.string s.id) ∧
      present? fields "previous" = (s.previous.map fun l => .array (l.map .string)) ∧
      present? fields "optional" = b.map .bool ∧ s.optional = b.getD false := by
  obtain ⟨fields, hfields, h⟩ := bind_eq_ok_iff.mp h
  obtain ⟨id, hid, h⟩ := bind_eq_ok_iff.mp h
  obtain ⟨_, -, h⟩ := bind_eq_ok_iff.mp h
  obtain ⟨_, -, h⟩ := bind_eq_ok_iff.mp h
  obtain ⟨previous, hprevious, h⟩ := bind_eq_ok_iff.mp h
  iterate 3 obtain ⟨_, -, h⟩ := bind_eq_ok_iff.mp h
  obtain ⟨optional, hoptional, h⟩ := bind_eq_ok_iff.mp h
  iterate 5 obtain ⟨_, -, h⟩ := bind_eq_ok_iff.mp h
  cases h
  refine ⟨fields, optional, ?_, present?_of_stageId hid, present?_of_texts? hprevious,
    present?_of_boolean? hoptional, rfl⟩
  unfold stageFields at hfields
  split at hfields
  · cases hfields
    rfl
  · cases hfields

theorem SameParents.mem_iff {l l' : Option (List String)}
    (h : SameParents (l.map fun l => .array (l.map .string)) (l'.map fun l => .array (l.map .string))) (p : String) :
    p ∈ l.getD [] ↔ p ∈ l'.getD [] := by
  cases l with
  | none =>
    cases l' with
    | none => rfl
    | some l' => nomatch h
  | some l =>
    cases l' with
    | none => nomatch h
    | some l' =>
      cases h with
      | listed h => simpa using h (.string p)

theorem SameEntry.alike {index index' : Nat} {entry entry' : Json} {s s' : Stage} (h : SameEntry entry entry')
    (hs : stage index entry = .ok s) (hs' : stage index' entry' = .ok s') : s.Alike s' := by
  obtain ⟨fields, b, rfl, hid, hprevious, hb, hoptional⟩ := fields_of_stage hs
  obtain ⟨fields', b', rfl, hid', hprevious', hb', hoptional'⟩ := fields_of_stage hs'
  cases h with
  | object hother hsame =>
    have hpresent : ∀ key, key ≠ "previous" → present? fields key = present? fields' key := fun key hkey => by
      rw [present?, present?, hother key hkey]
    refine ⟨?_, ?_, ?_⟩
    · rw [hpresent "id" (by decide), hid'] at hid
      exact (Json.string.inj (Option.some.inj hid)).symm
    · rw [hpresent "optional" (by decide), hb'] at hb
      rw [hoptional, hoptional', Option.map_injective (fun _ _ => Json.bool.inj) hb]
    · rw [hprevious, hprevious'] at hsame
      exact hsame.mem_iff

/-! ### Stages -/

/-- A stage is read from an entry, wherever that stands. -/
def IsReadFrom (entry : Json) (s : Stage) : Prop := ∃ index, stage index entry = .ok s

/-- Each further stage is read from its entry. -/
theorem forall₂_of_stagesAfter {before : List Stage} {entries : List Json} {stages : List Stage}
    (h : stagesAfter before entries = .ok stages) :
    ∃ more, stages = before ++ more ∧ List.Forall₂ IsReadFrom entries more := by
  induction entries generalizing before with
  | nil =>
    cases h
    exact ⟨[], (List.append_nil _).symm, .nil⟩
  | cons entry entries ih =>
    simp only [stagesAfter] at h
    split at h
    · cases h
    · next s hs =>
      split at h
      · cases h
      · obtain ⟨more, rfl, hmore⟩ := ih h
        exact ⟨s :: more, by simp, .cons ⟨_, hs⟩ hmore⟩

theorem forall₂_of_checked {root : Fields} {entries : List Json} {c : Header × List Stage}
    (hentries : Json.field? root "stages" = some (.array entries)) (h : checked (.object root) = .ok c) :
    List.Forall₂ IsReadFrom entries c.2 := by
  obtain ⟨_, -, h⟩ := bind_eq_ok_iff.mp h
  obtain ⟨entries', hentries', h⟩ := bind_eq_ok_iff.mp h
  obtain ⟨stages, hstages, h⟩ := bind_eq_ok_iff.mp h
  obtain ⟨_, -, h⟩ := bind_eq_ok_iff.mp h
  cases h
  have hsame : entries = entries' := by
    rw [Manifest.entries, present?, hentries] at hentries'
    cases entries with
    | nil => cases hentries'
    | cons entry entries => exact Except.ok.inj hentries'
  obtain ⟨more, rfl, hmore⟩ := forall₂_of_stagesAfter hstages
  exact hsame ▸ hmore

theorem forall₂_alike {entries entries' : List Json} {stages stages' : List Stage}
    (h : List.Forall₂ SameEntry entries entries') (hs : List.Forall₂ IsReadFrom entries stages)
    (hs' : List.Forall₂ IsReadFrom entries' stages') :
    List.Forall₂ Stage.Alike stages stages' := by
  induction h generalizing stages stages' with
  | nil =>
    cases hs
    cases hs'
    exact .nil
  | cons hsame _ ih =>
    cases hs with
    | cons hread hs =>
      cases hs' with
      | cons hread' hs' =>
        obtain ⟨_, hread⟩ := hread
        obtain ⟨_, hread'⟩ := hread'
        exact .cons (hsame.alike hread hread') (ih hs hs')

/-- The stages that are read are alike, in two orders. -/
theorem Rearranged.stages {document document' : Json} {c c' : Header × List Stage}
    (h : Rearranged document document') (hc : checked document = .ok c) (hc' : checked document' = .ok c') :
    Stage.Rearranged c.2 c'.2 := by
  cases h with
  | object hentries hentries' hperm hsame =>
    obtain ⟨same, hread, hstages⟩ := List.perm_comp_forall₂ hperm.symm (forall₂_of_checked hentries hc)
    exact ⟨same, hstages.symm, forall₂_alike hsame hread (forall₂_of_checked hentries' hc')⟩

theorem within_of_checked {document : Json} {c : Header × List Stage} (h : checked document = .ok c) :
    (StageGraph.ofStages c.2).Within := by
  intro p id hid
  obtain ⟨s, hs, rfl, hp⟩ := StageGraph.mem_parents_ofStages.mp (StageGraph.mem_children_iff_mem_parents.mp hid)
  obtain ⟨-, -, hrefs⟩ := stages_of_checked h
  exact ⟨(mem_of_checkReferences (hrefs s hs)).1 p hp, List.mem_map_of_mem hs⟩

/-- A document that passes the other checks is accepted if its graph has no cycle, and refused for a cycle if not. -/
theorem ofDocument_of_checked {document : Json} {c : Header × List Stage} (h : checked document = .ok c) :
    (StageGraph.ofStages c.2).Acyclic ∧ (∃ order, ofDocument document = .ok ⟨c.1, c.2, order⟩) ∨
      ¬ (StageGraph.ofStages c.2).Acyclic ∧ ∃ x, ofDocument document = .error (.cycle x) := by
  have hacyclic := StageGraph.exists_order_iff (stages_of_checked h).1 (within_of_checked h)
  cases horder : (StageGraph.ofStages c.2).order with
  | ok order => exact Or.inl ⟨hacyclic.mp ⟨order, horder⟩, order, ofDocument_eq_ok h horder⟩
  | error x =>
    refine Or.inr ⟨fun h => ?_, x, by simp [ofDocument_eq, h, bind, Except.bind, horder]⟩
    obtain ⟨order, hok⟩ := hacyclic.mpr h
    exact nomatch horder.symm.trans hok

end Manifest

namespace Definition
variable {d d' : Definition}

/-- The definitions have the same stages, which have the same parents and may be skipped alike. -/
structure Alike (d d' : Definition) : Prop where
  ids_perm : d.ids.Perm d'.ids
  isOptional_eq : ∀ id, d.isOptional id = d'.isOptional id
  mem_parents_iff : ∀ id p, p ∈ d.parents id ↔ p ∈ d'.parents id

theorem stage?_of_rearranged (wf' : d'.WellFormed) (h : Stage.Rearranged d.stages d'.stages) (id : String) :
    d.stage? id = none ∧ d'.stage? id = none ∨ ∃ s s', d.stage? id = some s ∧ d'.stage? id = some s' ∧ s.Alike s' := by
  cases hs : d.stage? id with
  | none =>
    rw [stage?_eq_none_iff, ids, h.ids_perm.mem_iff] at hs
    exact Or.inl ⟨rfl, stage?_eq_none_iff.mpr hs⟩
  | some s =>
    obtain ⟨hmem, rfl⟩ := stage?_eq_some hs
    obtain ⟨s', hs', halike⟩ := h.exists_right s hmem
    exact Or.inr ⟨s, s', rfl, halike.id_eq ▸ wf'.stage?_of_mem hs', halike⟩

theorem alike_of_rearranged (wf' : d'.WellFormed) (h : Stage.Rearranged d.stages d'.stages) : d.Alike d' where
  ids_perm := h.ids_perm
  isOptional_eq id := by
    rcases stage?_of_rearranged wf' h id with ⟨hs, hs'⟩ | ⟨s, s', hs, hs', halike⟩
    · simp [isOptional, hs, hs']
    · simp [isOptional, hs, hs', halike.optional_eq]
  mem_parents_iff id p := by
    rcases stage?_of_rearranged wf' h id with ⟨hs, hs'⟩ | ⟨s, s', hs, hs', halike⟩
    · simp [parents, hs, hs']
    · rw [parents_of_stage? hs, parents_of_stage? hs']
      exact halike.mem_parents_iff p

end Definition
end StageLineage
