import StageLineage.Proofs.Manifest.Accepted

/-! Which of its faults a document is refused for. Each entry is read and compared with those before it, then each stage
    is asked for what it names, and only then the graph is searched for a cycle. -/

namespace StageLineage
variable {α β : Type}

/-! ### Lists -/

theorem exists_first {P : α → Prop} {l : List α} (h : ∃ x ∈ l, P x) :
    ∃ first x rest, l = first ++ x :: rest ∧ P x ∧ ∀ y ∈ first, ¬ P y := by
  induction l with
  | nil => simp at h
  | cons y l ih =>
    by_cases hy : P y
    · exact ⟨[], y, l, rfl, hy, fun _ hx => nomatch hx⟩
    · obtain ⟨first, x, rest, rfl, hx, hfirst⟩ := ih (by simpa [hy] using h)
      exact ⟨y :: first, x, rest, rfl, hx, List.forall_mem_cons.mpr ⟨hy, hfirst⟩⟩

theorem forall₂_append_cons {R : α → β → Prop} {first rest : List α} {x : α} {l : List β}
    (h : List.Forall₂ R (first ++ x :: rest) l) : ∃ first' y rest', l = first' ++ y :: rest' ∧
      List.Forall₂ R first first' ∧ R x y := by
  induction first generalizing l with
  | nil =>
    cases h with
    | @cons _ y _ rest' hy _ => exact ⟨[], y, rest', rfl, .nil, hy⟩
  | cons z first ih =>
    cases h with
    | @cons _ z' _ _ hz h =>
      obtain ⟨first', y, rest', rfl, hfirst, hy⟩ := ih h
      exact ⟨z' :: first', y, rest', rfl, .cons hz hfirst, hy⟩

/-! ### Causes -/

/-- The causes that lie in one entry, whatever the others hold. -/
def ManifestError.InEntry : ManifestError → Prop
  | duplicateStageId .. | unknownParent .. | unknownTarget .. | cycle _ => False
  | _ => True

namespace Manifest
variable {stage? : Option String} {root fields : Fields} {field id : String} {index : Nat} {e : ManifestError}
  {before after entries : List Json} {entry : Json} {s : Stage} {stages : List Stage}

/-! ### Faults -/

def IsEntry (entry : Json) : Prop := ∃ fields, entry = .object fields ∧ IsStage fields

def Repeats (before : List Json) (entry : Json) : Prop := ∃ f ∈ before, ∃ id, HasId f id ∧ HasId entry id

def Declared (entries : List Json) (id : String) : Prop := ∃ entry ∈ entries, HasId entry id

/-- The entry names a stage that is not there. -/
def Dangles (entries : List Json) (entry : Json) : Prop :=
  ∃ q, (HasParent entry q ∨ CompletedBy entry q) ∧ ¬ Declared entries q

/-- Each entry is one of a stage, and no id is there twice. -/
structure Sound (entries : List Json) : Prop where
  isEntry : ∀ entry ∈ entries, IsEntry entry
  distinct : entries.Pairwise fun entry entry' => ∀ id, HasId entry id → ¬ HasId entry' id

/-- The first fault of a list of entries. What they name comes after what they are, and in an entry the parents, in
    their order, come before the stage that completes it. -/
inductive FirstFault (entries : List Json) : ManifestError → Prop
  | malformed {before after : List Json} {entry : Json} {e : ManifestError} : entries = before ++ entry :: after →
      Sound before → stage before.length entry = .error e → FirstFault entries e
  | repeated {before after first rest : List Json} {f entry : Json} {id : String} : entries = before ++ entry :: after →
      Sound before → IsEntry entry → HasId entry id → before = first ++ f :: rest → HasId f id →
      (∀ x ∈ first, ¬ HasId x id) → FirstFault entries (.duplicateStageId id first.length before.length)
  | parent {before after : List Json} {fields : Fields} {id p : String} {known rest : List String} : Sound entries →
      entries = before ++ .object fields :: after → (∀ x ∈ before, ¬ Dangles entries x) → HasId (.object fields) id →
      Json.field? fields "previous" = some (.array ((known ++ p :: rest).map .string)) →
      (∀ q ∈ known, Declared entries q) → ¬ Declared entries p → FirstFault entries (.unknownParent id p)
  | target {before after : List Json} {entry : Json} {id t : String} : Sound entries →
      entries = before ++ entry :: after → (∀ x ∈ before, ¬ Dangles entries x) → HasId entry id →
      (∀ q, HasParent entry q → Declared entries q) → CompletedBy entry t → ¬ Declared entries t →
      FirstFault entries (.unknownTarget id t)

/-! ### Errors of a single entry -/

/-- Where a result is an error, its cause lies in one entry. -/
def FailsInEntry (r : Except ManifestError α) : Prop := ∀ e, r = .error e → e.InEntry

theorem FailsInEntry.ok {a : α} : FailsInEntry (.ok a) := fun _ h => nomatch h

theorem FailsInEntry.error (h : e.InEntry) : FailsInEntry (.error e : Except ManifestError α) := by
  rintro e ⟨⟩
  exact h

theorem FailsInEntry.bind {r : Except ManifestError α} {f : α → Except ManifestError β} (hr : FailsInEntry r)
    (hf : ∀ a, FailsInEntry (f a)) : FailsInEntry (r >>= f) := by
  intro e h
  cases r with
  | error e' =>
    cases h
    exact hr e rfl
  | ok a => exact hf a e h

theorem FailsInEntry.map {r : Except ManifestError α} {f : α → β} (hr : FailsInEntry r) : FailsInEntry (r.map f) := by
  intro e h
  cases r with
  | error e' =>
    cases h
    exact hr e rfl
  | ok a => exact nomatch h

theorem failsInEntry_text? : FailsInEntry (text? stage? fields field) := by
  unfold text?
  split
  · exact .ok
  · exact .ok
  · exact .error trivial

theorem failsInEntry_boolean? : FailsInEntry (boolean? stage? fields field) := by
  unfold boolean?
  split
  · exact .ok
  · exact .ok
  · exact .error trivial

theorem failsInEntry_texts {items : List Json} : FailsInEntry (texts stage? field items) := by
  fun_induction texts stage? field items with
  | case1 => exact .ok
  | case2 text items ih => exact ih.map
  | case3 => exact .error trivial

theorem failsInEntry_texts? : FailsInEntry (texts? stage? fields field) := by
  unfold texts?
  split
  · exact .ok
  · exact failsInEntry_texts.map
  · exact .error trivial

theorem failsInEntry_stageFields : FailsInEntry (stageFields index entry) := by
  cases entry with
  | object fields => exact .ok
  | _ => exact .error trivial

theorem failsInEntry_stageId : FailsInEntry (stageId index fields) := by
  unfold stageId
  split
  · exact .error trivial
  · split
    · exact .ok
    · exact .error trivial
  · exact .error trivial

theorem failsInEntry_produces : FailsInEntry (produces id fields) := by
  unfold produces
  split
  · exact .error trivial
  · split
    · exact .error trivial
    · exact failsInEntry_texts
  · exact .error trivial

theorem failsInEntry_handler? : FailsInEntry (handler? id fields) := by
  unfold handler?
  split
  · split
    · exact .ok
    · exact .error trivial
  · exact failsInEntry_text?

theorem failsInEntry_completesWith : FailsInEntry (completesWith id fields) := by
  unfold completesWith
  split
  · exact .ok
  · exact .ok
  · exact .ok
  · exact .error trivial

theorem failsInEntry_skipWarning? : FailsInEntry (skipWarning? id fields) := by
  unfold skipWarning?
  split
  · exact .ok
  · exact .ok
  · split
    · exact .ok
    · exact .error trivial
  · exact .error trivial

theorem failsInEntry_blueprint : FailsInEntry (blueprint id fields) := by
  unfold blueprint
  split
  · exact .ok
  · exact .ok
  · exact .error trivial

theorem failsInEntry_stage : FailsInEntry (stage index entry) :=
  failsInEntry_stageFields.bind fun _ => failsInEntry_stageId.bind fun _ => failsInEntry_produces.bind fun _ =>
    failsInEntry_handler?.bind fun _ => failsInEntry_texts?.bind fun _ => failsInEntry_completesWith.bind fun _ =>
    failsInEntry_text?.bind fun _ => failsInEntry_text?.bind fun _ => failsInEntry_boolean?.bind fun _ =>
    failsInEntry_text?.bind fun _ => failsInEntry_texts?.bind fun _ => failsInEntry_skipWarning?.bind fun _ =>
    failsInEntry_text?.bind fun _ => failsInEntry_blueprint.bind fun _ => .ok

/-! ### The entries -/

theorem stagesAfter_append {read : List Stage} {more : List Json} :
    stagesAfter read (entries ++ more) = stagesAfter read entries >>= fun stages => stagesAfter stages more := by
  induction entries generalizing read with
  | nil => rfl
  | cons entry entries ih =>
    rw [List.cons_append, stagesAfter, stagesAfter]
    cases stage read.length entry with
    | error e => rfl
    | ok s =>
      cases hfirst : read.findIdx? (·.id == s.id) with
      | some first => simp only [hfirst]; rfl
      | none => simp only [hfirst]; exact ih

theorem sound_iff : Sound entries ↔ ∃ stages, stagesAfter [] entries = .ok stages := by
  constructor
  · rintro ⟨hentries, hdistinct⟩
    obtain ⟨stages, hread⟩ := exists_forall₂_iff.mpr hentries
    exact ⟨stages, stagesAfter_nil_iff.mpr ⟨hread, (distinct_iff hread).mp hdistinct⟩⟩
  · rintro ⟨stages, h⟩
    obtain ⟨hread, hnodup⟩ := stagesAfter_nil_iff.mp h
    exact ⟨exists_forall₂_iff.mp ⟨stages, hread⟩, (distinct_iff hread).mpr hnodup⟩

theorem sound_concat_iff : Sound (before ++ [entry]) ↔ Sound before ∧ IsEntry entry ∧ ¬ Repeats before entry := by
  have hrepeats : ¬ Repeats before entry ↔ ∀ f ∈ before, ∀ id, HasId f id → ¬ HasId entry id := by
    simp only [Repeats, not_exists, not_and]
  rw [hrepeats]
  constructor
  · rintro ⟨hentries, hdistinct⟩
    obtain ⟨hbefore, hentry⟩ := List.forall_mem_append.mp hentries
    obtain ⟨hpairs, -, hlast⟩ := List.pairwise_append.mp hdistinct
    refine ⟨⟨hbefore, hpairs⟩, List.forall_mem_singleton.mp hentry, ?_⟩
    intro f hf
    exact hlast f hf entry (List.mem_singleton.mpr rfl)
  · rintro ⟨⟨hbefore, hpairs⟩, hentry, hlast⟩
    refine ⟨List.forall_mem_append.mpr ⟨hbefore, List.forall_mem_singleton.mpr hentry⟩, ?_⟩
    refine List.pairwise_append.mpr ⟨hpairs, List.pairwise_singleton .., fun f hf x hx => ?_⟩
    obtain rfl := List.mem_singleton.mp hx
    exact hlast f hf

/-- Where entries are not sound, there is a first one that spoils them. -/
theorem exists_of_not_sound (h : ¬ Sound entries) : ∃ before entry after, entries = before ++ entry :: after ∧
    Sound before ∧ (¬ IsEntry entry ∨ Repeats before entry) := by
  induction entries using List.reverseRecOn with
  | nil => exact absurd (sound_iff.mpr ⟨[], rfl⟩) h
  | append_singleton before entry ih =>
    by_cases hbefore : Sound before
    · refine ⟨before, entry, [], rfl, hbefore, ?_⟩
      by_contra hentry
      rw [not_or, not_not] at hentry
      exact h (sound_concat_iff.mpr ⟨hbefore, hentry⟩)
    · obtain ⟨first, x, rest, rfl, hx⟩ := ih hbefore
      exact ⟨first, x, rest ++ [entry], by simp, hx⟩

theorem stagesAfter_eq_error (hbefore : stagesAfter [] before = .ok stages)
    (hentry : stagesAfter stages [entry] = .error e) : stagesAfter [] (before ++ entry :: after) = .error e := by
  rw [List.append_cons, stagesAfter_append, stagesAfter_append, hbefore, ok_bind, hentry]
  rfl

theorem stagesAfter_malformed (hbefore : Sound before) (h : stage before.length entry = .error e) :
    stagesAfter [] (before ++ entry :: after) = .error e := by
  obtain ⟨stages, hstages⟩ := sound_iff.mp hbefore
  refine stagesAfter_eq_error hstages ?_
  rw [stagesAfter, ← (stagesAfter_nil_iff.mp hstages).1.length_eq, h]

theorem stagesAfter_repeated {first rest : List Json} {f : Json} (hbefore : Sound (first ++ f :: rest))
    (hentry : IsEntry entry) (hid : HasId entry id) (hf : HasId f id) (hfirst : ∀ x ∈ first, ¬ HasId x id) :
    stagesAfter [] (first ++ f :: rest ++ entry :: after) =
      .error (.duplicateStageId id first.length (first ++ f :: rest).length) := by
  obtain ⟨stages, hstages⟩ := sound_iff.mp hbefore
  have hread := (stagesAfter_nil_iff.mp hstages).1
  refine stagesAfter_eq_error hstages ?_
  obtain ⟨s, index, hs⟩ := exists_isReadFrom_iff.mpr hentry
  obtain rfl := (IsReadFrom.hasId_iff ⟨index, hs⟩ id).mp hid
  rw [stagesAfter, ← hread.length_eq, stage_eq_ok hs]
  obtain ⟨first', f', rest', rfl, hfirst', hf'⟩ := forall₂_append_cons hread
  have hnone : first'.findIdx? (·.id == s.id) = none := by
    rw [List.findIdx?_eq_none_iff]
    simpa using (forall_iff_of_forall₂ hfirst' fun _ _ hx => not_congr (hx.hasId_iff s.id)).mp hfirst
  have hsome : (first' ++ f' :: rest').findIdx? (·.id == s.id) = some first.length := by
    simp [List.findIdx?_append, hnone, List.findIdx?_cons, (hf'.hasId_iff s.id).mp hf, hfirst'.length_eq]
  simp only [hsome]

/-! ### What the stages name -/

theorem IsReadFrom.parents_eq {names : List String} (hs : IsReadFrom (.object fields) s)
    (h : Json.field? fields "previous" = some (.array (names.map .string))) : s.parents = names := by
  obtain ⟨index, hs⟩ := hs
  obtain ⟨_, _, ⟨⟩, -, hprevious, -⟩ := fields_of_stage hs
  rw [present?_eq_some_iff.mpr ⟨h, by simp⟩] at hprevious
  obtain ⟨l, hl, heq⟩ := Option.map_eq_some_iff.mp hprevious.symm
  rw [Stage.parents, hl]
  exact List.map_injective_iff.mpr (fun _ _ => Json.string.inj) (Json.array.inj heq)

section References
variable (hread : List.Forall₂ IsReadFrom entries stages)
include hread

theorem declared_iff : Declared entries id ↔ id ∈ stages.map (·.id) := exists_hasId_iff hread id

theorem not_dangles_iff (hs : IsReadFrom entry s) :
    ¬ Dangles entries entry ↔ checkReferences (stages.map (·.id)) s = .ok () := by
  simp only [Dangles, not_exists, not_and, not_not, or_imp, forall_and, hs.hasParent_iff, hs.completedBy_iff,
    declared_iff hread, checkReferences_eq_ok_iff]

theorem checkReferences_parent {p : String} {known rest : List String} (hs : IsReadFrom (.object fields) s)
    (hid : HasId (.object fields) id)
    (hprevious : Json.field? fields "previous" = some (.array ((known ++ p :: rest).map .string)))
    (hknown : ∀ q ∈ known, Declared entries q) (hp : ¬ Declared entries p) :
    checkReferences (stages.map (·.id)) s = .error (.unknownParent id p) := by
  obtain rfl := (hs.hasId_iff id).mp hid
  have hfind : s.parents.find? (· ∉ stages.map (·.id)) = some p := by
    rw [hs.parents_eq hprevious, List.find?_eq_some_iff_append]
    simp only [declared_iff hread] at hknown hp
    exact ⟨by simpa using hp, known, rest, rfl, by simpa using hknown⟩
  rw [checkReferences, hfind]

theorem checkReferences_target {t : String} (hs : IsReadFrom entry s) (hid : HasId entry id)
    (hparents : ∀ q, HasParent entry q → Declared entries q) (ht : CompletedBy entry t)
    (htarget : ¬ Declared entries t) :
    checkReferences (stages.map (·.id)) s = .error (.unknownTarget id t) := by
  obtain rfl := (hs.hasId_iff id).mp hid
  simp only [declared_iff hread, hs.hasParent_iff] at hparents htarget
  have hnone : s.parents.find? (· ∉ stages.map (·.id)) = none := List.find?_eq_none.mpr (by simpa using hparents)
  rw [checkReferences, hnone, (hs.completedBy_iff t).mp ht]
  exact if_neg htarget

/-- The stages of the entries before pass the check, so it ends with the stage of the entry. -/
theorem forM_checkReferences (hentries : entries = before ++ entry :: after)
    (hbefore : ∀ x ∈ before, ¬ Dangles entries x)
    (hentry : ∀ s, IsReadFrom entry s → checkReferences (stages.map (·.id)) s = .error e) :
    stages.forM (checkReferences (stages.map (·.id))) = .error e := by
  obtain ⟨first, s, rest, hstages, hfirst, hs⟩ := forall₂_append_cons (hentries ▸ hread)
  have hok : first.forM (checkReferences (stages.map (·.id))) = .ok () :=
    forM_eq_ok_iff.mpr ((forall_iff_of_forall₂ hfirst fun _ _ hx => not_dangles_iff hread hx).mp hbefore)
  have herror := hentry s hs
  generalize checkReferences (stages.map (·.id)) = check at hok herror
  rw [List.forM_eq_forM] at hok ⊢
  rw [hstages, List.forM_append, hok, List.forM_cons, herror]
  rfl

end References

/-! ### The document -/

section Document
variable (header : IsHeader root) (hentries : Manifest.entries root = .ok entries)
include header hentries

theorem checked_of_stagesAfter (h : stagesAfter [] entries = .error e) : checked (.object root) = .error e := by
  obtain ⟨header, hheader⟩ := exists_header_iff.mpr header
  rw [checked, hheader, ok_bind, hentries, ok_bind, h]
  rfl

theorem checked_of_checkReferences (hsound : Sound entries) (hsplit : entries = before ++ entry :: after)
    (hbefore : ∀ x ∈ before, ¬ Dangles entries x)
    (hentry : ∀ stages s, List.Forall₂ IsReadFrom entries stages → IsReadFrom entry s →
      checkReferences (stages.map (·.id)) s = .error e) : checked (.object root) = .error e := by
  obtain ⟨header, hheader⟩ := exists_header_iff.mpr header
  obtain ⟨stages, hstages⟩ := sound_iff.mp hsound
  have hread := (stagesAfter_nil_iff.mp hstages).1
  have hrefs := forM_checkReferences hread hsplit hbefore fun s hs => hentry stages s hread hs
  rw [checked, hheader, ok_bind, hentries, ok_bind, hstages, ok_bind, hrefs]
  rfl

theorem checked_of_firstFault (h : FirstFault entries e) : checked (.object root) = .error e := by
  cases h with
  | malformed hsplit hbefore he =>
    exact checked_of_stagesAfter header hentries (hsplit ▸ stagesAfter_malformed hbefore he)
  | repeated hsplit hbefore hentry hid hf hfid hfirst =>
    subst hsplit hf
    exact checked_of_stagesAfter header hentries (stagesAfter_repeated hbefore hentry hid hfid hfirst)
  | parent hsound hsplit hbefore hid hprevious hknown hp =>
    refine checked_of_checkReferences header hentries hsound hsplit hbefore ?_
    intro stages s hread hs
    exact checkReferences_parent hread hs hid hprevious hknown hp
  | target hsound hsplit hbefore hid hparents ht htarget =>
    refine checked_of_checkReferences header hentries hsound hsplit hbefore ?_
    intro stages s hread hs
    exact checkReferences_target hread hs hid hparents ht htarget

end Document

/-! ### Any fault comes down to a first one -/

theorem isEntry_iff_exists_stage (index : Nat) : IsEntry entry ↔ ∃ s, stage index entry = .ok s := by
  rw [IsEntry, ← exists_isReadFrom_iff]
  constructor
  · rintro ⟨s, index', hs⟩
    exact ⟨s, stage_eq_ok hs index⟩
  · rintro ⟨s, hs⟩
    exact ⟨s, index, hs⟩

theorem IsEntry.exists_hasId (h : IsEntry entry) : ∃ id, HasId entry id := by
  obtain ⟨fields, rfl, hstage⟩ := h
  obtain ⟨_, hid, id, rfl, -⟩ := hstage.id
  exact ⟨id, fields, rfl, hid⟩

theorem Sound.of_append (h : Sound (before ++ after)) : Sound before where
  isEntry x hx := h.isEntry x (List.mem_append_left _ hx)
  distinct := (List.pairwise_append.mp h.distinct).1

theorem FirstFault.exists_of_not_sound (h : ¬ Sound entries) : ∃ e, FirstFault entries e := by
  obtain ⟨before, entry, after, hsplit, hbefore, hfault⟩ := Manifest.exists_of_not_sound h
  cases hstage : stage before.length entry with
  | error e => exact ⟨e, .malformed hsplit hbefore hstage⟩
  | ok s =>
    have hentry : IsEntry entry := (isEntry_iff_exists_stage before.length).mpr ⟨s, hstage⟩
    obtain ⟨f, hf, id, hfid, hid⟩ := hfault.resolve_left (not_not_intro hentry)
    obtain ⟨first, f, rest, hsplit', hfid, hfirst⟩ := exists_first (P := (HasId · id)) ⟨f, hf, hfid⟩
    exact ⟨_, .repeated hsplit hbefore hentry hid hsplit' hfid hfirst⟩

theorem FirstFault.exists_of_dangles (hsound : Sound entries) (h : ∃ entry ∈ entries, Dangles entries entry) :
    ∃ e, FirstFault entries e := by
  obtain ⟨before, entry, after, hsplit, ⟨q, hq, hundeclared⟩, hbefore⟩ := exists_first h
  have hentry : IsEntry entry := hsound.isEntry entry (hsplit ▸ List.mem_append_right _ (List.mem_cons_self ..))
  obtain ⟨id, hid⟩ := hentry.exists_hasId
  by_cases hparents : ∀ q, HasParent entry q → Declared entries q
  · have htarget : CompletedBy entry q := hq.resolve_left fun hparent => hundeclared (hparents q hparent)
    exact ⟨_, .target hsound hsplit hbefore hid hparents htarget hundeclared⟩
  · simp only [not_forall] at hparents
    obtain ⟨p, ⟨fields, items, rfl, hprevious, hmem⟩, hp⟩ := hparents
    obtain ⟨_, ⟨⟩, hstage⟩ := hentry
    obtain ⟨names, hnames⟩ := (hstage.previous _ hprevious).resolve_left (by simp)
    obtain rfl := Json.array.inj hnames
    have hmem : p ∈ names := by simpa using hmem
    obtain ⟨known, p, rest, rfl, hp, hknown⟩ := exists_first (P := fun p => ¬ Declared entries p) ⟨p, hmem, hp⟩
    exact ⟨_, .parent hsound hsplit hbefore hid hprevious (fun x hx => not_not.mp (hknown x hx)) hp⟩

theorem exists_firstFault_iff : (∃ e, FirstFault entries e) ↔
    (∃ before entry after, entries = before ++ entry :: after ∧ (¬ IsEntry entry ∨ Repeats before entry)) ∨
      ∃ entry ∈ entries, Dangles entries entry := by
  constructor
  · rintro ⟨e, h⟩
    cases h with
    | malformed hsplit _ he =>
      refine Or.inl ⟨_, _, _, hsplit, Or.inl fun hentry => ?_⟩
      obtain ⟨s, hs⟩ := (isEntry_iff_exists_stage _).mp hentry
      exact nomatch he.symm.trans hs
    | repeated hsplit _ _ hid hf hfid _ =>
      refine Or.inl ⟨_, _, _, hsplit, Or.inr ⟨_, ?_, _, hfid, hid⟩⟩
      simp [hf]
    | parent _ hsplit _ _ hprevious _ hp =>
      refine Or.inr ⟨_, ?_, _, Or.inl ⟨_, _, rfl, hprevious, ?_⟩, hp⟩
      · simp [hsplit]
      · simp
    | target _ hsplit _ _ _ ht htarget =>
      refine Or.inr ⟨_, ?_, _, Or.inr ht, htarget⟩
      simp [hsplit]
  · intro h
    by_cases hsound : Sound entries
    · rcases h with ⟨before, entry, after, rfl, hfault⟩ | hdangles
      · rw [List.append_cons] at hsound
        obtain ⟨-, hentry, hfresh⟩ := sound_concat_iff.mp hsound.of_append
        exact absurd hfault (not_or.mpr ⟨not_not_intro hentry, hfresh⟩)
      · exact FirstFault.exists_of_dangles hsound hdangles
    · exact FirstFault.exists_of_not_sound hsound

/-- A document is refused for the first fault of its entries if they have any. Only documents without one are refused
    for a cycle. -/
theorem refused_for_firstFault (header : IsHeader root) (hfield : Json.field? root "stages" = some (.array entries))
    (hne : entries ≠ []) :
    ((∃ e, FirstFault entries e) ↔
      (∃ before entry after, entries = before ++ entry :: after ∧ (¬ IsEntry entry ∨ Repeats before entry)) ∨
        ∃ entry ∈ entries, Dangles entries entry) ∧
      (∀ e, FirstFault entries e → ofDocument (.object root) = .error e) ∧
      ∀ x, ofDocument (.object root) = .error (.cycle x) → ¬ ∃ e, FirstFault entries e := by
  have hrefused : ∀ e, FirstFault entries e → ofDocument (.object root) = .error e := by
    intro e h
    rw [ofDocument_eq, checked_of_firstFault header (entries_eq_ok_iff.mpr ⟨hfield, hne⟩) h]
    rfl
  refine ⟨exists_firstFault_iff, hrefused, ?_⟩
  rintro x hcycle ⟨e, h⟩
  obtain rfl : .cycle x = e := Except.error.inj (hcycle.symm.trans (hrefused e h))
  cases h with
  | malformed _ _ he => exact failsInEntry_stage _ he

/-- The stages `a` and `b`, a second `a` and an entry that is none. The first `a` names a stage that is not there, and
    `b` itself. -/
def spoiledEntries : List Json :=
  [plainEntry "a" ["ghost"] false, plainEntry "b" ["b"] false, plainEntry "a" [] false, .null]

def spoiled : Fields := [("name", .string "n"), ("persona", .string "p"), ("stages", .array spoiledEntries)]

theorem firstFault_spoiled : FirstFault spoiledEntries (.duplicateStageId "a" 0 2) := by
  have hsound : Sound [plainEntry "a" ["ghost"] false, plainEntry "b" ["b"] false] :=
    sound_iff.mpr ⟨[.plain "a" ["ghost"] false, .plain "b" ["b"] false], by cbv⟩
  have hentry : IsEntry (plainEntry "a" [] false) := (isEntry_iff_exists_stage 2).mpr ⟨.plain "a" [] false, by cbv⟩
  have hid : ∀ previous, HasId (plainEntry "a" previous false) "a" := fun _ => ⟨_, rfl, by cbv⟩
  have hsplit : spoiledEntries = [plainEntry "a" ["ghost"] false, plainEntry "b" ["b"] false] ++
      plainEntry "a" [] false :: [.null] := rfl
  exact .repeated hsplit hsound hentry (hid _) (List.nil_append _).symm (hid _) (by simp)

theorem refused_spoiled : IsHeader spoiled ∧ FirstFault spoiledEntries (.duplicateStageId "a" 0 2) ∧
    ofDocument (.object spoiled) = .error (.duplicateStageId "a" 0 2) := by
  have header : IsHeader spoiled := exists_header_iff.mp ⟨_, rfl⟩
  have hfield : Json.field? spoiled "stages" = some (.array spoiledEntries) := by cbv
  have hrefused := (refused_for_firstFault header hfield (by simp [spoiledEntries])).2.1
  exact ⟨header, firstFault_spoiled, hrefused _ firstFault_spoiled⟩

end Manifest
end StageLineage
