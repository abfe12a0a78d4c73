import StageLineage.Proofs.Manifest.Refused

/-! A null field counts as an absent one. Taking a null out of the root of a document, out of the entry of a stage or
    out of a skip warning changes neither the definition that is read nor the error. The exception is a skip warning
    whose text is null: the null hides the message that would stand for the text. -/

namespace StageLineage

/-! ### Places in a value -/

namespace Json

inductive Step where
  | key (name : String)
  | index (i : Nat)

def at? : List Step → Json → Option Json
  | [], j => some j
  | .key name :: path, .object fields => (field? fields name).bind (at? path)
  | .index i :: path, .array items => items[i]?.bind (at? path)
  | _ :: _, _ => none

def changeField (name : String) (f : Json → Json) (fields : List (String × Json)) : List (String × Json) :=
  fields.map fun e => if e.1 = name then (e.1, f e.2) else e

/-- The value with another one in a place; if there is no such place it stays as it is. -/
def change (f : Json → Json) : List Step → Json → Json
  | [], j => f j
  | .key name :: path, .object fields => .object (changeField name (change f path) fields)
  | .index i :: path, .array items => .array (items.modify i (change f path))
  | _ :: _, j => j

/-- An object without a key. -/
def dropKey (key : String) : Json → Json
  | .object fields => .object (fields.filter (·.1 != key))
  | other => other

variable {f g : Json → Json} {path more : List Step} {j : Json} {fields : List (String × Json)} {name key : String}

theorem at?_append : at? (path ++ more) j = (at? path j).bind (at? more) := by
  induction path generalizing j with
  | nil => rfl
  | cons step path ih =>
    cases step with
    | key name =>
      cases j with
      | object fields => simp only [List.cons_append, at?, ih, Option.bind_assoc]
      | _ => rfl
    | index i =>
      cases j with
      | array items => simp only [List.cons_append, at?, ih, Option.bind_assoc]
      | _ => rfl

theorem change_append : change f (path ++ more) j = change (change f more) path j := by
  induction path generalizing j with
  | nil => rfl
  | cons step path ih =>
    have ih : change f (path ++ more) = change (change f more) path := funext fun _ => ih
    cases step with
    | key name =>
      cases j with
      | object fields => simp only [List.cons_append, change, ih]
      | _ => rfl
    | index i =>
      cases j with
      | array items => simp only [List.cons_append, change, ih]
      | _ => rfl

theorem field?_changeField :
    field? (changeField name f fields) key = if key = name then (field? fields key).map f else field? fields key := by
  induction fields with
  | nil => simp [field?, changeField]
  | cons e fields ih =>
    simp only [field?, changeField, List.map_cons, List.find?_cons] at ih ⊢
    have hkey : (if e.1 = name then (e.1, f e.2) else e).1 = e.1 := by split <;> rfl
    rw [hkey]
    by_cases he : e.1 = key
    · subst he
      by_cases hname : e.1 = name <;> simp [hname]
    · simpa only [beq_eq_false_iff_ne.mpr he] using ih

theorem field?_filter_of_ne (h : name ≠ key) : field? (fields.filter (·.1 != key)) name = field? fields name := by
  have hsame : (fun e : String × Json => decide ((e.1 != key) = true ∧ (e.1 == name) = true)) = (·.1 == name) := by
    funext e
    by_cases he : e.1 = name <;> simp [he, h]
  rw [field?, field?, List.find?_filter, hsame]

theorem field?_filter_self : field? (fields.filter (·.1 != key)) key = none := by
  rw [field?, List.find?_filter]
  simp

theorem change_id : change id path j = j := by
  induction path generalizing j with
  | nil => rfl
  | cons step path ih =>
    have ih : change id path = id := funext fun _ => ih
    cases step with
    | key name =>
      cases j with
      | object fields => simp [change, changeField, ih]
      | _ => rfl
    | index i =>
      cases j with
      | array items => simp [change, ih]
      | _ => rfl

end Json

namespace Manifest
open Json
variable {root root' fields fields' warning warning' : Fields} {document entry : Json} {entries : List Json} {i : Nat}
  {key message : String} {f g : Json → Json} {read : List Stage}

/-! ### Readers -/

theorem present?_changeField_of_ne {name field : String} (h : field ≠ name) :
    present? (changeField name f fields) field = present? fields field := by
  rw [present?, present?, field?_changeField, if_neg h]

theorem present?_drop (hnull : field? fields key = some .null) (field : String) :
    present? (fields.filter (·.1 != key)) field = present? fields field := by
  by_cases h : field = key
  · subst h
    rw [present?, present?, field?_filter_self, hnull]
  · rw [present?, present?, field?_filter_of_ne h]

theorem header_congr (h : ∀ field, field ≠ "stages" → present? root field = present? root' field) :
    header root = header root' := by
  simp only [header, headerText, version, text?, boolean?, texts?, ne_eq, String.reduceEq, not_false_eq_true, h]

theorem stage_congr (h : ∀ field, field ≠ "skip_warning" → present? fields field = present? fields' field)
    (hrule : field? fields "completes_with" = field? fields' "completes_with")
    (hwarning : ∀ id, skipWarning? id fields = skipWarning? id fields') (index : Nat) :
    stage index (.object fields) = stage index (.object fields') := by
  rw [stage, stage, stageFields, stageFields, ok_bind, ok_bind]
  simp only [stageId, produces, handler?, completesWith, blueprint, text?, boolean?, texts?,
    ne_eq, String.reduceEq, not_false_eq_true, h, hrule, hwarning]

theorem skipWarning?_congr {id : String} (h : present? fields "skip_warning" = some (.object warning))
    (h' : present? fields' "skip_warning" = some (.object warning'))
    (hsame : skipWarningOf warning = skipWarningOf warning') : skipWarning? id fields = skipWarning? id fields' := by
  simp only [skipWarning?, h, h', hsame]

theorem skipWarningOf_congr (htext : skipText? warning = skipText? warning')
    (h : ∀ field, field ≠ "text" → present? warning field = present? warning' field) :
    skipWarningOf warning = skipWarningOf warning' := by
  simp only [skipWarningOf, maxWarnings?, htext, ne_eq, String.reduceEq, not_false_eq_true, h]

/-! ### Entries -/

theorem stagesAfter_modify (hentry : entries[i]? = some entry)
    (h : ∀ index, stage index (f entry) = stage index (g entry)) :
    stagesAfter read (entries.modify i f) = stagesAfter read (entries.modify i g) := by
  induction entries generalizing read i with
  | nil => cases hentry
  | cons first entries ih =>
    cases i with
    | zero =>
      obtain rfl : first = entry := Option.some.inj hentry
      rw [List.modify_zero_cons, List.modify_zero_cons, stagesAfter, stagesAfter, h]
    | succ i =>
      rw [List.modify_succ_cons, List.modify_succ_cons, stagesAfter, stagesAfter]
      simp only [ih hentry]

/-- Where the entry of a stage stands in a document. -/
def entryPath (i : Nat) : List Step := [.key "stages", .index i]

theorem exists_of_at?_entryPath (h : at? (entryPath i) document = some entry) : ∃ root entries,
    document = .object root ∧ field? root "stages" = some (.array entries) ∧ entries[i]? = some entry := by
  cases document with
  | object root =>
    obtain ⟨stages, hstages, h⟩ := Option.bind_eq_some_iff.mp h
    cases stages with
    | array entries =>
      obtain ⟨entry', hentry, h⟩ := Option.bind_eq_some_iff.mp h
      obtain rfl : entry' = entry := Option.some.inj h
      exact ⟨root, entries, rfl, hstages, hentry⟩
    | _ => cases h
  | _ => cases h

/-- With changed entries a document is read as the header that it had and those entries. -/
theorem ofDocument_change_entryPath (hentries : field? root "stages" = some (.array entries)) (hi : i < entries.length) :
    ofDocument (change f (entryPath i) (.object root)) = header root >>= fun header =>
      stagesAfter [] (entries.modify i f) >>= fun stages =>
      orderOf stages >>= fun order => pure ⟨header, stages, order⟩ := by
  let changed := change f [.index i]
  have hheader : header (changeField "stages" changed root) = header root :=
    header_congr fun field hfield => present?_changeField_of_ne hfield
  have hread : Manifest.entries (changeField "stages" changed root) = .ok (entries.modify i f) := by
    refine entries_eq_ok_iff.mpr ⟨?_, ?_⟩
    · rw [field?_changeField, if_pos rfl, hentries]
      rfl
    · rw [← List.length_pos_iff, List.length_modify]
      exact Nat.zero_lt_of_lt hi
  rw [entryPath, change, ofDocument, hheader, hread]
  rfl

theorem ofDocument_change_congr (hentry : at? (entryPath i) document = some entry)
    (h : ∀ index, stage index (f entry) = stage index (g entry)) :
    ofDocument (change f (entryPath i) document) = ofDocument (change g (entryPath i) document) := by
  obtain ⟨root, entries, rfl, hentries, hi⟩ := exists_of_at?_entryPath hentry
  have hlt : i < entries.length := (List.getElem?_eq_some_iff.mp hi).1
  rw [ofDocument_change_entryPath hentries hlt, ofDocument_change_entryPath hentries hlt, stagesAfter_modify hi h]

/-! ### Skip warnings -/

theorem skipText?_drop (hnull : field? warning key = some .null)
    (h : key = "text" → ∀ message, field? warning "message" ≠ some (.string message)) :
    skipText? (warning.filter (·.1 != key)) = skipText? warning := by
  by_cases htext : "text" = key
  · subst htext
    -- without a text the message is asked for, but it is none
    rw [skipText?, skipText?, field?_filter_self, hnull, Option.none_or, field?_filter_of_ne (by simp)]
    split
    · next message hmessage => exact absurd hmessage (h rfl message)
    · rfl
  · rw [skipText?, skipText?, field?_filter_of_ne htext]
    by_cases hmessage : "message" = key
    · subst hmessage
      rw [field?_filter_self, hnull]
      cases field? warning "text" <;> rfl
    · rw [field?_filter_of_ne hmessage]

theorem skipWarningOf_drop (hnull : field? warning key = some .null)
    (h : key = "text" → ∀ message, field? warning "message" ≠ some (.string message)) :
    skipWarningOf (warning.filter (·.1 != key)) = skipWarningOf warning :=
  skipWarningOf_congr (skipText?_drop hnull h) fun field _ => present?_drop hnull field

/-- Without its null text, a skip warning says what it says with its message for a text. -/
theorem skipWarningOf_drop_text (hnull : field? warning "text" = some .null)
    (hmessage : field? warning "message" = some (.string message)) :
    skipWarningOf (warning.filter (·.1 != "text")) =
      skipWarningOf (changeField "text" (fun _ => .string message) warning) := by
  refine skipWarningOf_congr ?_ fun field hfield => ?_
  · rw [skipText?, skipText?, field?_filter_self, field?_filter_of_ne (by simp), field?_changeField, if_pos rfl, hnull,
      hmessage]
    rfl
  · rw [present?_drop hnull, present?_changeField_of_ne hfield]

theorem not_isSkipWarning (hnull : field? warning "text" = some .null) : ¬ IsSkipWarning (.object warning) := by
  intro h
  cases h with
  | object h =>
    rcases h.text with ⟨value, htext, _, rfl⟩ | ⟨htext, -⟩
    · cases hnull.symm.trans htext
    · cases hnull.symm.trans htext

theorem stage_changeField (hwarning : field? fields "skip_warning" = some (.object warning))
    (h : ∃ w w', f (.object warning) = .object w ∧ g (.object warning) = .object w' ∧ skipWarningOf w = skipWarningOf w')
    (index : Nat) : stage index (.object (changeField "skip_warning" f fields)) =
      stage index (.object (changeField "skip_warning" g fields)) := by
  obtain ⟨w, w', hf, hg, hsame⟩ := h
  have hchanged : ∀ {f w}, f (.object warning) = .object w →
      present? (changeField "skip_warning" f fields) "skip_warning" = some (.object w) := by
    intro f w hf
    refine present?_eq_some_iff.mpr ⟨?_, by simp⟩
    rw [field?_changeField, if_pos rfl, hwarning, Option.map_some, hf]
  refine stage_congr (fun field hfield => ?_) ?_ (fun id => skipWarning?_congr (hchanged hf) (hchanged hg) hsame) index
  · rw [present?_changeField_of_ne hfield, present?_changeField_of_ne hfield]
  · rw [field?_changeField, field?_changeField, if_neg (by simp), if_neg (by simp)]

/-! ### The whole document -/

/-- The objects of a document whose fields are read. -/
inductive Place where
  | root
  | stage (i : Nat)
  | skipWarning (i : Nat)

def Place.path : Place → List Step
  | .root => []
  | .stage i => entryPath i
  | .skipWarning i => entryPath i ++ [.key "skip_warning"]

/-- The key of these fields is the text of a skip warning, and they have a message to stand for it. -/
structure Hides (place : Place) (key : String) (fields : Fields) (message : String) : Prop where
  place : ∃ i, place = .skipWarning i
  key : key = "text"
  message : field? fields "message" = some (.string message)

theorem ofDocument_congr (h : ∀ field, present? root field = present? root' field) :
    ofDocument (.object root) = ofDocument (.object root') := by
  rw [ofDocument, ofDocument, header_congr fun field _ => h field, Manifest.entries, Manifest.entries, h]

theorem stage_drop (hnull : field? fields key = some .null) (hkey : key ≠ "completes_with") (index : Nat) :
    stage index (dropKey key (.object fields)) = stage index (.object fields) := by
  refine stage_congr (fun field _ => present?_drop hnull field) (field?_filter_of_ne hkey.symm) (fun id => ?_) index
  rw [skipWarning?, skipWarning?, present?_drop hnull]

theorem exists_of_at?_skipWarning (h : at? (Place.skipWarning i).path document = some (.object warning)) :
    ∃ fields, at? (entryPath i) document = some (.object fields) ∧
      field? fields "skip_warning" = some (.object warning) := by
  rw [Place.path, at?_append] at h
  obtain ⟨entry, hentry, h⟩ := Option.bind_eq_some_iff.mp h
  cases entry with
  | object fields =>
    obtain ⟨value, hvalue, h⟩ := Option.bind_eq_some_iff.mp h
    obtain rfl : value = .object warning := Option.some.inj h
    exact ⟨fields, hentry, hvalue⟩
  | _ => cases h

theorem ofDocument_change_skipWarning (h : at? (Place.skipWarning i).path document = some (.object warning))
    (hsame : ∃ w w', f (.object warning) = .object w ∧ g (.object warning) = .object w' ∧
      skipWarningOf w = skipWarningOf w') :
    ofDocument (change f (Place.skipWarning i).path document) =
      ofDocument (change g (Place.skipWarning i).path document) := by
  obtain ⟨fields, hentry, hwarning⟩ := exists_of_at?_skipWarning h
  rw [Place.path, change_append, change_append]
  exact ofDocument_change_congr hentry (stage_changeField hwarning hsame)

theorem not_accepted_of_null_text (h : at? (Place.skipWarning i).path document = some (.object warning))
    (hnull : field? warning "text" = some .null) (d : Definition) : ofDocument document ≠ .ok d := by
  intro hd
  obtain ⟨fields, hentry, hwarning⟩ := exists_of_at?_skipWarning h
  obtain ⟨root, entries, rfl, hentries, hi⟩ := exists_of_at?_entryPath hentry
  obtain ⟨-, entries', hread, hstages, -⟩ := checked_eq_ok_iff.mp (checked_of_ofDocument hd).1
  obtain rfl : entries = entries' := by
    obtain ⟨hfield, -⟩ := entries_eq_ok_iff.mp hread
    exact Json.array.inj (Option.some.inj (hentries.symm.trans hfield))
  obtain ⟨_, ⟨⟩, hstage⟩ := (sound_iff.mpr ⟨_, hstages⟩).isEntry _ (List.mem_of_getElem? hi)
  rcases hstage.skip_warning _ hwarning with hnone | hkind
  · cases hnone
  · exact not_isSkipWarning hnull hkind

/-- A null field of a manifest, of one of its stages or of a skip warning can be taken out, except for the text of a
    skip warning with a message. With that null the document is refused; without it, it is read as if the message were
    the text. -/
theorem ofDocument_drop_null {place : Place} (hfields : at? place.path document = some (.object fields))
    (hnull : field? fields key = some .null) (hkey : key ≠ "completes_with") :
    ((¬ ∃ message, Hides place key fields message) →
      ofDocument (change (dropKey key) place.path document) = ofDocument document) ∧
    ∀ message, Hides place key fields message → (∀ d, ofDocument document ≠ .ok d) ∧
      ofDocument (change (dropKey key) place.path document) =
        ofDocument (change (fun _ => .string message) (place.path ++ [.key "text"]) document) := by
  constructor
  · intro hshown
    cases place with
    | root =>
      obtain rfl : document = .object fields := Option.some.inj hfields
      exact ofDocument_congr fun field => present?_drop hnull field
    | stage i =>
      have hsame := ofDocument_change_congr (g := id) hfields fun index => stage_drop hnull hkey index
      rwa [change_id] at hsame
    | skipWarning i =>
      have htext : key = "text" → ∀ message, field? fields "message" ≠ some (.string message) :=
        fun hkey message hmessage => hshown ⟨message, ⟨i, rfl⟩, hkey, hmessage⟩
      have hsame := ofDocument_change_skipWarning (f := dropKey key) (g := id) hfields
        ⟨_, _, rfl, rfl, skipWarningOf_drop hnull htext⟩
      rwa [change_id] at hsame
  · rintro message ⟨⟨i, rfl⟩, rfl, hmessage⟩
    refine ⟨not_accepted_of_null_text hfields hnull, ?_⟩
    rw [change_append]
    exact ofDocument_change_skipWarning hfields ⟨_, _, rfl, rfl, skipWarningOf_drop_text hnull hmessage⟩

/-- A skip warning with a message, but with nulls for its text and its reason. -/
def mutedWarning : Fields := [("message", .string "m"), ("reason", .null), ("text", .null)]

def muted : Json :=
  .object [("name", .string "Muted"), ("persona", .string "muted"), ("stages", .array [.object [("id", .string "a"),
    ("produces", .array [.string "text"]), ("skip_warning", .object mutedWarning)]])]

theorem ofDocument_muted : ofDocument muted = .error (.invalidField (some "a") "skip_warning" .skipText) := by cbv

/-- The document is refused with and without the null reason, and accepted without the null text. -/
theorem drop_null_muted :
    ofDocument muted = .error (.invalidField (some "a") "skip_warning" .skipText) ∧
    ofDocument (change (dropKey "reason") (Place.skipWarning 0).path muted) =
      .error (.invalidField (some "a") "skip_warning" .skipText) ∧
    ∃ d, ofDocument (change (dropKey "text") (Place.skipWarning 0).path muted) = .ok d ∧
      d.stages.map (·.skipWarning) = [some ⟨"m", none, none⟩] := by
  have hwarning : at? (Place.skipWarning 0).path muted = some (.object mutedWarning) := by cbv
  have hreason : field? mutedWarning "reason" = some .null := by cbv
  have htext : field? mutedWarning "text" = some .null := by cbv
  have hshown : ¬ ∃ message, Hides (.skipWarning 0) "reason" mutedWarning message := by
    rintro ⟨_, h⟩
    exact absurd h.key (by decide)
  have hhidden : Hides (.skipWarning 0) "text" mutedWarning "m" := ⟨⟨0, rfl⟩, rfl, by cbv⟩
  refine ⟨ofDocument_muted, ?_, ?_⟩
  · rw [(ofDocument_drop_null hwarning hreason (by decide)).1 hshown, ofDocument_muted]
  · rw [((ofDocument_drop_null hwarning htext (by decide)).2 "m" hhidden).2]
    exact ⟨_, by cbv, rfl⟩

end Manifest
end StageLineage
