import Mathlib.Algebra.Group.Nat.Defs
import Mathlib.Tactic.MkIffOfInductiveProp
import StageLineage.Proofs.Manifest.Rearranged

/-! Which fields the header of a manifest and the entry of a stage may have. A field is read if it is absent, null
    or of its kind, and a stage is read if each of its fields is. -/

namespace StageLineage

theorem Segment.validate_eq_ok_iff {text : String} : validate text = .ok () ↔
    text ≠ "" ∧ text ≠ "." ∧ text ≠ ".." ∧ ∀ c ∈ text.toList, isReserved c = false := by
  refine ⟨checks_of_validate, fun ⟨hne, hhere, hup, hreserved⟩ => ?_⟩
  rw [validate, if_neg hne, if_neg]
  simpa [hhere, hup] using hreserved

namespace Manifest
variable {ε α β : Type} {fields root : Fields} {field : String} {kind : Json → Prop} {stage? : Option String}
  {index : Nat} {id : String} {entry value : Json} {s : Stage}

/-! ### Kinds of values -/

def IsText (value : Json) : Prop := ∃ text, value = .string text

def IsBoolean (value : Json) : Prop := ∃ b, value = .bool b

def IsInteger (value : Json) : Prop := ∃ n, value = .number (.integer n)

def IsList (value : Json) : Prop := ∃ items, value = .array items

def IsTexts (value : Json) : Prop := ∃ texts : List String, value = .array (texts.map .string)

/-- A text that can name a directory. -/
def IsStageId (value : Json) : Prop :=
  ∃ id, value = .string id ∧ id ≠ "" ∧ id ≠ "." ∧ id ≠ ".." ∧ ∀ c ∈ id.toList, Segment.isReserved c = false

def IsProducts (value : Json) : Prop := ∃ texts : List String, texts ≠ [] ∧ value = .array (texts.map .string)

def IsSmallLetter (c : Char) : Prop := 'a' ≤ c ∧ c ≤ 'z'

/-- A text that matches `^[a-z][a-z0-9_-]*$`. -/
def IsHandlerName (value : Json) : Prop :=
  ∃ first rest, value = .string (String.ofList (first :: rest)) ∧ IsSmallLetter first ∧
    ∀ c ∈ rest, IsSmallLetter c ∨ ('0' ≤ c ∧ c ≤ '9') ∨ c = '_' ∨ c = '-'

/-- An integer that fits into 32 bits. -/
def IsCount (value : Json) : Prop := ∃ n : Nat, n < 2 ^ 32 ∧ value = .number (.integer n)

/-! ### Fields -/

/-- The field is absent, null or of the kind. -/
def Allows (fields : Fields) (field : String) (kind : Json → Prop) : Prop :=
  ∀ value, Json.field? fields field = some value → value = .null ∨ kind value

/-- The field is there, and of the kind. -/
def Requires (fields : Fields) (field : String) (kind : Json → Prop) : Prop :=
  ∃ value, Json.field? fields field = some value ∧ kind value

theorem present?_eq_some_iff :
    present? fields field = some value ↔ Json.field? fields field = some value ∧ value ≠ .null := by
  unfold present?
  split
  · next hnull =>
    rw [hnull]
    simp [eq_comm]
  · next hne =>
    exact ⟨fun h => ⟨h, fun hvalue => hne (hvalue ▸ h)⟩, fun h => h.1⟩

theorem allows_iff : Allows fields field kind ↔ ∀ value, present? fields field = some value → kind value := by
  simp only [present?_eq_some_iff, Allows]
  exact forall_congr' fun value => ⟨fun h ⟨hvalue, hne⟩ => (h hvalue).resolve_left hne,
    fun h hvalue => or_iff_not_imp_left.mpr fun hne => h ⟨hvalue, hne⟩⟩

theorem requires_iff (hnull : ¬ kind .null) :
    Requires fields field kind ↔ ∃ value, present? fields field = some value ∧ kind value := by
  simp only [present?_eq_some_iff, Requires, and_assoc]
  refine exists_congr fun value => and_congr_right fun _ => ⟨fun h => ⟨?_, h⟩, And.right⟩
  rintro rfl
  exact hnull h

/-! ### Readers of fields -/

theorem exists_text?_iff : (∃ r, text? stage? fields field = .ok r) ↔ Allows fields field IsText := by
  rw [allows_iff, text?]
  cases present? fields field with
  | none => simp
  | some value => cases value <;> simp [IsText]

theorem exists_boolean?_iff : (∃ r, boolean? stage? fields field = .ok r) ↔ Allows fields field IsBoolean := by
  rw [allows_iff, boolean?]
  cases present? fields field with
  | none => simp
  | some value => cases value <;> simp [IsBoolean]

theorem exists_map_ok_iff {x : Except ε α} {f : α → β} : (∃ b, x.map f = .ok b) ↔ ∃ a, x = .ok a := by
  cases x <;> simp [Except.map]

theorem exists_texts_iff {items : List Json} : (∃ l, texts stage? field items = .ok l) ↔ IsTexts (.array items) := by
  simp only [texts_eq_ok_iff, IsTexts, Json.array.injEq]

theorem exists_texts?_iff : (∃ r, texts? stage? fields field = .ok r) ↔ Allows fields field IsTexts := by
  rw [allows_iff, texts?]
  cases present? fields field with
  | none => simp
  | some value =>
    cases value with
    | array items => simp [exists_map_ok_iff, exists_texts_iff]
    | _ => simp [IsTexts]

/-! ### The header -/

@[mk_iff] structure IsHeader (root : Fields) : Prop where
  name : Requires root "name" IsText
  persona : Requires root "persona" IsText
  description : Allows root "description" IsText
  category : Allows root "category" IsText
  version : Allows root "version" fun value => IsText value ∨ IsInteger value
  locked : Allows root "locked" IsBoolean
  authors : Allows root "authors" IsTexts

theorem exists_headerText_iff : (∃ text, headerText root field = .ok text) ↔ Requires root field IsText := by
  rw [requires_iff (by simp [IsText]), headerText]
  cases present? root field with
  | none => simp
  | some value => cases value <;> simp [IsText]

theorem exists_version_iff :
    (∃ text, version root = .ok text) ↔ Allows root "version" fun value => IsText value ∨ IsInteger value := by
  rw [allows_iff, version]
  cases present? root "version" with
  | none => simp
  | some value =>
    cases value with
    | number n => cases n <;> simp [IsText, IsInteger]
    | _ => simp [IsText, IsInteger]

theorem ok_bind (a : α) (f : α → Except ε β) : (Except.ok a >>= f) = f a := rfl

/-- Steps that each succeed or fail whatever came before them all succeed if each does. -/
theorem exists_bind_iff {P Q : Prop} {x : Except ε α} {f : α → Except ε β} (hx : (∃ a, x = .ok a) ↔ P)
    (hf : ∀ a, (∃ b, f a = .ok b) ↔ Q) : (∃ b, x >>= f = .ok b) ↔ P ∧ Q := by
  rw [← hx]
  constructor
  · rintro ⟨b, h⟩
    obtain ⟨a, ha, hb⟩ := bind_eq_ok_iff.mp h
    exact ⟨⟨a, ha⟩, (hf a).mp ⟨b, hb⟩⟩
  · rintro ⟨⟨a, ha⟩, hQ⟩
    obtain ⟨b, hb⟩ := (hf a).mpr hQ
    exact ⟨b, bind_eq_ok_iff.mpr ⟨a, ha, hb⟩⟩

theorem exists_last_iff {P : Prop} {x : Except ε α} {f : α → β} (hx : (∃ a, x = .ok a) ↔ P) :
    (∃ b, (x >>= fun a => pure (f a)) = .ok b) ↔ P := by
  have h := exists_bind_iff (f := fun a => (pure (f a) : Except ε β)) hx fun a => ⟨fun _ => trivial, fun _ => ⟨f a, rfl⟩⟩
  rw [h, and_true]

theorem exists_header_iff : (∃ h, header root = .ok h) ↔ IsHeader root := by
  rw [isHeader_iff, header]
  exact exists_bind_iff exists_headerText_iff fun _ => exists_bind_iff exists_headerText_iff fun _ =>
    exists_bind_iff exists_text?_iff fun _ => exists_bind_iff exists_text?_iff fun _ =>
    exists_bind_iff exists_version_iff fun _ => exists_bind_iff exists_boolean?_iff fun _ =>
    exists_last_iff exists_texts?_iff

/-! ### Readers of the fields of a stage -/

theorem stageFields_eq_ok_iff : stageFields index entry = .ok fields ↔ entry = .object fields := by
  cases entry <;> simp [stageFields]

theorem stageId_eq_ok_iff :
    stageId index fields = .ok id ↔ present? fields "id" = some (.string id) ∧ Segment.validate id = .ok () := by
  refine ⟨fun h => ⟨present?_of_stageId h, ?_⟩, fun ⟨hid, hvalid⟩ => by rw [stageId, hid]; simp [hvalid]⟩
  have hid := present?_of_stageId h
  rw [stageId, hid] at h
  cases hvalid : Segment.validate id with
  | ok _ => rfl
  | error cause => simp [hvalid] at h

theorem exists_stageId_iff : (∃ id, stageId index fields = .ok id) ↔ Requires fields "id" IsStageId := by
  rw [requires_iff (by simp [IsStageId])]
  simp only [stageId_eq_ok_iff, Segment.validate_eq_ok_iff, IsStageId]
  constructor
  · rintro ⟨id, hid, hvalid⟩
    exact ⟨_, hid, id, rfl, hvalid⟩
  · rintro ⟨_, hid, id, rfl, hvalid⟩
    exact ⟨id, hid, hvalid⟩

theorem exists_produces_iff : (∃ l, produces id fields = .ok l) ↔ Requires fields "produces" IsProducts := by
  rw [requires_iff (by simp [IsProducts]), produces]
  cases present? fields "produces" with
  | none => simp
  | some value =>
    cases value with
    | array items =>
      have htexts : ∀ l, texts (some id) "produces" items = .ok l ↔ items = l.map .string := fun _ => texts_eq_ok_iff
      simp only [Option.some.injEq, exists_eq_left', IsProducts, Json.array.injEq, ← htexts]
      cases texts (some id) "produces" items with
      | error e => simp
      | ok l => cases l <;> simp
    | _ => simp [IsProducts]

theorem isLower_iff {c : Char} : c.isLower = true ↔ IsSmallLetter c := by
  show (decide ('a'.val ≤ c.val) && decide (c.val ≤ 'z'.val)) = true ↔ IsSmallLetter c
  simp [IsSmallLetter, Char.le_def]

theorem isDigit_iff {c : Char} : c.isDigit = true ↔ '0' ≤ c ∧ c ≤ '9' := by
  show (decide ('0'.val ≤ c.val) && decide (c.val ≤ '9'.val)) = true ↔ _
  simp [Char.le_def]

theorem isHandler_iff {handler : String} : isHandler handler = true ↔ IsHandlerName (.string handler) := by
  obtain ⟨l, rfl⟩ : ∃ l, handler = String.ofList l := ⟨handler.toList, String.ofList_toList.symm⟩
  cases l with
  | nil => simp [isHandler, IsHandlerName]
  | cons first rest => simp [isHandler, IsHandlerName, String.ofList_inj, isLower_iff, isDigit_iff, or_assoc]

theorem exists_handler?_iff : (∃ r, handler? id fields = .ok r) ↔ Allows fields "handler" IsHandlerName := by
  rw [allows_iff, handler?, text?]
  cases present? fields "handler" with
  | none => simp
  | some value =>
    cases value with
    | string handler =>
      simp only [Option.some.injEq, forall_eq', ← isHandler_iff]
      cases isHandler handler <;> simp
    | _ => simp [IsHandlerName]

theorem exists_completesWith_iff :
    (∃ rule, completesWith id fields = .ok rule) ↔ Allows fields "completes_with" IsText := by
  rw [Allows, completesWith]
  cases Json.field? fields "completes_with" with
  | none => simp
  | some value => cases value <;> simp [IsText]

theorem exists_blueprint_iff : (∃ l, blueprint id fields = .ok l) ↔ Allows fields "blueprint" IsList := by
  rw [allows_iff, blueprint]
  cases present? fields "blueprint" with
  | none => simp
  | some value => cases value <;> simp [IsList]

/-! ### Skip warnings -/

/-- A message stands for the text if there is no field for that, not even a null. -/
@[mk_iff] structure IsSkipObject (fields : Fields) : Prop where
  text : Requires fields "text" IsText ∨ Json.field? fields "text" = none ∧ Requires fields "message" IsText
  reason : Allows fields "reason" IsText
  max_warnings : Allows fields "max_warnings" IsCount

@[mk_iff] inductive IsSkipWarning : Json → Prop
  | text (text : String) : IsSkipWarning (.string text)
  | object {fields : Fields} (h : IsSkipObject fields) : IsSkipWarning (.object fields)

theorem exists_skipText?_iff : (∃ text, skipText? fields = some text) ↔
    Requires fields "text" IsText ∨ Json.field? fields "text" = none ∧ Requires fields "message" IsText := by
  rw [skipText?, Requires, Requires]
  cases Json.field? fields "text" with
  | some value => cases value <;> simp [IsText]
  | none =>
    cases Json.field? fields "message" with
    | none => simp
    | some value => cases value <;> simp [IsText]

theorem exists_maxWarnings?_iff : (∃ r, maxWarnings? fields = .ok r) ↔ Allows fields "max_warnings" IsCount := by
  rw [allows_iff, maxWarnings?]
  cases present? fields "max_warnings" with
  | none => simp
  | some value =>
    cases value with
    | number n =>
      cases n with
      | integer n =>
        have hcount : IsCount (.number (.integer n)) ↔ 0 ≤ n ∧ n ≤ maxWarningsLimit := by
          simp only [IsCount, maxWarningsLimit, Json.number.injEq, Json.Number.integer.injEq]
          exact ⟨by rintro ⟨k, hk, rfl⟩; omega, fun h => ⟨n.toNat, by omega, by omega⟩⟩
        simp only [Option.some.injEq, forall_eq', hcount, Bool.and_eq_true, decide_eq_true_eq]
        split <;> simp_all
      | float => simp [IsCount]
    | _ => simp [IsCount]

theorem exists_skipWarningOf_iff : (∃ w, skipWarningOf fields = .ok w) ↔ IsSkipObject fields := by
  rw [isSkipObject_iff, ← exists_skipText?_iff, ← exists_maxWarnings?_iff, allows_iff, skipWarningOf]
  cases skipText? fields with
  | none => simp
  | some text =>
    cases present? fields "reason" with
    | none => simp [exists_map_ok_iff]
    | some reason => cases reason <;> simp [exists_map_ok_iff, IsText]

theorem exists_skipWarning?_iff :
    (∃ r, skipWarning? id fields = .ok r) ↔ Allows fields "skip_warning" IsSkipWarning := by
  rw [allows_iff, skipWarning?]
  cases present? fields "skip_warning" with
  | none => simp
  | some value =>
    cases value with
    | object warning =>
      have hkind : IsSkipWarning (.object warning) ↔ ∃ w, skipWarningOf warning = .ok w := by
        simp [isSkipWarning_iff, exists_skipWarningOf_iff]
      simp only [Option.some.injEq, forall_eq', hkind]
      cases skipWarningOf warning <;> simp
    | _ => simp [isSkipWarning_iff]

/-! ### The entry of a stage -/

@[mk_iff] structure IsStage (fields : Fields) : Prop where
  id : Requires fields "id" IsStageId
  produces : Requires fields "produces" IsProducts
  handler : Allows fields "handler" IsHandlerName
  previous : Allows fields "previous" IsTexts
  completes_with : Allows fields "completes_with" IsText
  name : Allows fields "name" IsText
  phase : Allows fields "phase" IsText
  optional : Allows fields "optional" IsBoolean
  instruction : Allows fields "instruction" IsText
  commands : Allows fields "commands" IsTexts
  skip_warning : Allows fields "skip_warning" IsSkipWarning
  narrative : Allows fields "narrative" IsText
  blueprint : Allows fields "blueprint" IsList

theorem exists_stage_iff : (∃ s, stage index (.object fields) = .ok s) ↔ IsStage fields := by
  rw [isStage_iff, stage, stageFields, ok_bind]
  exact exists_bind_iff exists_stageId_iff fun _ => exists_bind_iff exists_produces_iff fun _ =>
    exists_bind_iff exists_handler?_iff fun _ => exists_bind_iff exists_texts?_iff fun _ =>
    exists_bind_iff exists_completesWith_iff fun _ => exists_bind_iff exists_text?_iff fun _ =>
    exists_bind_iff exists_text?_iff fun _ => exists_bind_iff exists_boolean?_iff fun _ =>
    exists_bind_iff exists_text?_iff fun _ => exists_bind_iff exists_texts?_iff fun _ =>
    exists_bind_iff exists_skipWarning?_iff fun _ => exists_bind_iff exists_text?_iff fun _ =>
    exists_last_iff exists_blueprint_iff

/-- The place of an entry shows in no more than the texts of errors. -/
theorem stage_eq_ok (h : stage index entry = .ok s) (index' : Nat) : stage index' entry = .ok s := by
  obtain ⟨fields, hfields, h⟩ := bind_eq_ok_iff.mp h
  obtain ⟨id, hid, h⟩ := bind_eq_ok_iff.mp h
  refine bind_eq_ok_iff.mpr ⟨fields, stageFields_eq_ok_iff.mpr (stageFields_eq_ok_iff.mp hfields), ?_⟩
  exact bind_eq_ok_iff.mpr ⟨id, stageId_eq_ok_iff.mpr (stageId_eq_ok_iff.mp hid), h⟩

end Manifest
end StageLineage
