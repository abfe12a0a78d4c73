import Mathlib.Data.List.TakeDrop
import StageLineage.Json.Printer
import StageLineage.Json.Reader
import StageLineage.Proofs.Json.Canonical

/-! Reading undoes writing. In either layout, what the reader takes from the text of an exact value is the
    canonical form of the value, and it takes exactly the text; it refuses the text if and only if the
    value nests more containers than the reader allows. -/

namespace StageLineage.Json

/-! ### Blanks -/

def Blanks (cs : List Char) : Prop := ∀ c ∈ cs, isBlank c = true

theorem blanks_nil : Blanks [] := fun _ h => nomatch h

theorem skipBlanks_append {blanks : List Char} (h : Blanks blanks) (cs : List Char) :
    skipBlanks (blanks ++ cs) = skipBlanks cs :=
  List.dropWhile_append_of_pos h

theorem skipBlanks_cons {c : Char} (h : isBlank c = false) (cs : List Char) : skipBlanks (c :: cs) = c :: cs := by
  simp [skipBlanks, h]

theorem skipBlanks_append_cons {blanks : List Char} {c : Char} (hb : Blanks blanks) (hc : isBlank c = false)
    (cs : List Char) : skipBlanks (blanks ++ c :: cs) = c :: cs := by
  rw [skipBlanks_append hb, skipBlanks_cons hc]

@[simp] theorem skipBlanks_skipBlanks (cs : List Char) : skipBlanks (skipBlanks cs) = skipBlanks cs := by
  induction cs with
  | nil => rfl
  | cons c cs ih =>
    by_cases h : isBlank c = true
    · simpa [skipBlanks, h] using ih
    · rw [Bool.not_eq_true] at h
      rw [skipBlanks_cons h, skipBlanks_cons h]

/-- A layout puts blanks and nothing else between the tokens. -/
structure Layout.Blank (l : Layout) : Prop where
  newline : ∀ depth, Blanks (l.newline depth)
  colon : ∃ blanks, l.colon = ':' :: blanks ∧ Blanks blanks

theorem Layout.blank_compact : Layout.compact.Blank := ⟨fun _ => blanks_nil, [], rfl, blanks_nil⟩

theorem Layout.blank_indented : Layout.indented.Blank where
  newline depth c hc := by
    rcases List.mem_cons.mp hc with rfl | hc
    · rfl
    · rw [List.eq_of_mem_replicate hc]
      rfl
  colon := ⟨[' '], rfl, fun c hc => by rw [List.mem_singleton.mp hc]; rfl⟩

/-! ### Strings -/

/-- A control character is read back from its four hexadecimal digits. -/
theorem value?_controlDigits :
    ∀ n < 32, Digits.value? 16 ['0', '0', Nat.digitChar (n / 16), Nat.digitChar (n % 16)] = some n := by
  decide

theorem escape?_controlChar {c : Char} (h : c.toNat < 0x20) (rest : List Char) :
    escape? true ('u' :: '0' :: '0' :: Nat.digitChar (c.toNat / 16) :: Nat.digitChar (c.toNat % 16) :: rest) =
      some (c, rest) := by
  have hlow : c.toNat < 0xd800 := by omega
  simp [escape?, value?_controlDigits c.toNat h, hlow]

theorem stringBody_cons_escape {cs after : List Char} {c : Char} (h : escape? true cs = some (c, after)) :
    stringBody true ('\\' :: cs) = (stringBody true after).map fun r => (c :: r.1, r.2) := by
  rw [stringBody]
  simp only [show ('\\' : Char) ≠ '\x22' by decide, ↓reduceIte]
  split
  · next hnone => rw [h] at hnone; cases hnone
  · next e a hsome =>
    rw [h] at hsome
    cases hsome
    rfl

theorem stringBody_escapedChar (c : Char) (rest : List Char) :
    stringBody true (escapedChar c ++ rest) = (stringBody true rest).map fun r => (c :: r.1, r.2) := by
  unfold escapedChar
  split
  · subst_vars; exact stringBody_cons_escape rfl
  split
  · subst_vars; exact stringBody_cons_escape rfl
  split
  · subst_vars; exact stringBody_cons_escape rfl
  split
  · subst_vars; exact stringBody_cons_escape rfl
  split
  · subst_vars; exact stringBody_cons_escape rfl
  split
  · subst_vars; exact stringBody_cons_escape rfl
  split
  · subst_vars; exact stringBody_cons_escape rfl
  split
  · next h => exact stringBody_cons_escape (escape?_controlChar h rest)
  · next hquote hslash _ _ _ _ _ hcontrol =>
    rw [List.singleton_append, stringBody]
    simp [hquote, hslash, hcontrol]

theorem stringBody_flatMap (cs rest : List Char) :
    stringBody true (cs.flatMap escapedChar ++ '\x22' :: rest) = some (cs, rest) := by
  induction cs with
  | nil => simp [stringBody]
  | cons c cs ih => simp [stringBody_escapedChar, ih]

theorem string?_stringChars {blanks : List Char} (hb : Blanks blanks) (text : String) (rest : List Char) :
    string? true (blanks ++ (stringChars text ++ rest)) = some (text, rest) := by
  have hskip : skipBlanks (blanks ++ (stringChars text ++ rest)) =
      '\x22' :: (text.toList.flatMap escapedChar ++ '\x22' :: rest) := by
    simpa [stringChars] using skipBlanks_append_cons hb (c := '\x22') rfl
      (text.toList.flatMap escapedChar ++ '\x22' :: rest)
  simp [string?, hskip, stringBody_flatMap]

/-! ### Numbers -/

/-- A text does not go on with a number. -/
def Ends (cs : List Char) : Prop := ∀ c rest, cs = c :: rest → c.isDigit = false ∧ c ≠ '.' ∧ c ≠ 'e' ∧ c ≠ 'E'

theorem ends_nil : Ends [] := fun _ _ h => nomatch h

theorem ends_cons {c : Char} {cs : List Char} (h : c.isDigit = false ∧ c ≠ '.' ∧ c ≠ 'e' ∧ c ≠ 'E') :
    Ends (c :: cs) := fun _ _ heq => by
  obtain ⟨rfl, -⟩ := List.cons.inj heq
  exact h

theorem ends_of_isBlank {c : Char} {cs : List Char} (h : isBlank c = true) : Ends (c :: cs) := by
  apply ends_cons
  simp only [isBlank, Bool.or_eq_true, beq_iff_eq] at h
  rcases h with ((rfl | rfl) | rfl) | rfl <;> decide

theorem ends_append {blanks cs : List Char} (hb : Blanks blanks) (h : Ends cs) : Ends (blanks ++ cs) := by
  cases blanks with
  | nil => exact h
  | cons b blanks => exact ends_of_isBlank (hb b (List.mem_cons_self ..))

theorem isBlank_of_isDigit {c : Char} (h : c.isDigit = true) : isBlank c = false := by
  rw [← Bool.not_eq_true]
  intro hb
  have hends : Ends [c] := ends_of_isBlank hb
  rw [(hends c [] rfl).1] at h
  cases h

theorem isDigit_of_mem_toDigits {n : Nat} {c : Char} (h : c ∈ Nat.toDigits 10 n) : c.isDigit = true :=
  Nat.isDigit_of_mem_toDigits (by decide) (by decide) h

theorem span_toDigits (n : Nat) {rest : List Char} (h : Ends rest) :
    (Nat.toDigits 10 n ++ rest).span Char.isDigit = (Nat.toDigits 10 n, rest) := by
  have hrest : rest.takeWhile Char.isDigit = [] ∧ rest.dropWhile Char.isDigit = rest := by
    cases rest with
    | nil => exact ⟨rfl, rfl⟩
    | cons c cs => simp [(h c cs rfl).1]
  rw [List.span_eq_takeWhile_dropWhile, List.takeWhile_append_of_pos fun c hc => isDigit_of_mem_toDigits hc,
    List.dropWhile_append_of_pos fun c hc => isDigit_of_mem_toDigits hc, hrest.1, hrest.2, List.append_nil]

@[simp] theorem digitsValue_toDigits (n : Nat) : digitsValue (Nat.toDigits 10 n) = n :=
  Nat.ofDigitChars_ten_toDigits

theorem head?_toDigits_ne_zero {n : Nat} (h : 0 < n) : (Nat.toDigits 10 n).head? ≠ some '0' := by
  induction n using Nat.base_induction 10 (by decide) with
  | single m hm =>
    rw [Nat.toDigits_of_lt_base hm, List.head?_cons, ne_eq, Option.some.injEq, Nat.digitChar_eq_zero]
    omega
  | digit m k hk hm ih =>
    obtain ⟨c, cs, hc⟩ := List.exists_cons_of_ne_nil (Nat.toDigits_ne_nil (n := m) (b := 10))
    rw [← Nat.toDigits_append_toDigits (by decide) hm hk]
    rw [hc] at ih ⊢
    exact ih hm

/-- The digits of a number are not refused: they begin with a zero only if they are that zero. -/
theorem toDigits_accepted (n : Nat) :
    (Nat.toDigits 10 n = [] || ((Nat.toDigits 10 n).head? == some '0' && (Nat.toDigits 10 n).length != 1)) =
      false := by
  rcases Nat.eq_zero_or_pos n with rfl | h
  · rfl
  · simp [head?_toDigits_ne_zero h]

theorem fraction?_of_ends {rest : List Char} (h : Ends rest) : fraction? rest = some (none, rest) := by
  cases rest with
  | nil => rfl
  | cons c cs =>
    have := (h c cs rfl).2.1
    unfold fraction?
    split
    · next heq => exact absurd (List.cons.inj heq).1 this
    · rfl

theorem exponent?_of_ends {rest : List Char} (h : Ends rest) : exponent? rest = some (none, rest) := by
  cases rest with
  | nil => rfl
  | cons c cs =>
    obtain ⟨-, -, hlow, hup⟩ := h c cs rfl
    simp [exponent?, hlow, hup]

theorem unsigned?_toDigits (negative : Bool) (n : Nat) {rest : List Char} (h : Ends rest) :
    unsigned? true negative (Nat.toDigits 10 n ++ rest) =
      (numberOf negative (Nat.toDigits 10 n) none none).map (·, rest) := by
  simp only [unsigned?, span_toDigits n h, toDigits_accepted]
  cases hn : numberOf negative (Nat.toDigits 10 n) none none <;>
    simp [fraction?_of_ends h, exponent?_of_ends h, hn]

theorem numberOf_toDigits {n : Int} (h : (Number.integer n).Exact) :
    numberOf (n < 0) (Nat.toDigits 10 n.natAbs) none none = some (.integer n) := by
  have hsigned : (if decide (n < 0) = true then -(n.natAbs : Int) else n.natAbs) = n := by
    by_cases hn : n < 0
    · rw [if_pos (by simpa using hn)]
      omega
    · rw [if_neg (by simpa using hn)]
      omega
  have hzero : ¬ (decide (n < 0) && decide (n = 0)) = true := by
    simp only [Bool.and_eq_true, decide_eq_true_eq]
    omega
  have hrange : (decide (Json.minInteger ≤ n) && decide (n ≤ Json.maxInteger)) = true := by
    simpa [Number.Exact] using h
  simp only [numberOf, digitsValue_toDigits, hsigned]
  rw [if_neg hzero, if_pos hrange]

/-! ### Containers -/

section Containers
variable {α : Type} {l : Layout}

theorem ends_itemsChars (hl : l.Blank) (depth outer : Nat) (items : List Json) (rest : List Char) :
    Ends (itemsChars l depth items ++ (l.newline outer ++ ']' :: rest)) := by
  cases items with
  | nil =>
    rw [itemsChars, List.nil_append]
    exact ends_append (hl.newline outer) (ends_cons (c := ']') (by decide))
  | cons item items => exact ends_cons (c := ',') (by decide)

theorem ends_fieldsChars (hl : l.Blank) (depth outer : Nat) (fields : List (String × Json)) (rest : List Char) :
    Ends (fieldsChars l depth fields ++ (l.newline outer ++ '\x7d' :: rest)) := by
  cases fields with
  | nil =>
    rw [fieldsChars, List.nil_append]
    exact ends_append (hl.newline outer) (ends_cons (c := '\x7d') (by decide))
  | cons field fields => exact ends_cons (c := ',') (by decide)

/-- A reader takes from the text of `j`, with blanks before it, what `f` makes of `j`. -/
def Takes (l : Layout) (depth : Nat) (read : Reader α) (f : Json → Option α) (j : Json) : Prop :=
  ∀ blanks rest, Blanks blanks → Ends rest →
    read (blanks ++ (j.chars l depth ++ rest)) = (f j).map (·, rest)

theorem itemsUpTo_itemsChars (hl : l.Blank) {depth : Nat} (outer : Nat) {read : Reader α} {f : Json → Option α}
    (rest : List Char) :
    ∀ (items : List Json) (item : Json) (blanks : List Char) (fuel : Nat), Blanks blanks →
      (∀ j ∈ item :: items, Takes l depth read f j) → items.length < fuel →
      itemsUpTo read fuel (blanks ++ (item.chars l depth ++
          (itemsChars l depth items ++ (l.newline outer ++ ']' :: rest)))) =
        ((item :: items).mapM f).map (·, rest)
  | items, item, _, 0, _, _, hf => absurd hf (Nat.not_lt_zero _)
  | [], item, blanks, fuel + 1, hb, h, _ => by
    have hend := skipBlanks_append_cons (hl.newline outer) (c := ']') rfl rest
    rw [itemsUpTo, h item (List.mem_cons_self ..) _ _ hb (ends_itemsChars hl depth outer [] rest)]
    cases hi : f item <;> simp [hi, itemsChars, hend]
  | next :: items, item, blanks, fuel + 1, hb, h, hf => by
    have ih := itemsUpTo_itemsChars hl outer rest items next (l.newline depth) fuel (hl.newline depth)
      (fun j hj => h j (List.mem_cons_of_mem _ hj)) (by simpa using hf)
    rw [itemsUpTo, h item (List.mem_cons_self ..) _ _ hb (ends_itemsChars hl depth outer (next :: items) rest)]
    cases hi : f item with
    | none => simp [hi]
    | some x =>
      simp only [Option.map_some, itemsChars, List.cons_append, List.append_assoc,
        skipBlanks_cons (c := ',') rfl, ih]
      cases hn : (next :: items).mapM f <;> simp [List.mapM_cons, hi, hn]

theorem fieldsUpTo_fieldsChars (hl : l.Blank) {depth : Nat} (outer : Nat) {read : String → Reader α}
    {f : String → Json → Option α} (rest : List Char) :
    ∀ (fields : List (String × Json)) (field : String × Json) (blanks : List Char) (fuel : Nat), Blanks blanks →
      (∀ g ∈ field :: fields, Takes l depth (read g.1) (f g.1) g.2) → fields.length < fuel →
      fieldsUpTo true read fuel (blanks ++ (stringChars field.1 ++ (l.colon ++ (field.2.chars l depth ++
          (fieldsChars l depth fields ++ (l.newline outer ++ '\x7d' :: rest)))))) =
        ((field :: fields).mapM fun g => (f g.1 g.2).map (g.1, ·)).map (·, rest)
  | fields, field, _, 0, _, _, hf => absurd hf (Nat.not_lt_zero _)
  | [], (key, value), blanks, fuel + 1, hb, h, _ => by
    obtain ⟨blanks', hcolon, hb'⟩ := hl.colon
    have hend := skipBlanks_append_cons (hl.newline outer) (c := '\x7d') rfl rest
    have hv := h (key, value) (List.mem_cons_self ..) _ _ hb' (ends_fieldsChars hl depth outer [] rest)
    simp only at hv
    simp only [fieldsUpTo, string?_stringChars hb, hcolon, List.cons_append, skipBlanks_cons (c := ':') rfl, hv]
    cases hi : f key value <;> simp [hi, fieldsChars, hend]
  | (key', value') :: fields, (key, value), blanks, fuel + 1, hb, h, hf => by
    obtain ⟨blanks', hcolon, hb'⟩ := hl.colon
    have ih := fieldsUpTo_fieldsChars hl outer rest fields (key', value') (l.newline depth) fuel
      (hl.newline depth) (fun g hg => h g (List.mem_cons_of_mem _ hg)) (by simpa using hf)
    have hv := h (key, value) (List.mem_cons_self ..) _ _ hb'
      (ends_fieldsChars hl depth outer ((key', value') :: fields) rest)
    simp only at hv
    simp only [fieldsUpTo, string?_stringChars hb, hcolon, List.cons_append, skipBlanks_cons (c := ':') rfl, hv]
    cases hi : f key value with
    | none => simp [hi]
    | some x =>
      simp only [hcolon, List.cons_append] at ih
      simp only [Option.map_some, fieldsChars, List.cons_append, List.append_assoc, hcolon,
        skipBlanks_cons (c := ',') rfl, ih]
      cases hn : ((key', value') :: fields).mapM fun g => (f g.1 g.2).map (g.1, ·) <;>
        simp [List.mapM_cons, hi, hn]

theorem length_le_length_itemsChars (depth : Nat) :
    ∀ items : List Json, items.length ≤ (itemsChars l depth items).length
  | [] => Nat.zero_le _
  | item :: items => by
    have := length_le_length_itemsChars depth items
    simp only [itemsChars, List.length_cons, List.length_append]
    omega

theorem length_le_length_fieldsChars (depth : Nat) :
    ∀ fields : List (String × Json), fields.length ≤ (fieldsChars l depth fields).length
  | [] => Nat.zero_le _
  | (key, value) :: fields => by
    have := length_le_length_fieldsChars depth fields
    simp only [fieldsChars, List.length_cons, List.length_append]
    omega

/-- The text of an exact value begins with a character that neither is a blank nor closes an array. -/
theorem chars_eq_cons (depth : Nat) {j : Json} (h : j.Exact) :
    ∃ c cs, j.chars l depth = c :: cs ∧ isBlank c = false ∧ c ≠ ']' := by
  match j with
  | null => exact ⟨_, _, rfl, rfl, by decide⟩
  | bool true => exact ⟨_, _, rfl, rfl, by decide⟩
  | bool false => exact ⟨_, _, rfl, rfl, by decide⟩
  | string text => exact ⟨_, _, rfl, rfl, by decide⟩
  | array [] => exact ⟨_, _, rfl, rfl, by decide⟩
  | array (item :: items) => exact ⟨_, _, by rw [chars], rfl, by decide⟩
  | object [] => exact ⟨_, _, rfl, rfl, by decide⟩
  | object ((key, value) :: fields) => exact ⟨_, _, by rw [chars], rfl, by decide⟩
  | number (.float x) => exact absurd (h (.float x) (List.mem_cons_self ..)) id
  | number (.integer n) =>
    rw [chars, Number.chars, integerChars]
    split
    · exact ⟨_, _, rfl, rfl, by decide⟩
    · obtain ⟨c, cs, hc⟩ := List.exists_cons_of_ne_nil (Nat.toDigits_ne_nil (n := n.natAbs) (b := 10))
      have hd : c.isDigit = true := isDigit_of_mem_toDigits (n := n.natAbs) (by rw [hc]; exact List.mem_cons_self ..)
      refine ⟨c, cs, hc, isBlank_of_isDigit hd, ?_⟩
      rintro rfl
      exact absurd hd (by decide)

/-- Reading the items of an array, after its opening bracket. -/
theorem items_itemsChars (hl : l.Blank) {depth : Nat} (outer : Nat) {read : Reader α} {f : Json → Option α}
    {item : Json} {items : List Json} (hx : item.Exact) (h : ∀ j ∈ item :: items, Takes l depth read f j)
    (rest : List Char) :
    Json.items read (l.newline depth ++ (item.chars l depth ++
        (itemsChars l depth items ++ (l.newline outer ++ ']' :: rest)))) =
      ((item :: items).mapM f).map (·, rest) := by
  obtain ⟨c, cs, hc, hblank, hclose⟩ := chars_eq_cons (l := l) depth hx
  have key := itemsUpTo_itemsChars hl outer rest items item []
    (item.chars l depth ++ (itemsChars l depth items ++ (l.newline outer ++ ']' :: rest))).length blanks_nil h (by
      have := length_le_length_itemsChars (l := l) depth items
      simp only [List.length_append, List.length_cons]
      omega)
  simp only [List.nil_append] at key
  have hskip : skipBlanks (l.newline depth ++ (item.chars l depth ++
      (itemsChars l depth items ++ (l.newline outer ++ ']' :: rest)))) =
      item.chars l depth ++ (itemsChars l depth items ++ (l.newline outer ++ ']' :: rest)) := by
    rw [hc]
    exact skipBlanks_append_cons (hl.newline depth) hblank _
  rw [Json.items, hskip, ← key]
  split
  · next heq =>
    rw [hc] at heq
    exact absurd (List.cons.inj heq).1 hclose
  · rfl

/-- Reading the fields of an object, after its opening brace. -/
theorem fields_fieldsChars (hl : l.Blank) (depth outer : Nat) (read : String → Reader α)
    (f : String → Json → Option α) (field : String × Json) (fields : List (String × Json))
    (h : ∀ g ∈ field :: fields, Takes l depth (read g.1) (f g.1) g.2) (rest : List Char) :
    Json.fields true read (l.newline depth ++ (stringChars field.1 ++ (l.colon ++ (field.2.chars l depth ++
        (fieldsChars l depth fields ++ (l.newline outer ++ '\x7d' :: rest)))))) =
      ((field :: fields).mapM fun g => (f g.1 g.2).map (g.1, ·)).map (·, rest) := by
  have key := fieldsUpTo_fieldsChars hl outer rest fields field []
    (stringChars field.1 ++ (l.colon ++ (field.2.chars l depth ++
      (fieldsChars l depth fields ++ (l.newline outer ++ '\x7d' :: rest))))).length blanks_nil h (by
      have := length_le_length_fieldsChars (l := l) depth fields
      simp only [List.length_append, List.length_cons]
      omega)
  simp only [List.nil_append] at key
  have hskip : skipBlanks (l.newline depth ++ (stringChars field.1 ++ (l.colon ++ (field.2.chars l depth ++
      (fieldsChars l depth fields ++ (l.newline outer ++ '\x7d' :: rest)))))) =
      stringChars field.1 ++ (l.colon ++ (field.2.chars l depth ++
        (fieldsChars l depth fields ++ (l.newline outer ++ '\x7d' :: rest)))) :=
    skipBlanks_append_cons (hl.newline depth) (c := '\x22') rfl _
  rw [Json.fields, hskip, ← key]
  split
  · next heq => exact absurd (List.cons.inj heq).1 (by decide)
  · rfl

end Containers

/-! ### Values -/

/-- What is read from the text of a value if `d` containers may be nested. -/
def accepted (d : Nat) (j : Json) : Option Json := if j.depth ≤ d then some j.canonical else none

theorem mapM_accepted (d : Nat) :
    ∀ items : List Json, items.mapM (accepted d) = if itemsDepth items ≤ d then some (items.map canonical) else none
  | [] => by simp [itemsDepth]
  | item :: items => by
    simp only [List.mapM_cons, mapM_accepted d items, itemsDepth, Nat.max_le]
    by_cases h : item.depth ≤ d <;> by_cases hs : itemsDepth items ≤ d <;> simp [accepted, h, hs]

theorem mapM_fields_accepted (d : Nat) :
    ∀ fields : List (String × Json), (fields.mapM fun g => (accepted d g.2).map (g.1, ·)) =
      if fieldsDepth fields ≤ d then some (fields.map fun g => (g.1, g.2.canonical)) else none
  | [] => by simp [fieldsDepth]
  | (key, value) :: fields => by
    simp only [List.mapM_cons, mapM_fields_accepted d fields, fieldsDepth, Nat.max_le]
    by_cases h : value.depth ≤ d <;> by_cases hs : fieldsDepth fields ≤ d <;> simp [accepted, h, hs]

theorem value?_skipBlanks (checked : Bool) (d : Nat) (cs : List Char) :
    value? checked d (skipBlanks cs) = value? checked d cs := by
  rw [value?.eq_def, value?.eq_def checked d cs, skipBlanks_skipBlanks]

theorem value?_blanks {d : Nat} {blanks cs : List Char} (hb : Blanks blanks) :
    value? true d (blanks ++ cs) = value? true d cs := by
  rw [← value?_skipBlanks, skipBlanks_append hb, value?_skipBlanks]

theorem value?_digit (d : Nat) {c : Char} (h : c.isDigit = true) (cs : List Char) :
    value? true d (c :: cs) = (unsigned? true false (c :: cs)).map fun r => (number r.1, r.2) := by
  -- No other kind of value begins with a digit.
  have hne : ∀ {x : Char} {rest : List Char}, x.isDigit = false → c :: cs ≠ x :: rest := fun hx heq => by
    rw [(List.cons.inj heq).1, hx] at h
    cases h
  rw [value?.eq_def, skipBlanks_cons (isBlank_of_isDigit h)]
  split
  case h_8 => rfl
  all_goals exact absurd ‹_› (hne (by decide))

theorem value?_array (d : Nat) (cs : List Char) :
    value? true (d + 1) ('[' :: cs) = (items (value? true d) cs).map fun r => (array r.1, r.2) := rfl

theorem value?_object (d : Nat) (cs : List Char) :
    value? true (d + 1) ('\x7b' :: cs) =
      (fields true (fun _ => value? true d) cs).map fun r => (object (sortFields r.1), r.2) := rfl

theorem value?_zero_array (cs : List Char) : value? true 0 ('[' :: cs) = none := rfl

theorem value?_zero_object (cs : List Char) : value? true 0 ('\x7b' :: cs) = none := rfl

theorem value?_integerChars (d : Nat) {n : Int} (h : (Number.integer n).Exact) {rest : List Char} (he : Ends rest) :
    value? true d (integerChars n ++ rest) = some (number (.integer n), rest) := by
  have hof := numberOf_toDigits h
  unfold integerChars
  split
  · next hn =>
    rw [decide_eq_true hn] at hof
    have hread : value? true d ('-' :: (Nat.toDigits 10 n.natAbs ++ rest)) =
        (unsigned? true true (Nat.toDigits 10 n.natAbs ++ rest)).map fun r => (number r.1, r.2) := by
      cases d <;> rfl
    rw [List.cons_append, hread, unsigned?_toDigits true n.natAbs he, hof]
    rfl
  · next hn =>
    rw [decide_eq_false hn] at hof
    obtain ⟨c, cs, hc⟩ := List.exists_cons_of_ne_nil (Nat.toDigits_ne_nil (n := n.natAbs) (b := 10))
    have hd : c.isDigit = true := isDigit_of_mem_toDigits (n := n.natAbs) (by rw [hc]; exact List.mem_cons_self ..)
    have hread := unsigned?_toDigits false n.natAbs he
    rw [hof, hc, List.cons_append] at hread
    rw [hc, List.cons_append, value?_digit d hd, hread]
    rfl

/-- Reading undoes writing: from the text of an exact value its canonical form is taken, unless it nests
    too many containers. -/
theorem takes_value? {l : Layout} (hl : l.Blank) {j : Json} (hj : j.Exact) :
    ∀ depth d, Takes l depth (value? true d) (accepted d) j := by
  induction j using induction with
  | null =>
    intro depth d blanks rest hb he
    rw [value?_blanks hb]
    cases d <;> rfl
  | bool b =>
    intro depth d blanks rest hb he
    rw [value?_blanks hb]
    cases b <;> cases d <;> rfl
  | string text =>
    intro depth d blanks rest hb he
    have hread : value? true d (stringChars text ++ rest) =
        (stringBody true (text.toList.flatMap escapedChar ++ '\x22' :: rest)).map fun r =>
          (string (String.ofList r.1), r.2) := by
      cases d <;> simp [value?, stringChars, skipBlanks_cons, isBlank]
    rw [value?_blanks hb, chars, hread, stringBody_flatMap]
    simp [accepted, Json.depth, canonical]
  | number n =>
    intro depth d blanks rest hb he
    have hn : n.Exact := hj n (List.mem_cons_self ..)
    cases n with
    | float x => exact absurd hn id
    | integer n =>
      rw [value?_blanks hb, chars, Number.chars, value?_integerChars d hn he]
      simp [accepted, Json.depth, canonical]
  | array items ih =>
    intro depth d blanks rest hb he
    have ih := fun d j hm => ih j hm (exact_array_iff.mp hj j hm) (depth + 1) d
    rw [value?_blanks hb]
    cases d with
    | zero => cases items <;> simp [chars, value?_zero_array, accepted, Json.depth]
    | succ d =>
      cases items with
      | nil =>
        rw [chars, List.cons_append, value?_array]
        simp [items, skipBlanks_cons, isBlank, accepted, Json.depth, itemsDepth, canonical, canonicalItems]
      | cons item items =>
        have hitem : item.Exact := exact_array_iff.mp hj item (List.mem_cons_self ..)
        have key := items_itemsChars hl depth hitem (ih d) rest
        simp only [chars, List.cons_append, List.append_assoc, List.nil_append, value?_array, key, mapM_accepted,
          accepted, Json.depth, Nat.add_le_add_iff_right]
        split <;> simp [canonical_array]
  | object fields ih =>
    intro depth d blanks rest hb he
    have ih := fun d g hm => ih g hm (exact_object_iff.mp hj g hm) (depth + 1) d
    rw [value?_blanks hb]
    cases d with
    | zero => cases fields <;> simp [chars, value?_zero_object, accepted, Json.depth]
    | succ d =>
      cases fields with
      | nil =>
        rw [chars, List.cons_append, value?_object]
        simp [fields, skipBlanks_cons, isBlank, accepted, Json.depth, fieldsDepth, canonical, canonicalFields]
      | cons field fields =>
        have key := fields_fieldsChars hl (depth + 1) depth (fun _ => value? true d) (fun _ => accepted d) field fields
          (ih d) rest
        rw [mapM_fields_accepted] at key
        simp only [chars, List.cons_append, List.append_assoc, List.nil_append, value?_object, key, accepted,
          Json.depth, Nat.add_le_add_iff_right]
        split <;> simp [canonical_object]

theorem parse?_chars {l : Layout} (hl : l.Blank) {j : Json} (hj : j.Exact) :
    parse? (String.ofList (j.chars l 0)) = accepted maxDepth j := by
  have hread := takes_value? hl hj 0 maxDepth [] [] blanks_nil ends_nil
  rw [List.nil_append, List.append_nil] at hread
  rw [parse?, String.toList_ofList, complete, hread]
  cases accepted maxDepth j <;> rfl

theorem parse?_compact {j : Json} (hj : j.Exact) : parse? j.compact = accepted maxDepth j :=
  parse?_chars Layout.blank_compact hj

end StageLineage.Json
