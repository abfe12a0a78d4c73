import StageLineage.Proofs.Json.Reader
import StageLineage.Proofs.Json.RoundTrip

/-! What the text of a value tells. On one line, it holds no character below the blank, and exact values
    whose texts are the same have the same canonical form. -/

namespace StageLineage.Json

/-! ### Characters -/

/-- No character is a control character below the blank. -/
def Shown (cs : List Char) : Prop := ∀ c ∈ cs, 0x20 ≤ c.toNat

instance : DecidablePred Shown := List.decidableBAll fun c : Char => 0x20 ≤ c.toNat

theorem shown_nil : Shown [] := fun _ h => nomatch h

theorem shown_cons {c : Char} {cs : List Char} : Shown (c :: cs) ↔ 0x20 ≤ c.toNat ∧ Shown cs := List.forall_mem_cons

theorem shown_append {cs ds : List Char} : Shown (cs ++ ds) ↔ Shown cs ∧ Shown ds := List.forall_mem_append

theorem shown_escapedChar (c : Char) : Shown (escapedChar c) := by
  have hdigit : ∀ n < 16, 0x20 ≤ (Nat.digitChar n).toNat := by decide
  unfold escapedChar
  iterate 7
    split
    · decide
  split
  · next hcontrol =>
    have hhigh := hdigit (c.toNat / 16) (by omega)
    have hlow := hdigit (c.toNat % 16) (by omega)
    simp [shown_cons, hhigh, hlow, shown_nil]
  · next hcontrol => simpa [shown_cons, shown_nil] using hcontrol

theorem shown_stringChars (text : String) : Shown (stringChars text) := by
  rw [stringChars, shown_cons, shown_append]
  refine ⟨by decide, fun c hc => ?_, by decide⟩
  obtain ⟨d, -, hd⟩ := List.mem_flatMap.mp hc
  exact shown_escapedChar d c hd

theorem shown_toDigits (n : Nat) : Shown (Nat.toDigits 10 n) := fun c hc => by
  have hzero : '0'.toNat = 0x30 := rfl
  have := Char.isDigit_iff_toNat.mp (isDigit_of_mem_toDigits hc)
  omega

theorem shown_zeros (n : Nat) : Shown (List.replicate n '0') := fun _ hc => by
  rw [List.eq_of_mem_replicate hc]
  decide

theorem shown_integerChars (n : Int) : Shown (integerChars n) := by
  unfold integerChars
  split
  · exact shown_cons.mpr ⟨by decide, shown_toDigits _⟩
  · exact shown_toDigits _

theorem shown_shortest (x : Binary64) : Shown x.shortest.digits := by
  have hkept : ∀ n, Shown (if ((Nat.toDigits 10 n).reverse.dropWhile (· == '0')).reverse.isEmpty then ['0']
      else ((Nat.toDigits 10 n).reverse.dropWhile (· == '0')).reverse) := fun n => by
    split
    · decide
    · intro c hc
      exact shown_toDigits n c (List.mem_reverse.mp (List.dropWhile_subset _ (List.mem_reverse.mp hc)))
  exact hkept _

theorem shown_decimalChars {d : Binary64.Decimal} (h : Shown d.digits) : Shown d.chars := by
  have htake : ∀ n, Shown (d.digits.take n) := fun n c hc => h c (List.mem_of_mem_take hc)
  have hdrop : ∀ n, Shown (d.digits.drop n) := fun n c hc => h c (List.mem_of_mem_drop hc)
  unfold Binary64.Decimal.chars
  split
  · simp only [shown_append, and_assoc]
    refine ⟨htake _, shown_zeros _, by decide, ?_⟩
    split
    · decide
    · exact hdrop _
  · split
    · simp only [shown_append]
      exact ⟨⟨by decide, shown_zeros _⟩, h⟩
    · simp only [shown_append, shown_cons]
      refine ⟨⟨?_, by decide, ?_, shown_nil⟩, shown_toDigits _⟩
      · split
        · next first second more hdigits =>
          rw [hdigits, shown_cons, shown_cons] at h
          exact shown_cons.mpr ⟨h.1, shown_cons.mpr ⟨by decide, shown_cons.mpr h.2⟩⟩
        · exact h
      · split <;> decide

theorem shown_floatChars (x : Binary64) : Shown x.chars := by
  unfold Binary64.chars
  rw [shown_append]
  constructor
  · split <;> decide
  · split
    · decide
    · exact shown_decimalChars (shown_shortest x)

theorem shown_itemsChars (depth : Nat) {items : List Json} (h : ∀ j ∈ items, ∀ d, Shown (j.chars .compact d)) :
    Shown (itemsChars .compact depth items) := by
  induction items with
  | nil => exact shown_nil
  | cons item items ih =>
    obtain ⟨hitem, hitems⟩ := List.forall_mem_cons.mp h
    simp only [itemsChars, shown_cons, shown_append]
    exact ⟨by decide, ⟨shown_nil, hitem depth⟩, ih hitems⟩

theorem shown_fieldsChars (depth : Nat) {fields : List (String × Json)}
    (h : ∀ f ∈ fields, ∀ d, Shown (f.2.chars .compact d)) : Shown (fieldsChars .compact depth fields) := by
  induction fields with
  | nil => exact shown_nil
  | cons field fields ih =>
    obtain ⟨hfield, hfields⟩ := List.forall_mem_cons.mp h
    simp only [fieldsChars, shown_cons, shown_append]
    exact ⟨by decide, ⟨⟨⟨shown_nil, shown_stringChars _⟩, by decide⟩, hfield depth⟩, ih hfields⟩

/-- The text of a value on one line has no control characters below the blank; those in strings are escaped. -/
theorem shown_chars (j : Json) : ∀ depth, Shown (j.chars .compact depth) := by
  induction j using induction with
  | null => exact fun _ => (by decide : Shown ['n', 'u', 'l', 'l'])
  | bool b =>
    cases b with
    | false => exact fun _ => (by decide : Shown ['f', 'a', 'l', 's', 'e'])
    | true => exact fun _ => (by decide : Shown ['t', 'r', 'u', 'e'])
  | number n =>
    cases n with
    | integer n => exact fun _ => shown_integerChars n
    | float x => exact fun _ => shown_floatChars x
  | string text => exact fun _ => shown_stringChars text
  | array items ih =>
    intro depth
    cases items with
    | nil => exact (by decide : Shown ['[', ']'])
    | cons item items =>
      obtain ⟨hitem, hitems⟩ := List.forall_mem_cons.mp ih
      simp only [chars, shown_cons, shown_append]
      exact ⟨by decide, ⟨⟨⟨shown_nil, hitem _⟩, shown_itemsChars _ hitems⟩, shown_nil⟩, by decide, shown_nil⟩
  | object fields ih =>
    intro depth
    cases fields with
    | nil => exact (by decide : Shown ['\x7b', '\x7d'])
    | cons field fields =>
      obtain ⟨hfield, hfields⟩ := List.forall_mem_cons.mp ih
      simp only [chars, shown_cons, shown_append]
      exact ⟨by decide, ⟨⟨⟨⟨⟨shown_nil, shown_stringChars _⟩, by decide⟩, hfield _⟩,
        shown_fieldsChars _ hfields⟩, shown_nil⟩, by decide, shown_nil⟩

theorem shown_canonicalText (j : Json) : Shown j.canonicalText.toList := by
  rw [canonicalText, compact, String.toList_ofList]
  exact shown_chars _ 0

theorem nul_notMem_canonicalText (j : Json) : '\x00' ∉ j.canonicalText.toList := fun hmem =>
  absurd (j.shown_canonicalText _ hmem) (by decide)

/-! ### Values -/

/-- Exact values have one text only if they differ in the order of fields and in fields that are overridden. -/
theorem canonical_eq_of_compact_eq {j k : Json} (hj : j.Exact) (hk : k.Exact) (h : j.compact = k.compact) :
    j.canonical = k.canonical := by
  have hchars : j.chars .compact 0 = k.chars .compact 0 := String.ofList_inj.mp h
  -- No value is nested too deep for a reader that goes as deep as the deeper of the two.
  have hread : ∀ {i : Json}, i.Exact → i.depth ≤ max j.depth k.depth →
      value? true (max j.depth k.depth) (i.chars .compact 0) = some (i.canonical, []) := fun hi hdepth => by
    have := takes_value? Layout.blank_compact hi 0 (max j.depth k.depth) [] [] blanks_nil ends_nil
    rwa [List.nil_append, List.append_nil, accepted, if_pos hdepth] at this
  have hsame := hread hj (Nat.le_max_left _ _)
  rw [hchars, hread hk (Nat.le_max_right _ _)] at hsame
  exact (congrArg Prod.fst (Option.some.inj hsame)).symm

end StageLineage.Json
