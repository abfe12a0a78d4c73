import StageLineage.Proofs.Text.Order

/-! Fingerprints as texts. A text is the fingerprint that it spells in digits of either case, or it is refused for its
    number of bytes or for the first of them that is no digit. Fingerprints are in the order of their texts. -/

namespace StageLineage

/-! ### Digits -/

namespace Hex

def IsDigit (c : Char) : Prop := ('0' ≤ c ∧ c ≤ '9') ∨ ('a' ≤ c ∧ c ≤ 'f') ∨ ('A' ≤ c ∧ c ≤ 'F')

instance (c : Char) : Decidable (IsDigit c) := inferInstanceAs (Decidable (_ ∨ _))

/-- The byte is the code of a digit. -/
def IsDigitByte (b : UInt8) : Prop := ∃ c, IsDigit c ∧ c.val.toUInt8 = b

theorem IsDigit.toNat_lt {c : Char} (h : IsDigit c) : c.toNat < 128 := by
  simp only [IsDigit, Char.le_def, UInt32.le_iff_toNat_le] at h
  have hc : c.toNat = c.val.toNat := rfl
  have hvalues : '9'.val.toNat = 57 ∧ 'f'.val.toNat = 102 ∧ 'F'.val.toNat = 70 := by decide
  omega

theorem IsDigit.exists_value {c : Char} (h : IsDigit c) :
    ∃ v < 16, digitValue? c.val.toUInt8 = some v ∧ digit v = c.toLower := by
  have hascii : ∀ n < 128, IsDigit (Char.ofNat n) → ∃ v < 16, digitValue? (Char.ofNat n).val.toUInt8 = some v ∧
      digit v = (Char.ofNat n).toLower := by decide +kernel
  have hvalue := hascii c.toNat h.toNat_lt
  rw [Char.ofNat_toNat] at hvalue
  exact hvalue h

theorem digitValue?_eq_none {b : UInt8} (h : ¬IsDigitByte b) : digitValue? b = none := by
  have hbyte : ∀ n < 256, (digitValue? (UInt8.ofNat n)).isSome → IsDigit (Char.ofNat n) ∧
      (Char.ofNat n).val.toUInt8 = UInt8.ofNat n := by decide +kernel
  by_contra hsome
  have hdigit := hbyte b.toNat b.toNat_lt
  rw [UInt8.ofNat_toNat] at hdigit
  exact h ⟨_, hdigit (Option.isSome_iff_ne_none.mpr hsome)⟩

theorem IsDigitByte.toNat_lt {b : UInt8} (h : IsDigitByte b) : b.toNat < 128 := by
  obtain ⟨c, hc, rfl⟩ := h
  have hlt : c.val.toNat < 128 := hc.toNat_lt
  rw [UInt32.toNat_toUInt8]
  omega

theorem IsDigitByte.isDigit {c : Char} (hc : c.toNat < 128) (h : IsDigitByte c.val.toUInt8) : IsDigit c := by
  obtain ⟨d, hd, hcode⟩ := h
  have hsame : d.val.toNat % 256 = c.val.toNat % 256 := by
    rw [← UInt32.toNat_toUInt8, ← UInt32.toNat_toUInt8, hcode]
  have hc : c.val.toNat < 128 := hc
  have hd' : d.val.toNat < 128 := hd.toNat_lt
  obtain rfl : d = c := Char.toNat_inj.mp (show d.val.toNat = c.val.toNat by omega)
  exact hd

theorem exists_mem_utf8EncodeChar {c : Char} (h : ¬c.toNat < 128) : ∃ b ∈ String.utf8EncodeChar c, 128 ≤ b.toNat := by
  have hc : ¬c.val.toNat ≤ 127 := fun hle => h (Nat.lt_succ_of_le hle)
  simp only [String.utf8EncodeChar, if_neg hc]
  split_ifs
  all_goals
    refine ⟨_, List.mem_cons_self .., ?_⟩
    rw [UInt8.toNat_ofNat']
    omega

theorem toUTF8_of_digits {text : String} (h : ∀ c ∈ text.toList, IsDigit c) :
    text.toUTF8.toList = text.toList.map (·.val.toUInt8) := by
  have hascii : ∀ c ∈ text.toList, c.val ≤ 127 := fun c hc =>
    UInt32.le_iff_toNat_le.mpr (Nat.le_of_lt_succ (h c hc).toNat_lt)
  rw [← Text.toList_toUTF8_of_ascii hascii, String.ofList_toList]

/-- A text has digits for all of its bytes if and only if it has for all of its characters. -/
theorem forall_isDigitByte_iff {text : String} :
    (∀ b ∈ text.toUTF8.toList, IsDigitByte b) ↔ ∀ c ∈ text.toList, IsDigit c := by
  constructor
  · intro h c hc
    have hbytes : ∀ b ∈ String.utf8EncodeChar c, IsDigitByte b := fun b hb => by
      refine h b ?_
      rw [← String.ofList_toList (s := text), Text.toList_toUTF8_ofList]
      exact List.mem_flatMap.mpr ⟨c, hc, hb⟩
    by_cases hascii : c.toNat < 128
    · have hsize : c.utf8Size = 1 :=
        Char.utf8Size_eq_one_iff.mpr (UInt32.le_iff_toNat_le.mpr (Nat.le_of_lt_succ hascii))
      rw [String.utf8EncodeChar_eq_singleton hsize] at hbytes
      exact (hbytes _ (List.mem_singleton.mpr rfl)).isDigit hascii
    · obtain ⟨b, hb, hge⟩ := exists_mem_utf8EncodeChar hascii
      exact absurd (hbytes b hb).toNat_lt (Nat.not_lt.mpr hge)
  · intro h b hb
    rw [toUTF8_of_digits h] at hb
    obtain ⟨c, hc, rfl⟩ := List.mem_map.mp hb
    exact ⟨c, h c hc, rfl⟩

/-! ### Pairs of digits -/

theorem byteDigits_ofNat {high low : Nat} (hhigh : high < 16) (hlow : low < 16) :
    byteDigits (UInt8.ofNat (16 * high + low)) = [digit high, digit low] := by
  have hvalue : (UInt8.ofNat (16 * high + low)).toNat = 16 * high + low := by
    rw [UInt8.toNat_ofNat']
    omega
  have hdiv : (16 * high + low) / 16 = high := by omega
  have hmod : (16 * high + low) % 16 = low := by omega
  rw [byteDigits, hvalue, hdiv, hmod]

theorem digitAt_eq_ok {b : UInt8} {position v : Nat} (h : digitValue? b = some v) : digitAt position b = .ok v := by
  rw [digitAt, h]

theorem digitAt_eq_error {b : UInt8} {position : Nat} (h : ¬IsDigitByte b) :
    digitAt position b = .error (.invalidDigit b position) := by
  rw [digitAt, digitValue?_eq_none h]

theorem IsDigitByte.exists_value {b : UInt8} (h : IsDigitByte b) : ∃ v, digitValue? b = some v := by
  obtain ⟨c, hc, rfl⟩ := h
  obtain ⟨v, -, hv, -⟩ := hc.exists_value
  exact ⟨v, hv⟩

/-- Digits in pairs spell bytes whose digits are the same up to their case. -/
theorem decodePairs_digits : ∀ {digits : List Char} (position : Nat), (∀ c ∈ digits, IsDigit c) →
    digits.length % 2 = 0 → ∃ bytes, decodePairs position (digits.map (·.val.toUInt8)) = .ok bytes ∧
      encode bytes = digits.map Char.toLower
  | [], _, _, _ => ⟨[], rfl, rfl⟩
  | [_], _, _, heven => absurd heven (by simp)
  | c :: d :: digits, position, h, heven => by
    obtain ⟨hc, hrest⟩ := List.forall_mem_cons.mp h
    obtain ⟨hd, hrest⟩ := List.forall_mem_cons.mp hrest
    obtain ⟨high, hhigh, hcvalue, hcdigit⟩ := hc.exists_value
    obtain ⟨low, hlow, hdvalue, hddigit⟩ := hd.exists_value
    obtain ⟨bytes, hbytes, hencode⟩ := decodePairs_digits (position + 2) hrest (by
      simp only [List.length_cons] at heven
      omega)
    refine ⟨UInt8.ofNat (16 * high + low) :: bytes, ?_, ?_⟩
    · rw [List.map_cons, List.map_cons, decodePairs, digitAt_eq_ok hcvalue, digitAt_eq_ok hdvalue, hbytes]
      rfl
    · rw [encode, List.flatMap_cons, byteDigits_ofNat hhigh hlow, ← encode, hencode, hcdigit, hddigit]
      rfl

/-- The first byte that is no digit is named with its position. -/
theorem decodePairs_eq_error {b : UInt8} {after : List UInt8} (hb : ¬IsDigitByte b) :
    ∀ {before : List UInt8} (position : Nat), (∀ x ∈ before, IsDigitByte x) →
      (before ++ b :: after).length % 2 = 0 →
      decodePairs position (before ++ b :: after) = .error (.invalidDigit b (position + before.length))
  | [], position, _, heven => by
    cases after with
    | nil => exact absurd heven (by simp)
    | cons x after =>
      rw [List.nil_append, decodePairs, digitAt_eq_error hb]
      rfl
  | [x], position, h, _ => by
    obtain ⟨v, hv⟩ := (h x (List.mem_singleton.mpr rfl)).exists_value
    rw [List.singleton_append, decodePairs, digitAt_eq_ok hv, digitAt_eq_error hb]
    rfl
  | x :: y :: before, position, h, heven => by
    obtain ⟨hx, hrest⟩ := List.forall_mem_cons.mp h
    obtain ⟨hy, hrest⟩ := List.forall_mem_cons.mp hrest
    obtain ⟨high, hhigh⟩ := hx.exists_value
    obtain ⟨low, hlow⟩ := hy.exists_value
    have hrestEven : (before ++ b :: after).length % 2 = 0 := by
      simp only [List.cons_append, List.length_cons] at heven
      omega
    have herror := decodePairs_eq_error hb (position + 2) hrest hrestEven
    rw [List.cons_append, List.cons_append, decodePairs, digitAt_eq_ok hhigh, digitAt_eq_ok hlow, herror,
      List.length_cons, List.length_cons, Nat.add_right_comm position 2, Nat.add_assoc]
    rfl

theorem decode_of_even {bytes : List UInt8} (heven : bytes.length % 2 = 0) : decode bytes = decodePairs 0 bytes := by
  have hodd : ¬bytes.length % 2 = 1 := by omega
  rw [decode, if_neg hodd]

theorem decode_digits {text : String} (h : ∀ c ∈ text.toList, IsDigit c) (heven : text.length % 2 = 0) :
    ∃ bytes, decode text.toUTF8.toList = .ok bytes ∧ 2 * bytes.length = text.length ∧
      encode bytes = text.toLower.toList := by
  rw [← String.length_toList] at heven
  obtain ⟨bytes, hbytes, hencode⟩ := decodePairs_digits 0 h heven
  refine ⟨bytes, ?_, ?_, hencode.trans String.toList_map.symm⟩
  · rw [toUTF8_of_digits h, decode_of_even (by rwa [List.length_map]), hbytes]
  · rw [← length_encode, hencode, List.length_map, String.length_toList]

/-! ### The order of digits -/

theorem compare_digit : ∀ m < 16, ∀ n < 16, compare (digit m).val.toUInt8 (digit n).val.toUInt8 = compare m n := by
  decide

theorem compare_toNat (b b' : UInt8) : compare b.toNat b'.toNat =
    (compare (b.toNat / 16) (b'.toNat / 16)).then (compare (b.toNat % 16) (b'.toNat % 16)) := by
  rcases Nat.lt_trichotomy (b.toNat / 16) (b'.toNat / 16) with hlt | heq | hgt
  · rw [Nat.compare_eq_lt.mpr hlt, Nat.compare_eq_lt.mpr (by omega)]
    rfl
  · rw [heq, Nat.compare_eq_eq.mpr rfl]
    rcases Nat.lt_trichotomy (b.toNat % 16) (b'.toNat % 16) with hlt | heq | hgt
    · rw [Nat.compare_eq_lt.mpr hlt, Nat.compare_eq_lt.mpr (by omega)]
      rfl
    · rw [Nat.compare_eq_eq.mpr heq, Nat.compare_eq_eq.mpr (by omega)]
      rfl
    · rw [Nat.compare_eq_gt.mpr hgt, Nat.compare_eq_gt.mpr (by omega)]
      rfl
  · rw [Nat.compare_eq_gt.mpr hgt, Nat.compare_eq_gt.mpr (by omega)]
    rfl

/-- Bytes are compared as their digits are. -/
theorem compare_encode : ∀ bytes bytes' : List UInt8,
    compare ((encode bytes).map (·.val.toUInt8)) ((encode bytes').map (·.val.toUInt8)) =
      compare (bytes.map UInt8.toNat) (bytes'.map UInt8.toNat)
  | [], [] => rfl
  | [], _ :: _ => rfl
  | _ :: _, [] => rfl
  | b :: bytes, b' :: bytes' => by
    have hcons : ∀ x xs, (encode (x :: xs)).map (·.val.toUInt8) = (digit (x.toNat / 16)).val.toUInt8 ::
        (digit (x.toNat % 16)).val.toUInt8 :: (encode xs).map (·.val.toUInt8) := fun _ _ => rfl
    rw [hcons, hcons, List.compare_cons_cons, List.compare_cons_cons, compare_encode bytes bytes',
      compare_digit _ (toNat_div_lt b) _ (toNat_div_lt b'), compare_digit _ (toNat_mod_lt b) _ (toNat_mod_lt b'),
      List.map_cons, List.map_cons, List.compare_cons_cons, compare_toNat, Ordering.then_assoc]

end Hex

/-! ### Fingerprints as texts -/

namespace Fingerprint
open Hex

/-- What a text is read as. -/
inductive Reads (text : String) : Except FingerprintError Fingerprint → Prop
  | oddLength (hodd : text.toUTF8.toList.length % 2 = 1) : Reads text (.error (.hex .oddLength))
  | invalidDigit {before after : List UInt8} {b : UInt8} (heven : text.toUTF8.toList.length % 2 = 0)
      (hbytes : text.toUTF8.toList = before ++ b :: after) (hbefore : ∀ x ∈ before, IsDigitByte x)
      (hb : ¬IsDigitByte b) : Reads text (.error (.hex (.invalidDigit b before.length)))
  | invalidLength (heven : text.toUTF8.toList.length % 2 = 0) (hdigits : ∀ b ∈ text.toUTF8.toList, IsDigitByte b)
      (hlength : text.toUTF8.toList.length ≠ 64) : Reads text (.error (.invalidLength (text.toUTF8.toList.length / 2)))
  | spelled {f : Fingerprint} (hlength : text.length = 64) (hdigits : ∀ c ∈ text.toList, IsDigit c)
      (hhex : f.toHex = text.toLower) : Reads text (.ok f)

variable {text : String} {r : Except FingerprintError Fingerprint}

theorem toHex_inj {f g : Fingerprint} (h : f.toHex = g.toHex) : f = g := hexDigits_inj (String.ofList_inj.mp h)

theorem length_toUTF8 (h : ∀ c ∈ text.toList, IsDigit c) : text.toUTF8.toList.length = text.length := by
  rw [toUTF8_of_digits h, List.length_map, String.length_toList]

theorem exists_ofHex (hlength : text.length = 64) (hdigits : ∀ c ∈ text.toList, IsDigit c) :
    ∃ f, ofHex text = .ok f ∧ f.toHex = text.toLower := by
  obtain ⟨bytes, hdecode, hbytes, hencode⟩ := decode_digits hdigits (by omega)
  have hsize : bytes.toArray.size = 32 := by
    rw [List.size_toArray]
    omega
  refine ⟨⟨⟨bytes.toArray, hsize⟩⟩, ?_, ?_⟩
  · simp only [ofHex, hdecode, ofBytes, hsize, ↓reduceDIte]
  · rw [toHex, hexDigits, Vector.toList_mk, hencode, String.ofList_toList]

theorem Reads.ofHex_eq (h : Reads text r) : ofHex text = r := by
  cases h with
  | oddLength hodd => rw [ofHex, decode, if_pos hodd]
  | invalidDigit heven hbytes hbefore hb =>
    rw [hbytes] at heven
    rw [ofHex, hbytes, decode_of_even heven, decodePairs_eq_error hb 0 hbefore heven, Nat.zero_add]
  | invalidLength heven hdigits hlength =>
    have hchars := forall_isDigitByte_iff.mp hdigits
    rw [length_toUTF8 hchars] at heven hlength ⊢
    obtain ⟨bytes, hdecode, hbytes, -⟩ := decode_digits hchars heven
    have hsize : ¬bytes.toArray.size = 32 := by
      rw [List.size_toArray]
      omega
    have hhalf : bytes.length = text.length / 2 := by omega
    simp only [ofHex, hdecode, ofBytes, hsize, ↓reduceDIte, hhalf]
  | spelled hlength hdigits hhex =>
    obtain ⟨f, hread, hf⟩ := exists_ofHex hlength hdigits
    rw [hread, toHex_inj (hf.trans hhex.symm)]

theorem exists_reads (text : String) : ∃ r, Reads text r := by
  classical
  rcases Nat.mod_two_eq_zero_or_one text.toUTF8.toList.length with heven | hodd
  swap
  · exact ⟨_, .oddLength hodd⟩
  cases hfirst : text.toUTF8.toList.find? fun b => ¬IsDigitByte b with
  | some b =>
    obtain ⟨hb, before, after, hbytes, hbefore⟩ := List.find?_eq_some_iff_append.mp hfirst
    exact ⟨_, .invalidDigit heven hbytes (by simpa using hbefore) (by simpa using hb)⟩
  | none =>
    have hdigits : ∀ b ∈ text.toUTF8.toList, IsDigitByte b := by simpa using List.find?_eq_none.mp hfirst
    by_cases hlength : text.toUTF8.toList.length = 64
    · have hchars := forall_isDigitByte_iff.mp hdigits
      rw [length_toUTF8 hchars] at hlength
      obtain ⟨f, -, hf⟩ := exists_ofHex hlength hchars
      exact ⟨_, .spelled hlength hchars hf⟩
    · exact ⟨_, .invalidLength heven hdigits hlength⟩

theorem ofHex_eq_iff : ofHex text = r ↔ Reads text r := by
  refine ⟨fun h => ?_, Reads.ofHex_eq⟩
  obtain ⟨r', hr'⟩ := exists_reads text
  rwa [← h, hr'.ofHex_eq]

theorem exists_ofHex_iff : (∃ f, ofHex text = .ok f) ↔ text.length = 64 ∧ ∀ c ∈ text.toList, IsDigit c := by
  constructor
  · rintro ⟨f, hf⟩
    cases ofHex_eq_iff.mp hf with
    | spelled hlength hdigits _ => exact ⟨hlength, hdigits⟩
  · rintro ⟨hlength, hdigits⟩
    obtain ⟨f, hf, -⟩ := exists_ofHex hlength hdigits
    exact ⟨f, hf⟩

theorem compare_toHex (f g : Fingerprint) : compare f g = compare f.toHex.toUTF8.toList g.toHex.toUTF8.toList := by
  have hbytes : ∀ f : Fingerprint, f.toHex.toUTF8.toList = (encode f.bytes.toList).map (·.val.toUInt8) := fun f =>
    Text.toList_toUTF8_of_ascii fun c hc => encode_le_127 hc
  rw [hbytes, hbytes, compare_encode]
  rfl

/-- Fingerprints are read from the texts of 64 digits, whose lower case is written for them, and any other text is
    refused: for an odd number of bytes, else for its first byte that is no digit, else for its length. A fingerprint
    is read back from its text, and fingerprints are compared as the bytes of their texts are. -/
theorem ofHex_spelled :
    (∀ text, (∃ f, ofHex text = .ok f) ↔ text.length = 64 ∧ ∀ c ∈ text.toList, IsDigit c) ∧
    (∀ text r, ofHex text = r ↔ Reads text r) ∧
    (∀ f : Fingerprint, ofHex f.toHex = .ok f) ∧
    ∀ f g : Fingerprint, compare f g = compare f.toHex.toUTF8.toList g.toHex.toUTF8.toList :=
  ⟨fun _ => exists_ofHex_iff, fun _ _ => ofHex_eq_iff, ofHex_toHex, compare_toHex⟩

/-- A character beyond ASCII has several bytes, of which the first is named. -/
example : ofHex "\u00e9" = .error (.hex (.invalidDigit 0xc3 0)) := by cbv

end Fingerprint
end StageLineage
