import StageLineage.Fingerprint

/-! Fingerprints and texts. The bytes of an encoded text give the text back, and reading the hexadecimal
    text of a fingerprint gives the fingerprint back. The text that is hashed tells the content and the
    parents, as long as the content has no NUL and no parent's key has a colon. -/

namespace StageLineage

/-! ### Bytes of a text -/

namespace Text

theorem fromUTF8?_toUTF8 (text : String) : String.fromUTF8? text.toUTF8 = some text := by
  simp [String.fromUTF8?, String.toUTF8_eq_toByteArray, text.isValidUTF8]
  rfl

theorem toList_loop (bytes : ByteArray) (i : Nat) (before : List UInt8) :
    ByteArray.toList.loop bytes i before = before.reverse ++ bytes.data.toList.drop i := by
  fun_induction ByteArray.toList.loop bytes i before with
  | case1 i before h ih =>
    have hi : i < bytes.data.toList.length := by simpa using h
    rw [ih, List.drop_eq_getElem_cons hi]
    simp [ByteArray.get!, getElem!_pos bytes.data i (by simpa using h)]
  | case2 i before h =>
    have hi : bytes.data.toList.length ≤ i := by simpa using h
    simp [List.drop_eq_nil_of_le hi]

theorem toList_toUTF8 (text : String) : text.toUTF8.toList = text.toUTF8.data.toList := by
  rw [ByteArray.toList, toList_loop]
  rfl

theorem toUTF8_inj {s t : String} (h : s.toUTF8.toList = t.toUTF8.toList) : s = t := by
  rw [toList_toUTF8, toList_toUTF8] at h
  have hbytes : s.toUTF8 = t.toUTF8 := ByteArray.ext (Array.toList_inj.mp h)
  have hread := fromUTF8?_toUTF8 s
  rw [hbytes, fromUTF8?_toUTF8 t] at hread
  exact (Option.some.inj hread).symm

theorem toList_toUTF8_ofList (cs : List Char) :
    (String.ofList cs).toUTF8.toList = cs.flatMap String.utf8EncodeChar := by
  rw [ByteArray.toList, toList_loop]
  simp [List.utf8Encode]

/-- What stands before a separator and what stands after it, if the first part does not hold it. -/
theorem append_separator_inj {c : Char} :
    ∀ {before before' after after' : List Char}, c ∉ before → c ∉ before' →
      before ++ c :: after = before' ++ c :: after' → before = before' ∧ after = after'
  | [], [], _, _, _, _, h => ⟨rfl, (List.cons.inj h).2⟩
  | [], d :: _, _, _, _, h', h => absurd (List.mem_cons.mpr (Or.inl (List.cons.inj h).1)) h'
  | d :: _, [], _, _, h', _, h => absurd (List.mem_cons.mpr (Or.inl (List.cons.inj h).1.symm)) h'
  | d :: before, d' :: before', _, _, hd, hd', h => by
    obtain ⟨rfl, htail⟩ := List.cons.inj h
    obtain ⟨rfl, rfl⟩ :=
      append_separator_inj (mt (List.mem_cons_of_mem _) hd) (mt (List.mem_cons_of_mem _) hd') htail
    exact ⟨rfl, rfl⟩

/-- A text of ASCII characters has one byte for each. -/
theorem toList_toUTF8_of_ascii {cs : List Char} (h : ∀ c ∈ cs, c.val ≤ 127) :
    (String.ofList cs).toUTF8.toList = cs.map (·.val.toUInt8) := by
  rw [toList_toUTF8_ofList]
  induction cs with
  | nil => rfl
  | cons c cs ih =>
    have hc : String.utf8EncodeChar c = [c.val.toUInt8] :=
      String.utf8EncodeChar_eq_singleton (Char.utf8Size_eq_one_iff.mpr (h c (List.mem_cons_self ..)))
    rw [List.flatMap_cons, hc, ih fun x hx => h x (List.mem_cons_of_mem _ hx)]
    rfl

end Text

/-! ### Hexadecimal digits -/

namespace Hex

theorem digit_le_127 : ∀ n < 16, (digit n).val ≤ 127 := by decide

theorem digitAt_digit (position : Nat) : ∀ n < 16, digitAt position (digit n).val.toUInt8 = .ok n := by
  have h : ∀ n < 16, digitValue? (digit n).val.toUInt8 = some n := by decide
  intro n hn
  rw [digitAt, h n hn]

theorem toNat_div_lt (b : UInt8) : b.toNat / 16 < 16 := by
  have := b.toNat_lt
  omega

theorem toNat_mod_lt (b : UInt8) : b.toNat % 16 < 16 := Nat.mod_lt _ (by decide)

theorem encode_le_127 {bytes : List UInt8} {c : Char} (h : c ∈ encode bytes) : c.val ≤ 127 := by
  obtain ⟨b, -, hc⟩ := List.mem_flatMap.mp h
  simp only [byteDigits, List.mem_cons, List.not_mem_nil, or_false] at hc
  rcases hc with rfl | rfl
  · exact digit_le_127 _ (toNat_div_lt b)
  · exact digit_le_127 _ (toNat_mod_lt b)

theorem length_encode (bytes : List UInt8) : (encode bytes).length = 2 * bytes.length := by
  induction bytes with
  | nil => rfl
  | cons b bytes ih =>
    simp only [encode, List.flatMap_cons, List.length_append] at ih ⊢
    rw [ih]
    simp [byteDigits]
    omega

theorem decodePairs_encode (bytes : List UInt8) :
    ∀ position, decodePairs position ((encode bytes).map (·.val.toUInt8)) = .ok bytes := by
  induction bytes with
  | nil => exact fun _ => rfl
  | cons b bytes ih =>
    intro position
    have htail := ih (position + 2)
    have hbyte : UInt8.ofNat (16 * (b.toNat / 16) + b.toNat % 16) = b := by
      rw [Nat.div_add_mod, UInt8.ofNat_toNat]
    have hdigits : (encode (b :: bytes)).map (·.val.toUInt8) = (digit (b.toNat / 16)).val.toUInt8 ::
        (digit (b.toNat % 16)).val.toUInt8 :: (encode bytes).map (·.val.toUInt8) := rfl
    rw [hdigits, decodePairs, digitAt_digit _ _ (toNat_div_lt b), digitAt_digit _ _ (toNat_mod_lt b), htail]
    exact congrArg (fun x => Except.ok (x :: bytes)) hbyte

theorem decode_encode (bytes : List UInt8) : decode ((encode bytes).map (·.val.toUInt8)) = .ok bytes := by
  have heven : ¬((encode bytes).map (·.val.toUInt8)).length % 2 = 1 := by
    rw [List.length_map, length_encode]
    omega
  rw [decode, if_neg heven, decodePairs_encode]

end Hex

namespace Fingerprint

/-- Reading the text of a fingerprint gives the fingerprint back. -/
theorem ofHex_toHex (f : Fingerprint) : ofHex f.toHex = .ok f := by
  have hbytes : f.toHex.toUTF8.toList = f.hexDigits.map (·.val.toUInt8) :=
    Text.toList_toUTF8_of_ascii fun c hc => Hex.encode_le_127 hc
  have hdecode : Hex.decode f.toHex.toUTF8.toList = .ok f.bytes.toList := by
    rw [hbytes]
    exact Hex.decode_encode _
  have hsize : f.bytes.toList.toArray.size = 32 := by simp
  simp only [ofHex, hdecode, ofBytes, hsize, ↓reduceDIte]
  congr

theorem hexDigits_inj {f g : Fingerprint} (h : f.hexDigits = g.hexDigits) : f = g := by
  have hread := ofHex_toHex f
  rw [toHex, h, ← toHex, ofHex_toHex g] at hread
  exact (Except.ok.inj hread).symm

theorem length_hexDigits (f : Fingerprint) : f.hexDigits.length = 64 := by
  rw [hexDigits, Hex.length_encode, Vector.length_toList]

/-! ### The hashed text -/

/-- The entries after the first, each with the newline before it. -/
def moreChars : List (String × Fingerprint) → List Char
  | [] => []
  | entry :: more => '\n' :: entriesChars (entry :: more)

theorem entriesChars_cons (entry : String × Fingerprint) (more : List (String × Fingerprint)) :
    entriesChars (entry :: more) = entry.1.toList ++ ':' :: (entry.2.hexDigits ++ moreChars more) := by
  cases more <;> simp [entriesChars, entryChars, moreChars]

theorem entriesChars_eq_intercalate : ∀ entries : List (String × Fingerprint),
    entriesChars entries = ("\n".intercalate (entries.map fun e => e.1 ++ ":" ++ e.2.toHex)).toList
  | [] => rfl
  | [entry] => by simp [entriesChars, entryChars, toHex]
  | entry :: next :: more => by
    have hmore := entriesChars_eq_intercalate (next :: more)
    rw [List.map_cons] at hmore
    have hcons : entriesChars (entry :: next :: more) = entryChars entry ++ '\n' :: entriesChars (next :: more) := rfl
    rw [hcons, hmore, List.map_cons, List.map_cons, String.intercalate_cons_cons]
    simp [entryChars, toHex]

/-- The bytes of the hashed text: those of the content, a zero, and those of the entries on lines of their own. -/
def hashedBytes (content : String) (parents : ParentFingerprints) : List UInt8 :=
  content.toUTF8.toList ++ 0x00 :: ("\n".intercalate (parents.entries.map fun e => e.1 ++ ":" ++ e.2.toHex)).toUTF8.toList

theorem toUTF8_hashedText (content : String) (parents : ParentFingerprints) :
    (hashedText content parents).toUTF8.toList = hashedBytes content parents := by
  have hnul : String.utf8EncodeChar '\x00' = [0x00] := by decide
  have hbytes : ∀ text : String, text.toUTF8.toList = text.toList.flatMap String.utf8EncodeChar := fun text => by
    rw [← Text.toList_toUTF8_ofList, String.ofList_toList]
  rw [hashedText, Text.toList_toUTF8_ofList, List.flatMap_append, List.flatMap_cons, hnul, entriesChars_eq_intercalate,
    ← hbytes, ← hbytes, hashedBytes]
  rfl

/-- Keys without colon and fingerprints of one length can be told apart in the text of the entries. -/
theorem entriesChars_inj :
    ∀ {entries entries' : List (String × Fingerprint)}, (∀ e ∈ entries, ':' ∉ e.1.toList) →
      (∀ e ∈ entries', ':' ∉ e.1.toList) → entriesChars entries = entriesChars entries' → entries = entries'
  | [], [], _, _, _ => rfl
  | [], e :: more, _, _, h => by simp [entriesChars_cons, entriesChars] at h
  | e :: more, [], _, _, h => by simp [entriesChars_cons, entriesChars] at h
  | (key, f) :: more, (key', f') :: more', hkeys, hkeys', h => by
    obtain ⟨hkey, hmore⟩ := List.forall_mem_cons.mp hkeys
    obtain ⟨hkey', hmore'⟩ := List.forall_mem_cons.mp hkeys'
    rw [entriesChars_cons, entriesChars_cons] at h
    obtain ⟨hname, hafter⟩ := Text.append_separator_inj hkey hkey' h
    -- All fingerprints have as many digits, so what follows them begins at the same place.
    obtain ⟨hdigits, hrest⟩ := List.append_inj hafter (by rw [length_hexDigits, length_hexDigits])
    obtain rfl := String.toList_inj.mp hname
    obtain rfl := hexDigits_inj hdigits
    have hsame : more = more' := by
      match more, more', hrest with
      | [], [], _ => rfl
      | [], _ :: _, hrest => cases hrest
      | _ :: _, [], hrest => cases hrest
      | e :: more, e' :: more', hrest => exact entriesChars_inj hmore hmore' (List.cons.inj hrest).2
    rw [hsame]

theorem hashedText_inj {content content' : String} {parents parents' : ParentFingerprints}
    (hcontent : '\x00' ∉ content.toList) (hcontent' : '\x00' ∉ content'.toList)
    (hkeys : ∀ e ∈ parents.entries, ':' ∉ e.1.toList) (hkeys' : ∀ e ∈ parents'.entries, ':' ∉ e.1.toList)
    (h : hashedText content parents = hashedText content' parents') : content = content' ∧ parents = parents' := by
  obtain ⟨hsame, hentries⟩ := Text.append_separator_inj hcontent hcontent' (String.ofList_inj.mp h)
  exact ⟨String.toList_inj.mp hsame, SortedMap.ext (entriesChars_inj hkeys hkeys' hentries)⟩

end Fingerprint
end StageLineage
