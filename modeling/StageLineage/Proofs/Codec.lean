import StageLineage.Proofs.Envelope
import StageLineage.Proofs.Json.Same
import Mathlib.Logic.Function.Iterate

/-! What is written comes back. Payloads have one canonical text if and only if their values are the same up to the
    order of keys, and their canonical text is read as the payload itself. Stored envelopes are read as they were
    written, in either layout, unless their content nests too deep. -/

namespace StageLineage
open Json

/-- A value that lists its keys in reverse order. -/
def Json.reversed : Json := .object [("b", .array [.ofNat 1]), ("a", .string "x")]

theorem Json.distinctKeys_reversed : reversed.DistinctKeys :=
  .object (by decide) (by simp [distinctKeys_array_iff, ofNat, DistinctKeys.number, DistinctKeys.string])

/-! ### Payloads -/

namespace Payload
variable {limit limit' : Nat} {input input' : String} {j k : Json} {p p' : Payload}

theorem ofText_eq_ok_iff : ofText limit input = .ok p ↔
    parse? input = some p.value ∧ p.value ≠ .null ∧ p.text.utf8ByteSize ≤ limit := by
  cases hparse : parse? input with
  | none => simp [ofText, hparse]
  | some value =>
    have hcanonical := (readWithin_of_parse? hparse).canonical
    rw [ofText, hparse]
    simp only [Envelope.ofValue_eq_ok_iff, canonicalText, text, hcanonical, Option.some.injEq]
    constructor
    · rintro ⟨hne, hsize, rfl⟩
      exact ⟨rfl, hne, hsize⟩
    · rintro ⟨rfl, hne, hsize⟩
      exact ⟨hne, hsize, rfl⟩

/-- The text lists the keys of the value as the value does, with any blanks between the tokens. -/
structure Spells (input : String) (j : Json) : Prop where
  exact : j.Exact
  distinctKeys : j.DistinctKeys
  chars : ∃ l : Layout, l.Blank ∧ input = String.ofList (j.chars l 0)

theorem Spells.value_eq (hj : Spells input j) (h : ofText limit input = .ok p) : p.value = j.canonical := by
  obtain ⟨l, hl, rfl⟩ := hj.chars
  have hread := (ofText_eq_ok_iff.mp h).1
  rw [parse?_chars hl hj.exact, accepted] at hread
  split at hread
  · exact (Option.some.inj hread).symm
  · cases hread

theorem readWithin_of_ofText (h : ofText limit input = .ok p) : ReadWithin maxDepth p.value :=
  readWithin_of_parse? (ofText_eq_ok_iff.mp h).1

theorem distinctKeys_of_ofText (h : ofText limit input = .ok p) : p.value.DistinctKeys :=
  (readWithin_of_ofText h).canonical ▸ distinctKeys_canonical p.value

theorem text_eq_canonicalText (h : ofText limit input = .ok p) : p.text = p.value.canonicalText := by
  rw [text, canonicalText, (readWithin_of_ofText h).canonical]

theorem ofText_text (h : ofText limit input = .ok p) (hfree : p.value.FloatFree) : ofText limit p.text = .ok p := by
  obtain ⟨-, hne, hsize⟩ := ofText_eq_ok_iff.mp h
  have hread := readWithin_of_ofText h
  refine ofText_eq_ok_iff.mpr ⟨?_, hne, hsize⟩
  rw [text, parse?_compact (hread.exact hfree), accepted, if_pos hread.depth, hread.canonical]

/-- Of texts without floating-point numbers that are accepted as payloads: their canonical texts are equal if and only
    if their values are the same up to the order of keys, whichever way the texts spell them. The canonical text is
    accepted under the same limit and gives the payload again. -/
theorem text_eq_iff_same (h : ofText limit input = .ok p) (h' : ofText limit' input' = .ok p')
    (hfree : p.value.FloatFree) (hfree' : p'.value.FloatFree) :
    (p.text = p'.text ↔ Same p.value p'.value) ∧
    (∀ j k, Spells input j → Spells input' k → (p.text = p'.text ↔ Same j k)) ∧
    ofText limit p.text = .ok p ∧ ofText limit' p'.text = .ok p' := by
  have hexact := (readWithin_of_ofText h).exact hfree
  have hexact' := (readWithin_of_ofText h').exact hfree'
  have htext := text_eq_canonicalText h
  have htext' := text_eq_canonicalText h'
  refine ⟨?_, fun j k hj hk => ?_, ofText_text h hfree, ofText_text h' hfree'⟩
  · rw [htext, htext', canonicalText_eq_iff_same hexact hexact' (distinctKeys_of_ofText h) (distinctKeys_of_ofText h')]
  · rw [text, text, hj.value_eq h, hk.value_eq h']
    exact canonicalText_eq_iff_same hj.exact hk.exact hj.distinctKeys hk.distinctKeys

/-- A text on several lines and a text on one, which list the keys in different orders. -/
theorem text_eq_reversed : ∃ p : Payload, ofText 17 reversed.indented = .ok p ∧
    ofText 17 reversed.canonicalText = .ok p ∧ p.value.FloatFree ∧ Spells reversed.indented reversed ∧
    Spells reversed.canonicalText reversed.canonical ∧ reversed ≠ reversed.canonical ∧
    Same reversed reversed.canonical ∧ ofText 17 p.text = .ok p := by
  have hexact : reversed.Exact := by decide
  have hspells : Spells reversed.indented reversed :=
    ⟨hexact, distinctKeys_reversed, .indented, Layout.blank_indented, rfl⟩
  have hspells' : Spells reversed.canonicalText reversed.canonical :=
    ⟨hexact.canonical, distinctKeys_canonical _, .compact, Layout.blank_compact, rfl⟩
  have hfree : reversed.canonical.FloatFree := by decide
  have hread : ofText 17 reversed.indented = .ok ⟨reversed.canonical⟩ :=
    ofText_eq_ok_iff.mpr ⟨parse?_chars Layout.blank_indented hexact, nofun, by decide⟩
  have hread' : ofText 17 reversed.canonicalText = .ok ⟨reversed.canonical⟩ := ofText_text hread hfree
  obtain ⟨-, hsame, hback, -⟩ := text_eq_iff_same hread hread' hfree hfree
  exact ⟨_, hread, hread', hfree, hspells, hspells', fun heq => absurd (congrArg compact heq) (by decide),
    (hsame _ _ hspells hspells').mp rfl, hback⟩

end Payload

/-! ### Envelopes -/

namespace Envelope

/-- The envelopes differ at most in the order of the keys of their contents. -/
structure Same (e e' : Envelope) : Prop where
  content : Json.Same e.content e'.content
  fingerprint : e.fingerprint = e'.fingerprint
  parents : e.parents = e'.parents

theorem ofBytes?_encode_of_depth_le (pretty : Bool) {e : Envelope} (he : e.content.Exact)
    (hdepth : e.content.depth ≤ contentDepth) :
    ofBytes? (e.encode pretty).toUTF8 = some { e with content := e.content.canonical } := by
  rw [ofBytes?_encode pretty he, stored?, if_pos hdepth]

/-- Whichever layout it is written in, an envelope without floating-point numbers is read as itself if its content
    nests at most 126 containers, and refused if it nests more. So an envelope that was read, from whatever bytes, is
    what is read from its own text. -/
theorem ofBytes?_encode_same (pretty : Bool) :
    (∀ e : Envelope, e.content.Exact → e.content.DistinctKeys →
      (e.content.depth ≤ 126 → ∃ e', ofBytes? (e.encode pretty).toUTF8 = some e' ∧ e'.Same e ∧
        (e.content.canonical = e.content → e' = e)) ∧
      (126 < e.content.depth → ofBytes? (e.encode pretty).toUTF8 = none)) ∧
    ∀ bytes e, ofBytes? bytes = some e → e.content.FloatFree → ofBytes? (e.encode pretty).toUTF8 = some e := by
  refine ⟨fun e hexact hkeys => ⟨fun hdepth => ?_, fun hdepth => ?_⟩, fun bytes e h hfree => ?_⟩
  · refine ⟨_, ofBytes?_encode_of_depth_le pretty hexact hdepth, ⟨?_, rfl, rfl⟩, fun hcanonical => by rw [hcanonical]⟩
    exact (canonical_eq_iff_same (distinctKeys_canonical _) hkeys).mp (canonical_canonical _)
  · have hdeep : ¬e.content.depth ≤ contentDepth := Nat.not_le.mpr hdepth
    rw [ofBytes?_encode pretty hexact, stored?, if_neg hdeep]
  · have hread := readWithin_of_ofBytes? h
    rw [ofBytes?_encode_of_depth_le pretty (hread.exact hfree) hread.depth, hread.canonical]

/-- An envelope in array form, with the digits of its fingerprint in upper case. -/
def arrayForm : String :=
  "[\x7b\"b\":[1],\"a\":\"x\"\x7d, \"ABABABABABABABABABABABABABABABABABABABABABABABABABABABABABABABAB\"]"

/-- A content with its keys in reverse order comes back in order, arrays that are nested one container too deep do not
    come back, and what is read from an array form comes back as it is. -/
theorem ofBytes?_encode_reversed :
    (∃ e e', e.content = reversed ∧ e.content.depth ≤ 126 ∧ ofBytes? (e.encode true).toUTF8 = some e' ∧ e'.Same e) ∧
    (∃ e : Envelope, 126 < e.content.depth ∧ ofBytes? (e.encode false).toUTF8 = none) ∧
    ∃ e, ofBytes? arrayForm.toUTF8 = some e ∧ e.content.FloatFree ∧ ofBytes? (e.encode true).toUTF8 = some e := by
  let f : Fingerprint := ⟨Vector.replicate 32 0xAB⟩
  let deep : Json := Nat.iterate (fun j => .array [j]) 127 .null
  obtain ⟨hwritten, hreread⟩ := ofBytes?_encode_same true
  refine ⟨?_, ?_, ?_⟩
  · have hdepth : reversed.depth ≤ 126 := by decide
    obtain ⟨e', he', hsame, -⟩ :=
      (hwritten ⟨reversed, f, .ofList [("", f), ("a:\n", f)]⟩ (by decide) distinctKeys_reversed).1 hdepth
    exact ⟨_, e', rfl, hdepth, he', hsame⟩
  · have hdepth : 126 < deep.depth := by decide +kernel
    have hkeys : deep.DistinctKeys :=
      Function.Iterate.rec DistinctKeys .null (fun _ h => .array (List.forall_mem_singleton.mpr h)) 127
    exact ⟨⟨deep, f, .empty⟩, hdepth, ((ofBytes?_encode_same false).1 _ (by decide +kernel) hkeys).2 hdepth⟩
  · have hread : (ofBytes? arrayForm.toUTF8).any (fun e => decide e.content.FloatFree) = true := by decide +kernel
    obtain ⟨e, he, hfree⟩ := (Option.any_eq_true ..).mp hread
    exact ⟨e, he, of_decide_eq_true hfree, hreread _ _ he (of_decide_eq_true hfree)⟩

end Envelope
end StageLineage
