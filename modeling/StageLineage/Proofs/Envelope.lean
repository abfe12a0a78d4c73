import StageLineage.Envelope
import StageLineage.Proofs.Fingerprint
import StageLineage.Proofs.Json.Reader
import StageLineage.Proofs.Json.RoundTrip

/-! Stored envelopes. Reading the text of an envelope with an exact content gives the envelope back with
    its content in canonical form, and fails if and only if the content nests more than 126 containers:
    the envelope itself is the one more container that the reader counts. -/

namespace StageLineage.Envelope
open Json

section Reading
variable {l : Layout}

theorem fingerprint?_stringChars {blanks : List Char} (hb : Blanks blanks) (f : Fingerprint) (rest : List Char) :
    fingerprint? (blanks ++ (stringChars f.toHex ++ rest)) = some (f, rest) := by
  rw [fingerprint?, string?_stringChars hb]
  simp only [Fingerprint.ofHex_toHex]

/-- The stored form of a list of parent entries. -/
def storedParents (entries : List (String × Fingerprint)) : List (String × Json) :=
  entries.map fun p => (p.1, .string p.2.toHex)

/-- The fingerprint that a stored value holds. -/
def storedFingerprint? : Json → Option Fingerprint
  | .string text => (Fingerprint.ofHex text).toOption
  | _ => none

theorem storedFingerprint?_toHex (f : Fingerprint) : storedFingerprint? (.string f.toHex) = some f := by
  rw [storedFingerprint?, Fingerprint.ofHex_toHex]
  rfl

theorem mapM_storedParents (entries : List (String × Fingerprint)) :
    ((storedParents entries).mapM fun g => (storedFingerprint? g.2).map (g.1, ·)) = some entries := by
  induction entries with
  | nil => rfl
  | cons e entries ih =>
    rw [storedParents, List.map_cons, List.mapM_cons, ← storedParents, ih]
    simp [storedFingerprint?_toHex]

theorem takes_fingerprint? (depth : Nat) {entries : List (String × Fingerprint)} {g : String × Json}
    (hg : g ∈ storedParents entries) : Takes l depth fingerprint? storedFingerprint? g.2 := by
  obtain ⟨e, -, rfl⟩ := List.mem_map.mp hg
  intro blanks rest hb _
  rw [chars, fingerprint?_stringChars hb, storedFingerprint?_toHex]
  rfl

theorem parents?_object (hl : l.Blank) (depth : Nat) {blanks : List Char} (hb : Blanks blanks)
    (parents : ParentFingerprints) (rest : List Char) :
    parents? (blanks ++ ((object (storedParents parents.entries)).chars l depth ++ rest)) = some (parents, rest) := by
  have hof : SortedMap.ofList parents.entries = parents := SortedMap.ofList_entries parents
  cases hentries : parents.entries with
  | nil =>
    rw [hentries] at hof
    have hskip := skipBlanks_append_cons hb (c := '\x7b') rfl ('\x7d' :: rest)
    have hread : fields true (fun _ => fingerprint?) ('\x7d' :: rest) = some ([], rest) := rfl
    rw [parents?, storedParents, List.map_nil, chars, List.cons_append, List.singleton_append, hskip]
    simp only [hread, Option.map_some, hof]
  | cons e entries =>
    have hskip := fun cs => skipBlanks_append_cons hb (c := '\x7b') rfl cs
    have hmap := mapM_storedParents (e :: entries)
    have htakes : ∀ g ∈ storedParents (e :: entries), Takes l (depth + 1) fingerprint? storedFingerprint? g.2 :=
      fun g hg => takes_fingerprint? (depth + 1) hg
    have hread := fields_fieldsChars hl (depth + 1) depth (fun _ => fingerprint?) (fun _ => storedFingerprint?)
      (e.1, .string e.2.toHex) (storedParents entries) htakes rest
    rw [show ((e.1, Json.string e.2.toHex) :: storedParents entries) = storedParents (e :: entries) from rfl, hmap]
      at hread
    rw [parents?, show storedParents (e :: entries) = (e.1, .string e.2.toHex) :: storedParents entries from rfl,
      chars, List.cons_append, hskip]
    simp only [List.append_assoc, List.cons_append, List.nil_append, hread, Option.map_some, ← hentries, hof]

/-- What is read from the field `key` of the stored form of `e`. -/
def storedPart? (e : Envelope) (key : String) : Option Part :=
  if key = "content" then (accepted contentDepth e.content).map .content
  else if key = "fingerprint" then some (.fingerprint e.fingerprint)
  else some (.parents e.parents)

/-- The three fields of the stored form. -/
def storedFields (e : Envelope) : List (String × Json) :=
  [("content", e.content), ("fingerprint", .string e.fingerprint.toHex),
    ("parentFingerprints", .object (storedParents e.parents.entries))]

theorem takes_part? (hl : l.Blank) {e : Envelope} (he : e.content.Exact) (depth : Nat) {g : String × Json}
    (hg : g ∈ storedFields e) : Takes l depth (part? g.1) (fun _ => storedPart? e g.1) g.2 := by
  intro blanks rest hb hends
  simp only [storedFields, List.mem_cons, List.not_mem_nil, or_false] at hg
  rcases hg with rfl | rfl | rfl
  · have hread := takes_value? hl he depth contentDepth blanks rest hb hends
    simp only [part?, storedPart?, ↓reduceIte, hread, Option.map_map]
    rfl
  · simp [part?, storedPart?, chars, fingerprint?_stringChars hb]
  · simp [part?, storedPart?, parents?_object hl depth hb]

end Reading

/-- The envelope that is read from the text of `e`. -/
def stored? (e : Envelope) : Option Envelope :=
  if e.content.depth ≤ contentDepth then some { e with content := e.content.canonical } else none

theorem envelope?_toJson {l : Layout} (hl : l.Blank) {e : Envelope} (he : e.content.Exact) :
    envelope? (e.toJson.chars l 0) = (stored? e).map (·, []) := by
  have hread := fields_fieldsChars hl 1 0 part? (fun key _ => storedPart? e key) ("content", e.content)
    (storedFields e).tail (fun g hg => takes_part? hl he 1 hg) []
  have hmap : ((("content", e.content) :: (storedFields e).tail).mapM fun g => (storedPart? e g.1).map (g.1, ·)) =
      (accepted contentDepth e.content).map fun c => [("content", .content c),
        ("fingerprint", .fingerprint e.fingerprint), ("parentFingerprints", .parents e.parents)] := by
    simp only [storedFields, List.tail_cons, List.mapM_cons, List.mapM_nil, storedPart?]
    cases accepted contentDepth e.content <;> rfl
  rw [hmap] at hread
  have hchars : e.toJson.chars l 0 = '\x7b' :: (l.newline 1 ++ (stringChars "content" ++ (l.colon ++
      (e.content.chars l 1 ++ (fieldsChars l 1 (storedFields e).tail ++ (l.newline 0 ++ '\x7d' :: [])))))) := by
    simp [toJson, chars, storedFields, storedParents]
  rw [envelope?, hchars, skipBlanks_cons rfl]
  simp only [hread, stored?, accepted]
  split <;> rfl

theorem decode?_encode (pretty : Bool) {e : Envelope} (he : e.content.Exact) :
    decode? (e.encode pretty) = stored? e := by
  have hdecode : ∀ {l : Layout}, l.Blank → decode? (String.ofList (e.toJson.chars l 0)) = stored? e := fun hl => by
    rw [decode?, String.toList_ofList, complete, envelope?_toJson hl he]
    cases stored? e <;> rfl
  cases pretty
  · exact hdecode Layout.blank_compact
  · exact hdecode Layout.blank_indented

theorem ofBytes?_toUTF8 (text : String) : ofBytes? text.toUTF8 = decode? text := by
  rw [ofBytes?, Text.fromUTF8?_toUTF8]
  rfl

theorem ofBytes?_encode (pretty : Bool) {e : Envelope} (he : e.content.Exact) :
    ofBytes? (e.encode pretty).toUTF8 = stored? e :=
  (ofBytes?_toUTF8 _).trans (decode?_encode pretty he)

theorem stored?_of_canonical {e : Envelope} (h : e.content.canonical = e.content) :
    stored? e = if e.content.depth ≤ contentDepth then some e else none := by
  rw [stored?, h]

/-! ### Contents that were read -/

theorem exists_of_atMostOne {α : Type} {f : Part → Option α} {parts : List (String × Part)} {x : α}
    (h : atMostOne f parts = some (some x)) : ∃ p ∈ parts, f p.2 = some x := by
  rw [atMostOne] at h
  split at h
  · cases h
  · next y hy =>
    obtain rfl := Option.some.inj (Option.some.inj h)
    exact List.mem_filterMap.mp (by simp [hy])
  · cases h

theorem exists_content_of_ofParts? {parts : List (String × Part)} {e : Envelope} (h : ofParts? parts = some e) :
    ∃ key, (key, Part.content e.content) ∈ parts := by
  simp only [ofParts?, Option.bind_eq_bind, Option.bind_eq_some_iff] at h
  obtain ⟨content, hcontent, _, -, _, -, value, hvalue, _, -, heq⟩ := h
  obtain ⟨⟨key, part⟩, hmem, hpart⟩ := exists_of_atMostOne (hcontent.trans (congrArg some hvalue))
  cases part with
  | content v =>
    obtain rfl := Option.some.inj hpart
    exact ⟨key, Option.some.inj heq ▸ hmem⟩
  | _ => cases hpart

theorem readWithin_of_part? {key : String} {cs rest : List Char} {value : Json}
    (h : part? key cs = some (.content value, rest)) : ReadWithin contentDepth value := by
  rw [part?] at h
  split_ifs at h
  · obtain ⟨⟨v, _⟩, hv, heq⟩ := Option.map_eq_some_iff.mp h
    obtain rfl := Part.content.inj (Prod.mk.inj heq).1
    exact readWithin_of_value? hv
  all_goals
    obtain ⟨_, -, heq⟩ := Option.map_eq_some_iff.mp h
    cases (Prod.mk.inj heq).1

theorem readWithin_of_values? {cs rest : List Char} {e : Envelope} (h : values? cs = some (e, rest)) :
    ReadWithin contentDepth e.content := by
  simp only [values?, Option.bind_eq_bind, Option.bind_eq_some_iff] at h
  obtain ⟨⟨content, afterContent⟩, hcontent, h⟩ := h
  have hread := readWithin_of_value? hcontent
  split at h
  · obtain ⟨⟨fingerprint, afterFingerprint⟩, -, h⟩ := Option.bind_eq_some_iff.mp h
    dsimp only at h
    split at h
    · obtain rfl := (Prod.mk.inj (Option.some.inj h)).1
      exact hread
    · obtain ⟨⟨parents, afterParents⟩, -, h⟩ := Option.bind_eq_some_iff.mp h
      dsimp only at h
      split at h
      · obtain rfl := (Prod.mk.inj (Option.some.inj h)).1
        exact hread
      · cases h
    · cases h
  · cases h

/-- The content of an envelope that was read was read with one container less allowed. -/
theorem readWithin_of_envelope? {cs rest : List Char} {e : Envelope} (h : envelope? cs = some (e, rest)) :
    ReadWithin contentDepth e.content := by
  rw [envelope?] at h
  split at h
  · simp only [Option.bind_eq_bind, Option.bind_eq_some_iff] at h
    obtain ⟨⟨parts, afterParts⟩, hparts, e', he', heq⟩ := h
    obtain rfl := (Prod.mk.inj (Option.some.inj heq)).1
    obtain ⟨key, hkey⟩ := exists_content_of_ofParts? he'
    obtain ⟨_, _, hread⟩ := mem_fields hparts _ hkey
    exact readWithin_of_part? hread
  · exact readWithin_of_values? h
  · cases h

theorem readWithin_of_ofBytes? {bytes : ByteArray} {e : Envelope} (h : ofBytes? bytes = some e) :
    ReadWithin contentDepth e.content := by
  obtain ⟨text, -, h⟩ := Option.bind_eq_some_iff.mp h
  obtain ⟨rest, hread⟩ := exists_of_complete h
  exact readWithin_of_envelope? hread

/-! ### Sealing -/

theorem ofValue_of_ne_null {limit : Nat} {value : Json} (h : value ≠ .null) :
    Payload.ofValue limit value =
      if limit < value.canonicalText.utf8ByteSize then .error (.tooLarge value.canonicalText.utf8ByteSize limit)
      else .ok ⟨value.canonical⟩ := by
  cases value <;> first | exact absurd rfl h | rfl

/-- A payload is a value that is not null and not too large, in canonical form. -/
theorem ofValue_eq_ok_iff {limit : Nat} {value : Json} {p : Payload} :
    Payload.ofValue limit value = .ok p ↔
      value ≠ .null ∧ value.canonicalText.utf8ByteSize ≤ limit ∧ p = ⟨value.canonical⟩ := by
  by_cases hne : value = .null
  · simp [hne, Payload.ofValue]
  · rw [ofValue_of_ne_null hne]
    split
    · next hlt => simp [Nat.not_le.mpr hlt]
    · next hle => simp [hne, Nat.not_lt.mp hle, eq_comm]

theorem ofValue_eq_error_iff {limit : Nat} {value : Json} {cause : PayloadError} :
    Payload.ofValue limit value = .error cause ↔
      value = .null ∧ cause = .null ∨ value ≠ .null ∧ limit < value.canonicalText.utf8ByteSize ∧
        cause = .tooLarge value.canonicalText.utf8ByteSize limit := by
  by_cases hne : value = .null
  · simp [hne, Payload.ofValue, eq_comm]
  · rw [ofValue_of_ne_null hne]
    split
    · next hlt => simp [hne, hlt, eq_comm]
    · next hle => simp [hne, hle]

theorem exists_ofValue {limit : Nat} {content : Json} (hne : content ≠ .null)
    (hsize : content.canonicalText.utf8ByteSize ≤ limit) : ∃ payload, Payload.ofValue limit content = .ok payload :=
  ⟨_, ofValue_eq_ok_iff.mpr ⟨hne, hsize, rfl⟩⟩

theorem verify_ofPayload {p : Payload} (h : p.value.canonical = p.value) (parents : ParentFingerprints) :
    (ofPayload p parents).verify = true := by
  simp [verify, recompute, ofPayload, canonicalText, Payload.text, h]

/-- The stored text of a sealed envelope is read as that envelope, unless its content is nested too deep. -/
theorem ofBytes?_encode_ofPayload {limit : Nat} {value : Json} {p : Payload} (h : Payload.ofValue limit value = .ok p)
    (hexact : value.Exact) (pretty : Bool) (parents : ParentFingerprints) :
    ofBytes? ((ofPayload p parents).encode pretty).toUTF8 =
      if value.canonical.depth ≤ contentDepth then some (ofPayload p parents) else none := by
  obtain ⟨-, -, rfl⟩ := ofValue_eq_ok_iff.mp h
  have hcontent : (ofPayload ⟨value.canonical⟩ parents).content = value.canonical := rfl
  rw [ofBytes?_encode pretty (hcontent ▸ hexact.canonical), stored?_of_canonical (by simp [hcontent]), hcontent]

theorem verify_iff {e : Envelope} :
    e.verify = true ↔ e.fingerprint = .chain e.content.canonicalText e.parents := by
  rw [verify, recompute, decide_eq_true_eq, eq_comm]

end StageLineage.Envelope
