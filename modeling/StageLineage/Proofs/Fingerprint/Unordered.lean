import StageLineage.Proofs.SortedMap.Pairs
import StageLineage.Proofs.Text.Order

/-! The fingerprint of a content and a list of parents depends on the last value of each key alone. The parents are
    hashed in the order of the bytes of their keys, in whatever order they are given. -/

namespace StageLineage.Fingerprint
variable {content : String} {pairs pairs' entries : List (String × Fingerprint)}

/-- Each key comes once, in the order of the bytes of the keys. -/
def ByteOrdered (entries : List (String × Fingerprint)) : Prop :=
  entries.Pairwise fun e e' => compare e.1.toUTF8.toList e'.1.toUTF8.toList = .lt

theorem ByteOrdered.sorted (h : ByteOrdered entries) : entries.Pairwise fun e e' => compare e.1 e'.1 = .lt :=
  h.imp fun hlt => by rwa [← Text.compare_toUTF8]

theorem chainList_eq_chain {m : ParentFingerprints} (h : m.Collects pairs) :
    chainList content pairs = chain content m := by
  rw [chainList, h.eq_ofList]

theorem chainList_eq_ofData (h : ByteOrdered entries) (hlast : ∀ k v, (k, v) ∈ entries ↔ LastValue pairs k v) :
    chainList content pairs = ofData (content.toUTF8.toList ++
      0x00 :: ("\n".intercalate (entries.map fun e => e.1 ++ ":" ++ e.2.toHex)).toUTF8.toList) := by
  let m : ParentFingerprints := ⟨entries, h.sorted⟩
  have hcollects : m.Collects pairs := fun k v => SortedMap.get?_eq_some_iff_mem.trans (hlast k v)
  rw [chainList_eq_chain hcollects, chain, toUTF8_hashedText]
  rfl

theorem chainList_congr (h : ∀ k v, LastValue pairs k v ↔ LastValue pairs' k v) :
    chainList content pairs = chainList content pairs' := by
  have hcollects : (SortedMap.ofList pairs').Collects pairs := fun k v =>
    (SortedMap.collects_ofList pairs' k v).trans (h k v).symm
  exact chainList_eq_chain hcollects

theorem chainList_perm (hnodup : (pairs.map (·.1)).Nodup) (h : pairs.Perm pairs') :
    chainList content pairs = chainList content pairs' := by
  have hnodup' : (pairs'.map (·.1)).Nodup := (h.map _).nodup_iff.mp hnodup
  exact chainList_congr fun k v => by rw [lastValue_iff_mem hnodup, lastValue_iff_mem hnodup', h.mem_iff]

/-- A list of parents has the fingerprint of the map that holds the last value of each key, which is there for every
    list. It hashes these values in the order of the bytes of the keys, so lists with the same last values have the same
    fingerprint, and so do the permutations of a list of distinct keys. -/
theorem chainList_unordered (content : String) (pairs : List (String × Fingerprint)) :
    ((∃ m : ParentFingerprints, m.Collects pairs) ∧
      ∀ m : ParentFingerprints, m.Collects pairs → chainList content pairs = chain content m) ∧
    (∀ entries, ByteOrdered entries → (∀ k v, (k, v) ∈ entries ↔ LastValue pairs k v) →
      chainList content pairs = ofData (content.toUTF8.toList ++
        0x00 :: ("\n".intercalate (entries.map fun e => e.1 ++ ":" ++ e.2.toHex)).toUTF8.toList)) ∧
    (∀ pairs', (∀ k v, LastValue pairs k v ↔ LastValue pairs' k v) →
      chainList content pairs = chainList content pairs') ∧
    ((pairs.map (·.1)).Nodup → ∀ pairs', pairs.Perm pairs' → chainList content pairs = chainList content pairs') :=
  ⟨⟨⟨_, SortedMap.collects_ofList pairs⟩, fun _ => chainList_eq_chain⟩, fun _ => chainList_eq_ofData,
    fun _ => chainList_congr, fun hnodup _ => chainList_perm hnodup⟩

def repeated (byte : UInt8) : Fingerprint := ⟨Vector.replicate 32 byte⟩

/-- Two parents of which one is given twice, in an order that is neither that of the keys nor its reverse. -/
def shuffled : List (String × Fingerprint) := [("\u00e9", repeated 1), ("z", repeated 2), ("\u00e9", repeated 3)]

def unshuffled : List (String × Fingerprint) := [("z", repeated 2), ("\u00e9", repeated 3)]

theorem lastValue_shuffled (k : String) (v : Fingerprint) : LastValue shuffled k v ↔ (k, v) ∈ unshuffled := by
  have hentries : (SortedMap.ofList shuffled).entries = unshuffled := by decide
  rw [← hentries, ← SortedMap.get?_eq_some_iff_mem, SortedMap.collects_ofList]

theorem byteOrdered_unshuffled : ByteOrdered unshuffled := by
  simp only [ByteOrdered, Text.compare_toUTF8]
  decide

theorem chainList_shuffled :
    (∃ m : ParentFingerprints, m.Collects shuffled ∧ chainList "c" shuffled = chain "c" m) ∧
    ByteOrdered unshuffled ∧ (∀ k v, (k, v) ∈ unshuffled ↔ LastValue shuffled k v) ∧
    chainList "c" shuffled = ofData ("c".toUTF8.toList ++
      0x00 :: ("\n".intercalate (unshuffled.map fun e => e.1 ++ ":" ++ e.2.toHex)).toUTF8.toList) ∧
    chainList "c" shuffled = chainList "c" unshuffled ∧
    (unshuffled.map (·.1)).Nodup ∧ chainList "c" unshuffled = chainList "c" unshuffled.reverse := by
  have hnodup : (unshuffled.map (·.1)).Nodup := by decide
  have hsame : ∀ k v, LastValue shuffled k v ↔ LastValue unshuffled k v := fun k v =>
    (lastValue_shuffled k v).trans (lastValue_iff_mem hnodup).symm
  have hlast : ∀ k v, (k, v) ∈ unshuffled ↔ LastValue shuffled k v := fun k v => (lastValue_shuffled k v).symm
  obtain ⟨⟨⟨m, hm⟩, hmap⟩, hbytes, hcongr, -⟩ := chainList_unordered "c" shuffled
  obtain ⟨-, -, -, hperm⟩ := chainList_unordered "c" unshuffled
  exact ⟨⟨m, hm, hmap m hm⟩, byteOrdered_unshuffled, hlast, hbytes _ byteOrdered_unshuffled hlast, hcongr _ hsame,
    hnodup, hperm hnodup _ (List.reverse_perm _).symm⟩

end StageLineage.Fingerprint
