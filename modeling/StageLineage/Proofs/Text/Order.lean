import Mathlib.Data.String.Basic
import StageLineage.Proofs.Fingerprint

/-! The order of texts is the order of their bytes: the encodings of two characters part at a byte, and there the lesser
    character has the lesser byte. -/

namespace StageLineage.Text

/-- The lists part at some byte, where the first one has the lesser of the two. -/
inductive PartsBelow : List UInt8 → List UInt8 → Prop
  | head {x y : UInt8} {u v : List UInt8} (h : x < y) : PartsBelow (x :: u) (y :: v)
  | tail {x : UInt8} {u v : List UInt8} (h : PartsBelow u v) : PartsBelow (x :: u) (x :: v)

theorem PartsBelow.of_lt {a b : Nat} {u v : List UInt8} (hb : b < 256) (h : a < b) :
    PartsBelow (UInt8.ofNat a :: u) (UInt8.ofNat b :: v) :=
  .head ((UInt8.ofNat_lt_iff_lt (Nat.lt_trans h hb) hb).mpr h)

theorem PartsBelow.of_digits {a b : Nat} {u v : List UInt8} (hb : b < 256) (h : a ≤ b)
    (htail : a = b → PartsBelow u v) : PartsBelow (UInt8.ofNat a :: u) (UInt8.ofNat b :: v) := by
  rcases Nat.lt_or_eq_of_le h with hlt | rfl
  · exact .of_lt hb hlt
  · exact .tail (htail rfl)

theorem PartsBelow.compare_append {a b : List UInt8} (h : PartsBelow a b) (u v : List UInt8) :
    compare (a ++ u) (b ++ v) = .lt := by
  induction h with
  | head h =>
    rw [List.cons_append, List.cons_append, List.compare_cons_cons, Std.compare_eq_lt.mpr h]
    rfl
  | tail _ ih =>
    rw [List.cons_append, List.cons_append, List.compare_cons_cons, Std.ReflOrd.compare_self, ih]
    rfl

/-- A longer encoding begins with a greater byte, and encodings of one length are compared digit by digit. -/
theorem partsBelow_utf8EncodeChar {c d : Char} (h : c < d) :
    PartsBelow (String.utf8EncodeChar c) (String.utf8EncodeChar d) := by
  have hlt : c.val.toNat < d.val.toNat := h
  have hmax : d.val.toNat < 0x110000 := by
    have hvalid : d.val.toNat < 0xD800 ∨ 0xDFFF < d.val.toNat ∧ d.val.toNat < 0x110000 := d.valid
    omega
  simp only [String.utf8EncodeChar]
  generalize c.val.toNat = m at hlt
  generalize d.val.toNat = n at hlt hmax
  by_cases hm₁ : m ≤ 127
  · rw [if_pos hm₁]
    split_ifs
    all_goals exact .of_lt (by omega) (by omega)
  by_cases hm₂ : m ≤ 2047
  · have hn₁ : ¬n ≤ 127 := by omega
    rw [if_neg hm₁, if_pos hm₂, if_neg hn₁]
    split_ifs
    · exact .of_digits (by omega) (by omega) fun h => .of_lt (by omega) (by omega)
    all_goals exact .of_lt (by omega) (by omega)
  have hn₁ : ¬n ≤ 127 := by omega
  have hn₂ : ¬n ≤ 2047 := by omega
  rw [if_neg hm₁, if_neg hm₂, if_neg hn₁, if_neg hn₂]
  by_cases hm₃ : m ≤ 65535
  · rw [if_pos hm₃]
    split_ifs
    · exact .of_digits (by omega) (by omega) fun h => .of_digits (by omega) (by omega) fun h' =>
        .of_lt (by omega) (by omega)
    · exact .of_lt (by omega) (by omega)
  · have hn₃ : ¬n ≤ 65535 := by omega
    rw [if_neg hm₃, if_neg hn₃]
    exact .of_digits (by omega) (by omega) fun h => .of_digits (by omega) (by omega) fun h' =>
      .of_digits (by omega) (by omega) fun h'' => .of_lt (by omega) (by omega)

theorem compare_flatMap_of_lt {l m : List Char} (h : l < m) :
    compare (l.flatMap String.utf8EncodeChar) (m.flatMap String.utf8EncodeChar) = .lt := by
  induction h with
  | @nil c m =>
    obtain ⟨b, bytes, hb⟩ := List.exists_cons_of_ne_nil (String.utf8EncodeChar_ne_nil (c := c))
    rw [List.flatMap_nil, List.flatMap_cons, hb, List.cons_append, List.compare_nil_cons]
  | @cons c l m _ ih =>
    rw [List.flatMap_cons, List.flatMap_cons]
    induction String.utf8EncodeChar c with
    | nil => exact ih
    | cons b bytes ih' =>
      rw [List.cons_append, List.cons_append, List.compare_cons_cons, Std.ReflOrd.compare_self, ih']
      rfl
  | rel h => exact (partsBelow_utf8EncodeChar h).compare_append _ _

theorem compare_toUTF8_of_lt {s t : String} (h : s < t) : compare s.toUTF8.toList t.toUTF8.toList = .lt := by
  have hbytes := compare_flatMap_of_lt (String.lt_iff_toList_lt.mp h)
  rwa [← toList_toUTF8_ofList, ← toList_toUTF8_ofList, String.ofList_toList, String.ofList_toList] at hbytes

/-- Texts are compared as their bytes are, first byte first. -/
theorem compare_toUTF8 (s t : String) : compare s.toUTF8.toList t.toUTF8.toList = compare s t := by
  cases h : compare s t with
  | lt => exact compare_toUTF8_of_lt (compare_lt_iff_lt.mp h)
  | eq => rw [Std.LawfulEqOrd.eq_of_compare h, Std.ReflOrd.compare_self]
  | gt => exact Std.OrientedCmp.gt_iff_lt.mpr (compare_toUTF8_of_lt (compare_gt_iff_gt.mp h))

end StageLineage.Text
