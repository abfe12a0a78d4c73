import StageLineage.Json.Value
import StageLineage.Proofs.SortedMap

/-! The canonical form of a JSON value: taking it twice changes nothing, it nests no deeper than the
    value, and it holds no other numbers. `depth` counts nested containers, and a value is `Exact` if all
    its numbers are integers of 64 bits, so that no floating-point number occurs in it. -/

namespace StageLineage.Json

/-! ### Induction -/

theorem induction {P : Json → Prop} (null : P null) (bool : ∀ b, P (bool b)) (number : ∀ n, P (number n))
    (string : ∀ text, P (string text)) (array : ∀ items, (∀ j ∈ items, P j) → P (array items))
    (object : ∀ fields, (∀ f ∈ fields, P f.2) → P (object fields)) (j : Json) : P j :=
  @Json.rec P (fun items => ∀ j ∈ items, P j) (fun fields => ∀ f ∈ fields, P f.2) (fun f => P f.2)
    null bool number string array object
    (fun _ h => nomatch h) (fun _ _ hi his => List.forall_mem_cons.mpr ⟨hi, his⟩)
    (fun _ h => nomatch h) (fun _ _ hf hfs => List.forall_mem_cons.mpr ⟨hf, hfs⟩)
    (fun _ _ h => h) j

/-! ### Depth and numbers -/

mutual
/-- How many containers a value nests. -/
def depth : Json → Nat
  | array items => itemsDepth items + 1
  | object fields => fieldsDepth fields + 1
  | _ => 0

def itemsDepth : List Json → Nat
  | [] => 0
  | item :: items => max item.depth (itemsDepth items)

def fieldsDepth : List (String × Json) → Nat
  | [] => 0
  | (_, value) :: fields => max value.depth (fieldsDepth fields)
end

mutual
def numbers : Json → List Number
  | number n => [n]
  | array items => itemsNumbers items
  | object fields => fieldsNumbers fields
  | _ => []

def itemsNumbers : List Json → List Number
  | [] => []
  | item :: items => item.numbers ++ itemsNumbers items

def fieldsNumbers : List (String × Json) → List Number
  | [] => []
  | (_, value) :: fields => value.numbers ++ fieldsNumbers fields
end

/-- A number is an integer of 64 bits, signed or not, and not a floating-point number. -/
def Number.Exact : Number → Prop
  | .integer n => minInteger ≤ n ∧ n ≤ maxInteger
  | .float _ => False

instance : DecidablePred Number.Exact
  | .integer n => inferInstanceAs (Decidable (minInteger ≤ n ∧ n ≤ maxInteger))
  | .float _ => inferInstanceAs (Decidable False)

def Exact (j : Json) : Prop := ∀ n ∈ j.numbers, n.Exact

instance : DecidablePred Exact := fun j => inferInstanceAs (Decidable (∀ n ∈ j.numbers, n.Exact))

theorem itemsDepth_le_iff {d : Nat} : ∀ {items : List Json}, itemsDepth items ≤ d ↔ ∀ j ∈ items, j.depth ≤ d
  | [] => by simp [itemsDepth]
  | item :: items => by rw [itemsDepth, Nat.max_le, itemsDepth_le_iff, List.forall_mem_cons]

theorem fieldsDepth_le_iff {d : Nat} :
    ∀ {fields : List (String × Json)}, fieldsDepth fields ≤ d ↔ ∀ f ∈ fields, f.2.depth ≤ d
  | [] => by simp [fieldsDepth]
  | (key, value) :: fields => by rw [fieldsDepth, Nat.max_le, fieldsDepth_le_iff, List.forall_mem_cons]

theorem mem_itemsNumbers_iff {n : Number} : ∀ {items : List Json}, n ∈ itemsNumbers items ↔ ∃ j ∈ items, n ∈ j.numbers
  | [] => by simp [itemsNumbers]
  | item :: items => by simp [itemsNumbers, @mem_itemsNumbers_iff n items]

theorem mem_fieldsNumbers_iff {n : Number} :
    ∀ {fields : List (String × Json)}, n ∈ fieldsNumbers fields ↔ ∃ f ∈ fields, n ∈ f.2.numbers
  | [] => by simp [fieldsNumbers]
  | (key, value) :: fields => by simp [fieldsNumbers, @mem_fieldsNumbers_iff n fields]

theorem exact_array_iff {items : List Json} : (array items).Exact ↔ ∀ j ∈ items, j.Exact := by
  simp only [Exact, numbers, mem_itemsNumbers_iff]
  exact ⟨fun h j hj n hn => h n ⟨j, hj, hn⟩, fun h n ⟨j, hj, hn⟩ => h j hj n hn⟩

theorem exact_object_iff {fields : List (String × Json)} : (object fields).Exact ↔ ∀ f ∈ fields, f.2.Exact := by
  simp only [Exact, numbers, mem_fieldsNumbers_iff]
  exact ⟨fun h f hf n hn => h n ⟨f, hf, hn⟩, fun h n ⟨f, hf, hn⟩ => h f hf n hn⟩

/-! ### Fields in order -/

theorem canonicalItems_eq_map : ∀ items : List Json, canonicalItems items = items.map canonical
  | [] => rfl
  | item :: items => by simp [canonicalItems, canonicalItems_eq_map items]

theorem canonicalFields_eq_map :
    ∀ fields : List (String × Json), canonicalFields fields = fields.map fun f => (f.1, f.2.canonical)
  | [] => rfl
  | (key, value) :: fields => by simp [canonicalFields, canonicalFields_eq_map fields]

/-- The fields stand in strictly increasing key order. -/
def Ordered (fields : List (String × Json)) : Prop := fields.Pairwise fun f g => compare f.1 g.1 = .lt

theorem ordered_foldl_insertField :
    ∀ (fields : List (String × Json)) {before : List (String × Json)}, Ordered before →
      Ordered (fields.foldl insertField before)
  | [], _, h => h
  | f :: fields, _, h => ordered_foldl_insertField fields (SortedMap.sorted_insertEntry f.1 f.2 h)

theorem ordered_sortFields (fields : List (String × Json)) : Ordered (sortFields fields) :=
  ordered_foldl_insertField fields .nil

theorem sortFields_of_ordered {fields : List (String × Json)} (h : Ordered fields) : sortFields fields = fields :=
  SortedMap.foldl_insertEntry_of_pairwise (by simpa [Ordered] using h)

/-- Every field that is left after ordering was there before, up to the spelling of its key. -/
theorem mem_foldl_insertField {f : String × Json} :
    ∀ {fields before : List (String × Json)}, f ∈ fields.foldl insertField before → f ∈ before ∨ f ∈ fields
  | [], _, h => Or.inl h
  | g :: fields, before, h => by
    rcases @mem_foldl_insertField f fields _ h with h | h
    · by_cases hf : f ∈ before
      · exact Or.inl hf
      · right
        rw [List.mem_cons]
        exact Or.inl (mem_insertField h hf)
    · exact Or.inr (List.mem_cons_of_mem _ h)
where
  mem_insertField {f g : String × Json} : ∀ {l : List (String × Json)}, f ∈ insertField l g → f ∉ l → f = g
    | [], h, _ => by simpa [insertField, SortedMap.insertEntry] using h
    | e :: l, h, hf => by
      obtain ⟨hfe, hfl⟩ := not_or.mp (mt List.mem_cons.mpr hf)
      unfold insertField SortedMap.insertEntry at h
      split at h
      · rcases List.mem_cons.mp h with h | h
        · exact h
        · exact absurd h hf
      · next hk =>
        rcases List.mem_cons.mp h with h | h
        · rw [h, ← Std.LawfulEqCmp.eq_of_compare hk]
        · exact absurd h hfl
      · rcases List.mem_cons.mp h with h | h
        · exact absurd h hfe
        · exact mem_insertField h hfl

theorem mem_of_mem_sortFields {f : String × Json} {fields : List (String × Json)} (h : f ∈ sortFields fields) :
    f ∈ fields :=
  (mem_foldl_insertField h).resolve_left List.not_mem_nil

/-! ### Canonical form -/

theorem canonical_array (items : List Json) : (array items).canonical = array (items.map canonical) := by
  rw [canonical, canonicalItems_eq_map]

theorem canonical_object (fields : List (String × Json)) :
    (object fields).canonical = object (sortFields (fields.map fun f => (f.1, f.2.canonical))) := by
  rw [canonical, canonicalFields_eq_map]

theorem canonical_object_of_ordered {fields : List (String × Json)} (h : Ordered fields)
    (hf : ∀ f ∈ fields, f.2.canonical = f.2) : (object fields).canonical = object fields := by
  have hmap : fields.map (fun f => (f.1, f.2.canonical)) = fields :=
    (List.map_congr_left (g := id) fun f hfm => by simp [hf f hfm]).trans (List.map_id fields)
  rw [canonical_object, hmap, sortFields_of_ordered h]

theorem exists_of_mem_sortFields_map {g : String × Json} {fields : List (String × Json)}
    (h : g ∈ sortFields (fields.map fun f => (f.1, f.2.canonical))) : ∃ f ∈ fields, g.2 = f.2.canonical := by
  obtain ⟨f, hf, rfl⟩ := List.mem_map.mp (mem_of_mem_sortFields h)
  exact ⟨f, hf, rfl⟩

@[simp] theorem canonical_canonical (j : Json) : j.canonical.canonical = j.canonical := by
  induction j using induction with
  | null => rfl
  | bool => rfl
  | number => rfl
  | string => rfl
  | array items ih =>
    rw [canonical_array, canonical_array, List.map_map]
    exact congrArg array (List.map_congr_left ih)
  | object fields ih =>
    rw [canonical_object]
    refine canonical_object_of_ordered (ordered_sortFields _) fun g hg => ?_
    obtain ⟨f, hf, hgf⟩ := exists_of_mem_sortFields_map hg
    rw [hgf, ih f hf]

theorem depth_canonical_le (j : Json) : j.canonical.depth ≤ j.depth := by
  induction j using induction with
  | null => exact Nat.le_refl _
  | bool => exact Nat.le_refl _
  | number => exact Nat.le_refl _
  | string => exact Nat.le_refl _
  | array items ih =>
    rw [canonical_array, depth, depth, Nat.add_le_add_iff_right, itemsDepth_le_iff]
    intro j hj
    obtain ⟨i, hi, rfl⟩ := List.mem_map.mp hj
    exact Nat.le_trans (ih i hi) (itemsDepth_le_iff.mp (Nat.le_refl _) i hi)
  | object fields ih =>
    rw [canonical_object, depth, depth, Nat.add_le_add_iff_right, fieldsDepth_le_iff]
    intro g hg
    obtain ⟨f, hf, hgf⟩ := exists_of_mem_sortFields_map hg
    rw [hgf]
    exact Nat.le_trans (ih f hf) (fieldsDepth_le_iff.mp (Nat.le_refl _) f hf)

theorem Exact.canonical {j : Json} (h : j.Exact) : j.canonical.Exact := by
  induction j using induction with
  | null => exact h
  | bool => exact h
  | number => exact h
  | string => exact h
  | array items ih =>
    rw [canonical_array, exact_array_iff]
    intro j hj
    obtain ⟨i, hi, rfl⟩ := List.mem_map.mp hj
    exact ih i hi (exact_array_iff.mp h i hi)
  | object fields ih =>
    rw [canonical_object, exact_object_iff]
    intro g hg
    obtain ⟨f, hf, hgf⟩ := exists_of_mem_sortFields_map hg
    rw [hgf]
    exact ih f hf (exact_object_iff.mp h f hf)

end StageLineage.Json
