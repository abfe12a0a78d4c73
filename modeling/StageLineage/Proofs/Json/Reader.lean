import StageLineage.Json.Reader
import StageLineage.Proofs.Json.Canonical

/-! What the reader returns. A value that was read is in canonical form, nests no more containers than
    were allowed, and its integers have 64 bits. -/

namespace StageLineage.Json

/-! ### Containers -/

section Containers
variable {α : Type}

theorem mem_itemsUpTo {item : Reader α} :
    ∀ {fuel : Nat} {cs rest : List Char} {xs : List α}, itemsUpTo item fuel cs = some (xs, rest) →
      ∀ x ∈ xs, ∃ before after, item before = some (x, after)
  | 0, _, _, _, h => by simp [itemsUpTo] at h
  | fuel + 1, cs, rest, xs, h => by
    rw [itemsUpTo] at h
    split at h
    · cases h
    · next x after hx =>
      split at h
      · next after' =>
        obtain ⟨⟨ys, rest'⟩, hys, heq⟩ := Option.map_eq_some_iff.mp h
        obtain ⟨rfl, rfl⟩ := Prod.mk.inj heq
        exact List.forall_mem_cons.mpr ⟨⟨cs, after, hx⟩, mem_itemsUpTo hys⟩
      · obtain ⟨rfl, rfl⟩ := Prod.mk.inj (Option.some.inj h)
        exact List.forall_mem_cons.mpr ⟨⟨cs, after, hx⟩, fun _ h => nomatch h⟩
      · cases h

theorem mem_items {item : Reader α} {cs rest : List Char} {xs : List α} (h : items item cs = some (xs, rest)) :
    ∀ x ∈ xs, ∃ before after, item before = some (x, after) := by
  rw [items] at h
  split at h
  · obtain ⟨rfl, rfl⟩ := Prod.mk.inj (Option.some.inj h)
    exact fun _ h => nomatch h
  · exact mem_itemsUpTo h

theorem mem_fieldsUpTo {checked : Bool} {item : String → Reader α} :
    ∀ {fuel : Nat} {cs rest : List Char} {xs : List (String × α)},
      fieldsUpTo checked item fuel cs = some (xs, rest) →
      ∀ x ∈ xs, ∃ before after, item x.1 before = some (x.2, after)
  | 0, _, _, _, h => by simp [fieldsUpTo] at h
  | fuel + 1, cs, rest, xs, h => by
    rw [fieldsUpTo] at h
    split at h
    · cases h
    · next key afterKey _ =>
      split at h
      · next afterColon _ =>
        split at h
        · cases h
        · next x after hx =>
          split at h
          · obtain ⟨⟨ys, rest'⟩, hys, heq⟩ := Option.map_eq_some_iff.mp h
            obtain ⟨rfl, rfl⟩ := Prod.mk.inj heq
            exact List.forall_mem_cons.mpr ⟨⟨afterColon, after, hx⟩, mem_fieldsUpTo hys⟩
          · obtain ⟨rfl, rfl⟩ := Prod.mk.inj (Option.some.inj h)
            exact List.forall_mem_cons.mpr ⟨⟨afterColon, after, hx⟩, fun _ h => nomatch h⟩
          · cases h
      · cases h

theorem mem_fields {checked : Bool} {item : String → Reader α} {cs rest : List Char} {xs : List (String × α)}
    (h : fields checked item cs = some (xs, rest)) :
    ∀ x ∈ xs, ∃ before after, item x.1 before = some (x.2, after) := by
  rw [fields] at h
  split at h
  · obtain ⟨rfl, rfl⟩ := Prod.mk.inj (Option.some.inj h)
    exact fun _ h => nomatch h
  · exact mem_fieldsUpTo h

end Containers

/-! ### Numbers -/

def Number.IsFloat : Number → Prop
  | .integer _ => False
  | .float _ => True

def FloatFree (j : Json) : Prop := ∀ n ∈ j.numbers, ¬n.IsFloat

instance : DecidablePred Number.IsFloat
  | .integer _ => inferInstanceAs (Decidable False)
  | .float _ => inferInstanceAs (Decidable True)

instance : DecidablePred FloatFree := fun j => inferInstanceAs (Decidable (∀ n ∈ j.numbers, ¬n.IsFloat))

theorem numberOf_exact {negative : Bool} {whole : List Char} {fraction : Option (List Char)} {exponent : Option Int}
    {n : Number} (h : numberOf negative whole fraction exponent = some n) : n.IsFloat ∨ n.Exact := by
  unfold numberOf at h
  split at h
  · dsimp only at h
    generalize (if negative then -(digitsValue whole : Int) else (digitsValue whole : Int)) = value at h
    split at h
    · exact Or.inl (Option.some.inj h ▸ trivial)
    · split at h
      · next hrange =>
        rw [← Option.some.inj h]
        exact Or.inr (by simpa [Number.Exact] using hrange)
      · obtain ⟨x, -, rfl⟩ := Option.map_eq_some_iff.mp h
        exact Or.inl trivial
  · obtain ⟨x, -, rfl⟩ := Option.map_eq_some_iff.mp h
    exact Or.inl trivial

theorem unsigned?_exact {negative : Bool} {cs rest : List Char} {n : Number}
    (h : unsigned? true negative cs = some (n, rest)) : n.IsFloat ∨ n.Exact := by
  simp only [unsigned?] at h
  split at h
  · cases h
  · simp only [↓reduceIte, Option.bind_eq_bind, Option.bind_eq_some_iff, Option.pure_def, Option.some.injEq] at h
    obtain ⟨⟨fraction, _⟩, -, ⟨exponent, _⟩, -, m, hm, heq⟩ := h
    exact (Prod.mk.inj heq).1 ▸ numberOf_exact hm

/-! ### Values -/

/-- What holds of a value that was read with `d` nested containers allowed. -/
structure ReadWithin (d : Nat) (j : Json) : Prop where
  canonical : j.canonical = j
  depth : j.depth ≤ d
  numbers : ∀ n ∈ j.numbers, n.IsFloat ∨ n.Exact

theorem ReadWithin.exact {d : Nat} {j : Json} (h : ReadWithin d j) (hf : j.FloatFree) : j.Exact := fun n hn =>
  (h.numbers n hn).resolve_left (hf n hn)

theorem ReadWithin.number {d : Nat} {n : Number} (h : n.IsFloat ∨ n.Exact) : ReadWithin d (number n) where
  canonical := rfl
  depth := Nat.zero_le _
  numbers m hm := by rwa [List.mem_singleton.mp hm]

theorem ReadWithin.array {d : Nat} {items : List Json} (h : ∀ j ∈ items, ReadWithin d j) :
    ReadWithin (d + 1) (array items) where
  canonical := by
    rw [canonical_array]
    exact congrArg Json.array ((List.map_congr_left (g := id) fun j hj => (h j hj).canonical).trans (List.map_id _))
  depth := by
    rw [Json.depth, Nat.add_le_add_iff_right, itemsDepth_le_iff]
    exact fun j hj => (h j hj).depth
  numbers n hn := by
    obtain ⟨j, hj, hn⟩ := mem_itemsNumbers_iff.mp hn
    exact (h j hj).numbers n hn

theorem ReadWithin.object {d : Nat} {fields : List (String × Json)} (h : ∀ f ∈ fields, ReadWithin d f.2) :
    ReadWithin (d + 1) (object (sortFields fields)) where
  canonical :=
    canonical_object_of_ordered (ordered_sortFields _) fun f hf => (h f (mem_of_mem_sortFields hf)).canonical
  depth := by
    rw [Json.depth, Nat.add_le_add_iff_right, fieldsDepth_le_iff]
    exact fun f hf => (h f (mem_of_mem_sortFields hf)).depth
  numbers n hn := by
    obtain ⟨f, hf, hn⟩ := mem_fieldsNumbers_iff.mp hn
    exact (h f (mem_of_mem_sortFields hf)).numbers n hn

theorem ReadWithin.scalar {d : Nat} {j : Json} (hc : j.canonical = j) (hd : j.depth = 0) (hn : j.numbers = []) :
    ReadWithin d j where
  canonical := hc
  depth := hd ▸ Nat.zero_le d
  numbers n h := by
    rw [hn] at h
    cases h

theorem readWithin_of_unsigned? {d : Nat} {negative : Bool} {cs rest : List Char} {j : Json}
    (h : ((unsigned? true negative cs).map fun r => (number r.1, r.2)) = some (j, rest)) : ReadWithin d j := by
  obtain ⟨⟨n, _⟩, hn, heq⟩ := Option.map_eq_some_iff.mp h
  exact (Prod.mk.inj heq).1 ▸ .number (unsigned?_exact hn)

theorem readWithin_of_value? {d : Nat} {cs rest : List Char} {j : Json} (h : value? true d cs = some (j, rest)) :
    ReadWithin d j := by
  rw [value?.eq_def] at h
  split at h
  · exact (Prod.mk.inj (Option.some.inj h)).1 ▸ .scalar rfl rfl rfl
  · exact (Prod.mk.inj (Option.some.inj h)).1 ▸ .scalar rfl rfl rfl
  · exact (Prod.mk.inj (Option.some.inj h)).1 ▸ .scalar rfl rfl rfl
  · obtain ⟨_, -, heq⟩ := Option.map_eq_some_iff.mp h
    exact (Prod.mk.inj heq).1 ▸ .scalar rfl rfl rfl
  · exact readWithin_of_unsigned? h
  · obtain ⟨⟨xs, _⟩, hxs, hj⟩ := Option.map_eq_some_iff.mp h
    refine (Prod.mk.inj hj).1 ▸ .array fun x hx => ?_
    obtain ⟨_, _, hread⟩ := mem_items hxs x hx
    exact readWithin_of_value? hread
  · obtain ⟨⟨xs, _⟩, hxs, hj⟩ := Option.map_eq_some_iff.mp h
    refine (Prod.mk.inj hj).1 ▸ .object fun x hx => ?_
    obtain ⟨_, _, hread⟩ := mem_fields hxs x hx
    exact readWithin_of_value? hread
  · exact readWithin_of_unsigned? h
termination_by d

theorem exists_of_complete {α : Type} {reader : Reader α} {cs : List Char} {x : α} (h : complete reader cs = some x) :
    ∃ rest, reader cs = some (x, rest) := by
  rw [complete] at h
  split at h
  · next y rest hy =>
    split at h
    · exact ⟨rest, Option.some.inj h ▸ hy⟩
    · cases h
  · cases h

theorem readWithin_of_parse? {text : String} {j : Json} (h : parse? text = some j) : ReadWithin maxDepth j := by
  obtain ⟨rest, hread⟩ := exists_of_complete h
  exact readWithin_of_value? hread

theorem exact_of_parse? {text : String} {j : Json} (h : parse? text = some j) (hf : j.FloatFree) : j.Exact :=
  (readWithin_of_parse? h).exact hf

end StageLineage.Json
