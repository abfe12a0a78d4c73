/-! Finite maps as lists of entries in strictly increasing key order. Two maps with the same keys and
    values are the same list, so maps are compared as values. A key that compares equal to a present
    one replaces its value and keeps the key that was there first. -/

namespace StageLineage

/-- Entries in strictly increasing key order. -/
structure SortedMap (κ α : Type) [Ord κ] where
  entries : List (κ × α)
  sorted : entries.Pairwise fun a b => compare a.1 b.1 = .lt

namespace SortedMap
variable {κ α : Type} [Ord κ]

/-! ### Entries -/

/-- Puts `v` under `k` into an ordered list of entries. -/
def insertEntry (k : κ) (v : α) : List (κ × α) → List (κ × α)
  | [] => [(k, v)]
  | e :: rest =>
    match compare k e.1 with
    | .lt => (k, v) :: e :: rest
    | .eq => (e.1, v) :: rest
    | .gt => e :: insertEntry k v rest

/-- The value under `k`. -/
def lookup? (k : κ) : List (κ × α) → Option α
  | [] => none
  | e :: rest => if compare k e.1 = .eq then some e.2 else lookup? k rest

theorem mem_insertEntry {k : κ} {v : α} {e : κ × α} :
    ∀ {l : List (κ × α)}, e ∈ insertEntry k v l → compare k e.1 = .eq ∨ e.1 = k ∨ e ∈ l
  | [], h => by simp [insertEntry] at h; exact Or.inr (Or.inl (by rw [h]))
  | x :: l, h => by
    unfold insertEntry at h
    split at h
    · rcases List.mem_cons.mp h with rfl | h
      · exact Or.inr (Or.inl rfl)
      · exact Or.inr (Or.inr h)
    · next hk =>
      rcases List.mem_cons.mp h with rfl | h
      · exact Or.inl hk
      · exact Or.inr (Or.inr (List.mem_cons_of_mem _ h))
    · rcases List.mem_cons.mp h with rfl | h
      · exact Or.inr (Or.inr (List.mem_cons_self ..))
      · rcases mem_insertEntry h with h | h | h
        · exact Or.inl h
        · exact Or.inr (Or.inl h)
        · exact Or.inr (Or.inr (List.mem_cons_of_mem _ h))

theorem sorted_insertEntry [Std.TransOrd κ] (k : κ) (v : α) :
    ∀ {l : List (κ × α)}, (l.Pairwise fun a b => compare a.1 b.1 = .lt) →
      (insertEntry k v l).Pairwise fun a b => compare a.1 b.1 = .lt
  | [], _ => by simp [insertEntry]
  | x :: l, h => by
    obtain ⟨hx, hl⟩ := List.pairwise_cons.mp h
    unfold insertEntry
    split
    · next hk =>
      refine List.pairwise_cons.mpr ⟨fun e he => ?_, h⟩
      rcases List.mem_cons.mp he with rfl | he
      · exact hk
      · exact Std.TransCmp.lt_trans hk (hx e he)
    · exact List.pairwise_cons.mpr ⟨hx, hl⟩
    · next hk =>
      have hlt : compare x.1 k = .lt := Std.OrientedCmp.gt_iff_lt.mp hk
      refine List.pairwise_cons.mpr ⟨fun e he => ?_, sorted_insertEntry k v hl⟩
      rcases mem_insertEntry he with he | he | he
      · exact Std.TransCmp.lt_of_lt_of_eq hlt he
      · rw [he]; exact hlt
      · exact hx e he

theorem lookup?_insertEntry [Std.TransOrd κ] (k : κ) (v : α) (q : κ) :
    ∀ l : List (κ × α), lookup? q (insertEntry k v l) = if compare q k = .eq then some v else lookup? q l
  | [] => by simp [insertEntry, lookup?]
  | x :: l => by
    unfold insertEntry
    split
    · simp [lookup?]
    · next hk =>
      have hq : (compare q x.1 = .eq) ↔ compare q k = .eq :=
        ⟨fun h => Std.TransCmp.eq_trans h (Std.OrientedCmp.eq_symm hk), fun h => Std.TransCmp.eq_trans h hk⟩
      by_cases h : compare q k = .eq <;> simp [lookup?, hq, h]
    · next hk =>
      by_cases hx : compare q x.1 = .eq
      · have hne : compare q k ≠ .eq := fun h => by
          rw [Std.TransCmp.eq_trans (Std.OrientedCmp.eq_symm h) hx] at hk
          cases hk
        simp [lookup?, hx, hne]
      · simp [lookup?, hx, lookup?_insertEntry k v q l]

/-! ### Maps -/

def empty : SortedMap κ α := ⟨[], .nil⟩

instance : Inhabited (SortedMap κ α) := ⟨empty⟩

def get? (m : SortedMap κ α) (k : κ) : Option α := lookup? k m.entries

def contains (m : SortedMap κ α) (k : κ) : Bool := (m.get? k).isSome

/-- Puts a value under a key, replacing the value that is there. -/
def insert [Std.TransOrd κ] (m : SortedMap κ α) (k : κ) (v : α) : SortedMap κ α :=
  ⟨insertEntry k v m.entries, sorted_insertEntry k v m.sorted⟩

/-- Removes a key and its value. -/
def erase (m : SortedMap κ α) (k : κ) : SortedMap κ α :=
  ⟨m.entries.filter fun e => compare k e.1 != .eq, m.sorted.filter _⟩

def keys (m : SortedMap κ α) : List κ := m.entries.map (·.1)

def size (m : SortedMap κ α) : Nat := m.entries.length

/-- Inserts the pairs from left to right: of equal keys the last value stays. -/
def ofList [Std.TransOrd κ] (pairs : List (κ × α)) : SortedMap κ α :=
  pairs.foldl (fun m p => m.insert p.1 p.2) empty

@[simp] theorem get?_empty (k : κ) : (empty : SortedMap κ α).get? k = none := rfl

theorem get?_insert [Std.TransOrd κ] (m : SortedMap κ α) (k q : κ) (v : α) :
    (m.insert k v).get? q = if compare q k = .eq then some v else m.get? q :=
  lookup?_insertEntry k v q m.entries

theorem ext {m n : SortedMap κ α} (h : m.entries = n.entries) : m = n := by
  cases m; cases n; cases h; rfl

end SortedMap
end StageLineage
