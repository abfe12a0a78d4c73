import StageLineage.SortedMap

/-! Sorted maps are determined by what they hold: two maps that answer every look-up alike are equal,
    and inserting the entries of a map one after another gives the map back. -/

namespace StageLineage.SortedMap
variable {κ α : Type} [Ord κ]

/-! ### Entries -/

theorem insertEntry_of_forall_lt [Std.OrientedOrd κ] {k : κ} {v : α} :
    ∀ {l : List (κ × α)}, (∀ e ∈ l, compare e.1 k = .lt) → insertEntry k v l = l ++ [(k, v)]
  | [], _ => rfl
  | e :: l, h => by
    have hk : compare k e.1 = .gt := Std.OrientedCmp.gt_iff_lt.mpr (h e (List.mem_cons_self ..))
    simp only [insertEntry, hk, List.cons_append]
    rw [insertEntry_of_forall_lt fun x hx => h x (List.mem_cons_of_mem _ hx)]

/-- Entries that are in order stay as they are when they are inserted one after another. -/
theorem foldl_insertEntry_of_pairwise [Std.OrientedOrd κ] :
    ∀ {l before : List (κ × α)}, ((before ++ l).Pairwise fun a b => compare a.1 b.1 = .lt) →
      l.foldl (fun m e => insertEntry e.1 e.2 m) before = before ++ l
  | [], _, _ => by simp
  | e :: l, before, h => by
    have hlt : ∀ x ∈ before, compare x.1 e.1 = .lt := fun x hx =>
      (List.pairwise_append.mp h).2.2 x hx e (List.mem_cons_self ..)
    rw [List.foldl_cons, insertEntry_of_forall_lt hlt, foldl_insertEntry_of_pairwise (by simpa using h)]
    simp

theorem lookup?_eq_none_of_forall_lt {k : κ} :
    ∀ {l : List (κ × α)}, (∀ e ∈ l, compare k e.1 = .lt) → lookup? k l = none
  | [], _ => rfl
  | e :: l, h => by
    have hk := h e (List.mem_cons_self ..)
    simp [lookup?, hk, lookup?_eq_none_of_forall_lt fun x hx => h x (List.mem_cons_of_mem _ hx)]

theorem lookup?_of_mem [Std.OrientedOrd κ] {e : κ × α} :
    ∀ {l : List (κ × α)}, (l.Pairwise fun a b => compare a.1 b.1 = .lt) → e ∈ l → lookup? e.1 l = some e.2
  | f :: l, h, he => by
    obtain ⟨hf, hl⟩ := List.pairwise_cons.mp h
    rcases List.mem_cons.mp he with rfl | he
    · simp [lookup?, Std.ReflCmp.compare_self]
    · have hgt : compare e.1 f.1 = .gt := Std.OrientedCmp.gt_iff_lt.mpr (hf e he)
      simp [lookup?, hgt, lookup?_of_mem hl he]

/-- Lists of entries in strictly increasing key order that answer every look-up alike are equal. -/
theorem entries_eq_of_lookup? [Std.TransOrd κ] [Std.LawfulEqOrd κ] :
    ∀ {l m : List (κ × α)}, (l.Pairwise fun a b => compare a.1 b.1 = .lt) →
      (m.Pairwise fun a b => compare a.1 b.1 = .lt) → (∀ k, lookup? k l = lookup? k m) → l = m
  | [], [], _, _, _ => rfl
  | [], e :: m, _, _, h => by
    have := h e.1
    simp [lookup?] at this
  | e :: l, [], _, _, h => by
    have := h e.1
    simp [lookup?] at this
  | e :: l, f :: m, hl, hm, h => by
    obtain ⟨he, hl⟩ := List.pairwise_cons.mp hl
    obtain ⟨hf, hm⟩ := List.pairwise_cons.mp hm
    -- the least keys agree: neither list could answer for a key below all of its own
    have hkey : compare e.1 f.1 = .eq := by
      cases hc : compare e.1 f.1 with
      | eq => rfl
      | lt =>
        have hnone : lookup? e.1 (f :: m) = none :=
          lookup?_eq_none_of_forall_lt fun x hx => by
            rcases List.mem_cons.mp hx with rfl | hx
            · exact hc
            · exact Std.TransCmp.lt_trans hc (hf x hx)
        rw [← h e.1] at hnone
        simp [lookup?] at hnone
      | gt =>
        have hc' : compare f.1 e.1 = .lt := Std.OrientedCmp.gt_iff_lt.mp hc
        have hnone : lookup? f.1 (e :: l) = none :=
          lookup?_eq_none_of_forall_lt fun x hx => by
            rcases List.mem_cons.mp hx with rfl | hx
            · exact hc'
            · exact Std.TransCmp.lt_trans hc' (he x hx)
        rw [h f.1] at hnone
        simp [lookup?] at hnone
    have hkey : e.1 = f.1 := Std.LawfulEqCmp.eq_of_compare hkey
    have hvalue : e.2 = f.2 := by
      have := h e.1
      simpa [lookup?, hkey] using this
    have hrest : l = m := by
      refine entries_eq_of_lookup? hl hm fun k => ?_
      by_cases hk : compare k e.1 = .eq
      · have hke : k = e.1 := Std.LawfulEqCmp.eq_of_compare hk
        rw [hke, lookup?_eq_none_of_forall_lt he, lookup?_eq_none_of_forall_lt (hkey ▸ hf)]
      · have hk' : compare k f.1 ≠ .eq := hkey ▸ hk
        have := h k
        simpa [lookup?, hk, hk'] using this
    rw [Prod.ext hkey hvalue, hrest]

/-- Putting in an entry that is there changes nothing. -/
theorem insertEntry_of_lookup? [Std.TransOrd κ] {k : κ} {v : α} :
    ∀ {l : List (κ × α)}, (l.Pairwise fun a b => compare a.1 b.1 = .lt) → lookup? k l = some v → insertEntry k v l = l
  | e :: l, h, hk => by
    obtain ⟨he, hl⟩ := List.pairwise_cons.mp h
    cases hc : compare k e.1 with
    | lt =>
      have hnone : lookup? k l = none :=
        lookup?_eq_none_of_forall_lt fun x hx => Std.TransCmp.lt_trans hc (he x hx)
      simp [lookup?, hc, hnone] at hk
    | eq =>
      obtain rfl : e.2 = v := by simpa [lookup?, hc] using hk
      simp [insertEntry, hc]
    | gt =>
      have hrest : lookup? k l = some v := by simpa [lookup?, hc] using hk
      simp [insertEntry, hc, insertEntry_of_lookup? hl hrest]

theorem insertEntry_comm_of_lt [Std.TransOrd κ] {j k : κ} (h : compare j k = .lt) (v w : α) :
    ∀ l : List (κ × α), insertEntry j v (insertEntry k w l) = insertEntry k w (insertEntry j v l)
  | [] => by
    have hgt : compare k j = .gt := Std.OrientedCmp.gt_iff_lt.mpr h
    simp [insertEntry, h, hgt]
  | e :: l => by
    have hgt : compare k j = .gt := Std.OrientedCmp.gt_iff_lt.mpr h
    cases hj : compare j e.1 with
    | lt => cases hk : compare k e.1 <;> simp [insertEntry, h, hgt, hj, hk]
    | eq =>
      have hk : compare k e.1 = .gt :=
        Std.OrientedCmp.gt_iff_lt.mpr (Std.TransCmp.lt_of_eq_of_lt (Std.OrientedCmp.eq_symm hj) h)
      simp [insertEntry, hj, hk]
    | gt =>
      have hk : compare k e.1 = .gt :=
        Std.OrientedCmp.gt_iff_lt.mpr (Std.TransCmp.lt_trans (Std.OrientedCmp.gt_iff_lt.mp hj) h)
      simp [insertEntry, hj, hk, insertEntry_comm_of_lt h v w l]

/-- Entries with different keys may be put in in either order. -/
theorem insertEntry_comm [Std.TransOrd κ] {j k : κ} (h : compare j k ≠ .eq) (v w : α) (l : List (κ × α)) :
    insertEntry j v (insertEntry k w l) = insertEntry k w (insertEntry j v l) := by
  cases hjk : compare j k with
  | lt => exact insertEntry_comm_of_lt hjk v w l
  | eq => exact absurd hjk h
  | gt => exact (insertEntry_comm_of_lt (Std.OrientedCmp.gt_iff_lt.mp hjk) w v l).symm

theorem insertEntry_perm {k : κ} {v : α} :
    ∀ {l : List (κ × α)}, (∀ e ∈ l, compare k e.1 ≠ .eq) → (insertEntry k v l).Perm ((k, v) :: l)
  | [], _ => .refl _
  | e :: l, h => by
    obtain ⟨he, hl⟩ := List.forall_mem_cons.mp h
    cases hk : compare k e.1 with
    | lt => simp [insertEntry, hk]
    | eq => exact absurd hk he
    | gt => simpa [insertEntry, hk] using ((insertEntry_perm hl).cons e).trans (.swap ..)

/-- The keys after an insertion are the former ones, each as it was spelled, and at most the new one. -/
theorem mem_map_insertEntry {k q : κ} {v : α} :
    ∀ {l : List (κ × α)}, q ∈ (insertEntry k v l).map (·.1) → q = k ∨ q ∈ l.map (·.1)
  | [], h => Or.inl (by simpa [insertEntry] using h)
  | e :: l, h => by
    unfold insertEntry at h
    split at h
    · exact List.mem_cons.mp h
    · exact Or.inr h
    · rcases List.mem_cons.mp h with rfl | h
      · exact Or.inr (List.mem_cons_self ..)
      · exact (mem_map_insertEntry h).imp id (List.mem_cons_of_mem _)

theorem exists_mem_of_lookup? {k : κ} {v : α} :
    ∀ {l : List (κ × α)}, lookup? k l = some v → ∃ q ∈ l.map (·.1), compare k q = .eq
  | e :: l, h => by
    unfold lookup? at h
    split at h
    · next hk => exact ⟨e.1, List.mem_cons_self .., hk⟩
    · obtain ⟨q, hq, hk⟩ := exists_mem_of_lookup? h
      exact ⟨q, List.mem_cons_of_mem _ hq, hk⟩

/-! ### Maps -/

theorem get?_of_mem [Std.OrientedOrd κ] {m : SortedMap κ α} {e : κ × α} (h : e ∈ m.entries) : m.get? e.1 = some e.2 :=
  lookup?_of_mem m.sorted h

theorem mem_keys_insert [Std.TransOrd κ] {m : SortedMap κ α} {k q : κ} {v : α} (h : q ∈ (m.insert k v).keys) :
    q = k ∨ q ∈ m.keys :=
  mem_map_insertEntry h

theorem exists_mem_keys {m : SortedMap κ α} {k : κ} {v : α} (h : m.get? k = some v) : ∃ q ∈ m.keys, compare k q = .eq :=
  exists_mem_of_lookup? h

theorem nodup_keys [Std.ReflOrd κ] (m : SortedMap κ α) : m.keys.Nodup := by
  refine List.pairwise_map.mpr (m.sorted.imp fun hlt heq => ?_)
  rw [heq, Std.ReflOrd.compare_self] at hlt
  cases hlt

theorem insert_of_get? [Std.TransOrd κ] {m : SortedMap κ α} {k : κ} {v : α} (h : m.get? k = some v) :
    m.insert k v = m :=
  ext (insertEntry_of_lookup? m.sorted h)

theorem insert_insert_self [Std.TransOrd κ] (m : SortedMap κ α) (k : κ) (v : α) :
    (m.insert k v).insert k v = m.insert k v :=
  insert_of_get? (by rw [get?_insert, if_pos Std.ReflCmp.compare_self])

theorem insert_comm [Std.TransOrd κ] (m : SortedMap κ α) {j k : κ} (h : compare j k ≠ .eq) (v w : α) :
    (m.insert j v).insert k w = (m.insert k w).insert j v :=
  (ext (insertEntry_comm h v w m.entries)).symm

theorem ext_get? [Std.TransOrd κ] [Std.LawfulEqOrd κ] {m n : SortedMap κ α} (h : ∀ k, m.get? k = n.get? k) :
    m = n :=
  ext (entries_eq_of_lookup? m.sorted n.sorted h)

theorem entries_foldl_insert [Std.TransOrd κ] :
    ∀ (pairs : List (κ × α)) (m : SortedMap κ α),
      (pairs.foldl (fun m p => m.insert p.1 p.2) m).entries =
        pairs.foldl (fun l p => insertEntry p.1 p.2 l) m.entries
  | [], _ => rfl
  | p :: pairs, m => entries_foldl_insert pairs (m.insert p.1 p.2)

theorem ofList_entries [Std.TransOrd κ] (m : SortedMap κ α) : ofList m.entries = m := by
  apply ext
  rw [ofList, entries_foldl_insert, foldl_insertEntry_of_pairwise (by simpa [empty] using m.sorted)]
  simp [empty]

theorem contains_insert [Std.TransOrd κ] (m : SortedMap κ α) (k q : κ) (v : α) :
    (m.insert k v).contains q = (compare q k == .eq || m.contains q) := by
  unfold contains
  rw [get?_insert]
  by_cases h : compare q k = .eq <;> simp [h]

/-- What a map holds after inserting, for each of some keys, the value that `f` has for it. -/
theorem get?_foldl_insert_filterMap [DecidableEq κ] [Std.TransOrd κ] [Std.LawfulEqOrd κ] (f : κ → Option α)
    (q : κ) :
    ∀ (keys : List κ) (m : SortedMap κ α),
      ((keys.filterMap fun k => (f k).map (k, ·)).foldl (fun m p => m.insert p.1 p.2) m).get? q =
        if q ∈ keys then (f q).or (m.get? q) else m.get? q
  | [], _ => by simp
  | k :: keys, m => by
    cases hf : f k with
    | none =>
      rw [List.filterMap_cons_none (by simp [hf]), get?_foldl_insert_filterMap f q keys m]
      by_cases hq : q = k <;> simp [hq, hf]
    | some v =>
      rw [List.filterMap_cons_some (by simp [hf]; rfl), List.foldl_cons, get?_foldl_insert_filterMap f q keys,
        get?_insert]
      by_cases hq : q = k
      · subst hq
        simp [hf]
      · have : compare q k ≠ .eq := fun h => hq (Std.LawfulEqCmp.eq_of_compare h)
        simp [hq, this]

theorem get?_ofList_filterMap [DecidableEq κ] [Std.TransOrd κ] [Std.LawfulEqOrd κ] (keys : List κ)
    (f : κ → Option α) (q : κ) :
    (ofList (keys.filterMap fun k => (f k).map (k, ·))).get? q = if q ∈ keys then f q else none := by
  rw [ofList, get?_foldl_insert_filterMap]
  simp

end StageLineage.SortedMap
