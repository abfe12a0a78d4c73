import Mathlib.Data.List.Induction
import StageLineage.Proofs.SortedMap

/-! Maps that are made of lists of pairs. Such a map holds for each key the last value that is paired with it, so lists
    that agree on the last values make the same map, and the order of pairs with different keys does not matter. -/

namespace StageLineage
variable {κ α : Type} {pairs pairs' : List (κ × α)} {p : κ × α} {k : κ} {v : α}

/-- The last value that is paired with a key. -/
def LastValue (pairs : List (κ × α)) (k : κ) (v : α) : Prop :=
  ∃ before after, pairs = before ++ (k, v) :: after ∧ k ∉ after.map (·.1)

theorem lastValue_concat_iff : LastValue (pairs ++ [p]) k v ↔ p = (k, v) ∨ k ≠ p.1 ∧ LastValue pairs k v := by
  constructor
  · rintro ⟨before, after, hsplit, hlast⟩
    rcases List.eq_nil_or_concat after with rfl | ⟨after, q, rfl⟩
    · exact Or.inl (List.singleton_inj.mp (List.append_inj_right' hsplit rfl))
    · rw [List.concat_eq_append, ← List.cons_append, ← List.append_assoc] at hsplit
      obtain ⟨rfl, hq⟩ := List.append_inj' hsplit rfl
      obtain rfl := List.singleton_inj.mp hq
      simp only [List.concat_eq_append, List.map_append, List.mem_append, not_or, List.map_cons, List.map_nil,
        List.mem_singleton] at hlast
      exact Or.inr ⟨hlast.2, before, after, rfl, hlast.1⟩
  · rintro (rfl | ⟨hne, before, after, rfl, hlast⟩)
    · exact ⟨pairs, [], rfl, List.not_mem_nil⟩
    · refine ⟨before, after ++ [p], by simp, ?_⟩
      simp [hne, hlast]

theorem lastValue_iff_mem (h : (pairs.map (·.1)).Nodup) : LastValue pairs k v ↔ (k, v) ∈ pairs := by
  constructor
  · rintro ⟨before, after, rfl, -⟩
    simp
  · intro hmem
    obtain ⟨before, after, rfl⟩ := List.append_of_mem hmem
    refine ⟨before, after, rfl, ?_⟩
    rw [List.map_append, List.map_cons, List.nodup_append] at h
    exact (List.nodup_cons.mp h.2.1).1

namespace SortedMap
variable [Ord κ]

theorem mem_of_lookup? [Std.LawfulEqOrd κ] : ∀ {l : List (κ × α)}, lookup? k l = some v → (k, v) ∈ l
  | e :: l, h => by
    unfold lookup? at h
    split at h
    · next hk =>
      obtain rfl := Std.LawfulEqOrd.eq_of_compare hk
      obtain rfl := Option.some.inj h
      exact List.mem_cons_self ..
    · exact List.mem_cons_of_mem _ (mem_of_lookup? h)

theorem get?_eq_some_iff_mem [Std.OrientedOrd κ] [Std.LawfulEqOrd κ] {m : SortedMap κ α} :
    m.get? k = some v ↔ (k, v) ∈ m.entries :=
  ⟨mem_of_lookup?, get?_of_mem⟩

/-- The map holds the last value of every key of the pairs, and nothing else. -/
def Collects (m : SortedMap κ α) (pairs : List (κ × α)) : Prop :=
  ∀ k v, m.get? k = some v ↔ LastValue pairs k v

variable [Std.TransOrd κ] [Std.LawfulEqOrd κ] {m : SortedMap κ α}

theorem Collects.insert (h : m.Collects pairs) (p : κ × α) : (m.insert p.1 p.2).Collects (pairs ++ [p]) := by
  intro k v
  rw [get?_insert, lastValue_concat_iff]
  by_cases hk : k = p.1
  · subst hk
    simp [Prod.ext_iff]
  · have hne : compare k p.1 ≠ .eq := fun heq => hk (Std.LawfulEqOrd.eq_of_compare heq)
    have hp : p ≠ (k, v) := fun heq => hk (congrArg Prod.fst heq).symm
    simp [hk, hne, hp, h k v]

theorem collects_ofList (pairs : List (κ × α)) : (ofList pairs).Collects pairs := by
  induction pairs using List.reverseRecOn with
  | nil => simp [Collects, LastValue, ofList]
  | append_singleton pairs p ih =>
    rw [ofList, List.foldl_append]
    exact ih.insert p

theorem Collects.eq_ofList (h : m.Collects pairs) : m = ofList pairs :=
  ext_get? fun k => Option.ext fun v => (h k v).trans (collects_ofList pairs k v).symm

end SortedMap
end StageLineage
