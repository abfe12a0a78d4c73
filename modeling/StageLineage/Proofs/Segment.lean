import Mathlib.Data.List.Basic
import StageLineage.Proofs.Path
import StageLineage.Segment

/-! The names of segments. Two or more distinct ids that pass their check make a join, and the directory
    of a join of ids is a name that is longer than each of them. -/

namespace StageLineage.Segment

theorem checks_of_validate {text : String} (h : validate text = .ok ()) :
    text ≠ "" ∧ text ≠ "." ∧ text ≠ ".." ∧ ∀ c ∈ text.toList, isReserved c = false := by
  unfold validate at h
  split at h
  · cases h
  · next hne =>
    split at h
    · cases h
    · next hchecked => simpa [hne, and_assoc] using hchecked

theorem isName_of_validate {text : String} (h : validate text = .ok ()) : Path.IsName text := by
  obtain ⟨hne, hhere, hup, hreserved⟩ := checks_of_validate h
  refine ⟨fun h => hne (String.toList_inj.mp h), fun h => hhere (String.toList_inj.mp h),
    fun h => hup (String.toList_inj.mp h), fun hmem => ?_⟩
  exact absurd (hreserved '/' hmem) (by decide)

theorem colon_notMem_of_validate {text : String} (h : validate text = .ok ()) : ':' ∉ text.toList := fun hmem =>
  absurd ((checks_of_validate h).2.2.2 ':' hmem) (by decide)

/-! ### Joins -/

theorem dropRepeats_of_nodup {l : List String} (h : l.Nodup) : dropRepeats l = l := by
  fun_induction dropRepeats l with
  | case1 => rfl
  | case2 => rfl
  | case3 x rest ih => simp at h
  | case4 x y rest hne ih => rw [ih (List.nodup_cons.mp h).2]

/-- Distinct ids are all kept. -/
theorem sortedIds_perm {ids : List String} (h : ids.Nodup) : (sortedIds ids).Perm ids := by
  have hsort := List.mergeSort_perm ids fun a b => decide (a ≤ b)
  rw [sortedIds, dropRepeats_of_nodup (hsort.nodup_iff.mpr h)]
  exact hsort

/-- The order in which ids are given does not matter. -/
theorem sortedIds_eq_of_perm {ids ids' : List String} (h : ids.Perm ids') : sortedIds ids = sortedIds ids' := by
  have htrans : ∀ a b c : String, decide (a ≤ b) = true → decide (b ≤ c) = true → decide (a ≤ c) = true := by
    simpa using fun a b c => String.le_trans
  have htotal : ∀ a b : String, (decide (a ≤ b) || decide (b ≤ a)) = true := by
    simpa using String.le_total
  have hsort : ids.mergeSort (fun a b => decide (a ≤ b)) = ids'.mergeSort (fun a b => decide (a ≤ b)) := by
    refine List.Perm.eq_of_pairwise ?_ (List.pairwise_mergeSort htrans htotal ids)
      (List.pairwise_mergeSort htrans htotal ids') ?_
    · simpa using fun a b _ _ => String.le_antisymm
    · exact (List.mergeSort_perm ..).trans (h.trans (List.mergeSort_perm ..).symm)
  rw [sortedIds, hsort, ← sortedIds]

/-- Ids that pass their check can be joined, if they are distinct and at least two. -/
theorem ofParents_eq_ok {ids : List String} (hnodup : ids.Nodup) (htwo : 2 ≤ ids.length)
    (hvalid : ∀ id ∈ ids, validate id = .ok ()) : ofParents ids = .ok (join (sortedIds ids)) := by
  have hperm := sortedIds_perm hnodup
  have hlength : ¬ (sortedIds ids).length < 2 := by
    rw [hperm.length_eq]
    omega
  have hall : ∀ l : List String, (∀ id ∈ l, validate id = .ok ()) → l.forM validate = .ok () := by
    intro l
    induction l with
    | nil => exact fun _ => rfl
    | cons x l ih =>
      intro h
      have hx : validate x = .ok () := h x (List.mem_cons_self ..)
      have hl : forM l validate = .ok () := ih fun y hy => h y (List.mem_cons_of_mem _ hy)
      rw [List.forM_eq_forM, List.forM_cons, hx]
      exact hl
  simp [ofParents, hlength, hall _ fun id hid => hvalid id (hperm.mem_iff.mp hid), bind, Except.bind, pure, Except.pure]

/-! ### Directory names -/

theorem not_mem_intercalate {c : Char} (hc : c ≠ '_') {ids : List String} (h : ∀ id ∈ ids, c ∉ id.toList) :
    c ∉ ("_".intercalate ids).toList := by
  induction ids with
  | nil => simp
  | cons id ids ih =>
    have hid := h id (List.mem_cons_self ..)
    have hids := ih fun x hx => h x (List.mem_cons_of_mem _ hx)
    cases ids with
    | nil => simpa using hid
    | cons y ids =>
      rw [String.intercalate_cons_cons, String.toList_append, String.toList_append]
      simp only [List.mem_append, not_or]
      exact ⟨⟨hid, by simpa using hc⟩, hids⟩

theorem length_le_length_intercalate {id : String} {ids : List String} (h : id ∈ ids) :
    id.toList.length ≤ ("_".intercalate ids).toList.length := by
  induction ids with
  | nil => exact nomatch h
  | cons x ids ih =>
    cases ids with
    | nil => simp [List.mem_singleton.mp h]
    | cons y ids =>
      rw [String.intercalate_cons_cons, String.toList_append, String.toList_append]
      rcases List.mem_cons.mp h with rfl | h
      · simp only [List.length_append]
        omega
      · have := ih h
        simp only [List.length_append]
        omega

theorem toList_dirName_join (ids : List String) :
    (join ids).dirName.toList = ['_', 'j', 'o', 'i', 'n', '_'] ++ ("_".intercalate ids).toList := by
  simp [dirName, joinMark]

/-- The directory of a join is no directory of a stage that meets in it. -/
theorem dirName_join_ne {id : String} {ids : List String} (h : id ∈ ids) : (join ids).dirName ≠ id := by
  intro heq
  have hle := length_le_length_intercalate h
  rw [← heq, toList_dirName_join] at hle
  simp only [List.length_append, List.length_cons] at hle
  omega

theorem isName_dirName_join {ids : List String} (h : ∀ id ∈ ids, Path.IsName id) : Path.IsName (join ids).dirName where
  ne_empty := by simp [toList_dirName_join]
  ne_here := by simp [toList_dirName_join]
  ne_up := by simp [toList_dirName_join]
  no_separator := by
    rw [toList_dirName_join]
    simpa using not_mem_intercalate (by decide) fun id hid => (h id hid).no_separator

end StageLineage.Segment
