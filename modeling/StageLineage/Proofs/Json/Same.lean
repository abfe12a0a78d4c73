import StageLineage.Proofs.Json.Printer
import Mathlib.Data.List.Nodup
import Mathlib.Data.List.Perm.Basic

/-! Values up to the order of keys. Two values without repeated keys have the same canonical form, and so the same
    canonical text, if and only if they differ in nothing but the order in which their objects list their keys. -/

namespace StageLineage.Json

/-- The values differ in nothing but the order in which their objects list their keys. -/
inductive Same : Json → Json → Prop where
  | null : Same null null
  | bool (b : Bool) : Same (bool b) (bool b)
  | number (n : Number) : Same (number n) (number n)
  | string (text : String) : Same (string text) (string text)
  | array {xs ys : List Json} (items : List.Forall₂ Same xs ys) : Same (array xs) (array ys)
  | object {fs gs : List (String × Json)} (keys : (fs.map (·.1)).Perm (gs.map (·.1)))
      (values : ∀ f ∈ fs, ∀ g ∈ gs, f.1 = g.1 → Same f.2 g.2) : Same (object fs) (object gs)

/-- No object of the value repeats a key. -/
inductive DistinctKeys : Json → Prop where
  | null : DistinctKeys null
  | bool (b : Bool) : DistinctKeys (bool b)
  | number (n : Number) : DistinctKeys (number n)
  | string (text : String) : DistinctKeys (string text)
  | array {items : List Json} (values : ∀ j ∈ items, DistinctKeys j) : DistinctKeys (array items)
  | object {fields : List (String × Json)} (keys : (fields.map (·.1)).Nodup) (values : ∀ f ∈ fields, DistinctKeys f.2) :
      DistinctKeys (object fields)

theorem same_array_iff {xs ys : List Json} : Same (array xs) (array ys) ↔ List.Forall₂ Same xs ys :=
  ⟨fun | .array h => h, .array⟩

theorem same_object_iff {fs gs : List (String × Json)} : Same (object fs) (object gs) ↔
    (fs.map (·.1)).Perm (gs.map (·.1)) ∧ ∀ f ∈ fs, ∀ g ∈ gs, f.1 = g.1 → Same f.2 g.2 :=
  ⟨fun | .object hkeys hvalues => ⟨hkeys, hvalues⟩, fun ⟨hkeys, hvalues⟩ => .object hkeys hvalues⟩

theorem distinctKeys_array_iff {items : List Json} : (array items).DistinctKeys ↔ ∀ j ∈ items, j.DistinctKeys :=
  ⟨fun | .array h => h, .array⟩

theorem distinctKeys_object_iff {fields : List (String × Json)} :
    (object fields).DistinctKeys ↔ (fields.map (·.1)).Nodup ∧ ∀ f ∈ fields, f.2.DistinctKeys :=
  ⟨fun | .object hkeys hvalues => ⟨hkeys, hvalues⟩, fun ⟨hkeys, hvalues⟩ => .object hkeys hvalues⟩

/-! ### Fields -/

theorem Ordered.nodup_keys {fields : List (String × Json)} (h : Ordered fields) : (fields.map (·.1)).Nodup :=
  SortedMap.nodup_keys ⟨fields, h⟩

theorem foldl_insertField_perm : ∀ (fields : List (String × Json)) {before : List (String × Json)},
    ((before ++ fields).map (·.1)).Nodup → (fields.foldl insertField before).Perm (before ++ fields)
  | [], before, _ => by rw [List.foldl_nil, List.append_nil]
  | f :: fields, before, h => by
    have hnew : ∀ e ∈ before, compare f.1 e.1 ≠ .eq := fun e he heq => by
      rw [List.map_append, List.nodup_append] at h
      exact h.2.2 _ (List.mem_map_of_mem he) _ (List.mem_map_of_mem (List.mem_cons_self ..))
        (Std.LawfulEqCmp.eq_of_compare heq).symm
    have hinsert : (insertField before f ++ fields).Perm (before ++ f :: fields) :=
      ((SortedMap.insertEntry_perm hnew).append_right fields).trans List.perm_middle.symm
    exact (foldl_insertField_perm fields ((hinsert.map _).nodup_iff.mpr h)).trans hinsert

theorem sortFields_perm {fields : List (String × Json)} (h : (fields.map (·.1)).Nodup) :
    (sortFields fields).Perm fields :=
  foldl_insertField_perm fields h

theorem sortFields_eq_iff_perm {fs gs : List (String × Json)} (hf : (fs.map (·.1)).Nodup) (hg : (gs.map (·.1)).Nodup) :
    sortFields fs = sortFields gs ↔ fs.Perm gs := by
  refine ⟨fun h => (sortFields_perm hf).symm.trans (h ▸ sortFields_perm hg), fun h => ?_⟩
  -- Both lists are in strict key order, so there is but one order for their fields.
  have hperm := (sortFields_perm hf).trans (h.trans (sortFields_perm hg).symm)
  refine hperm.eq_of_pairwise (fun f g _ _ hfg hgf => ?_) (ordered_sortFields fs) (ordered_sortFields gs)
  rw [Std.OrientedCmp.gt_iff_lt.mpr hfg] at hgf
  cases hgf

theorem perm_iff_of_nodup_keys {fs gs : List (String × Json)} (hf : (fs.map (·.1)).Nodup)
    (hg : (gs.map (·.1)).Nodup) :
    fs.Perm gs ↔ (fs.map (·.1)).Perm (gs.map (·.1)) ∧ ∀ f ∈ fs, ∀ g ∈ gs, f.1 = g.1 → f.2 = g.2 := by
  constructor
  · intro h
    refine ⟨h.map _, fun f hfs g hgs hkey => ?_⟩
    rw [List.inj_on_of_nodup_map hg (h.mem_iff.mp hfs) hgs hkey]
  · rintro ⟨hkeys, hvalues⟩
    refine (List.perm_ext_iff_of_nodup (.of_map _ hf) (.of_map _ hg)).mpr fun e => ⟨fun he => ?_, fun he => ?_⟩
    · obtain ⟨g, hgs, hkey⟩ := List.mem_map.mp (hkeys.mem_iff.mp (List.mem_map_of_mem he))
      rwa [Prod.ext hkey.symm (hvalues e he g hgs hkey.symm)]
    · obtain ⟨f, hfs, hkey⟩ := List.mem_map.mp (hkeys.mem_iff.mpr (List.mem_map_of_mem he))
      rwa [← Prod.ext hkey (hvalues f hfs e he hkey)]

/-! ### Values -/

theorem distinctKeys_canonical (j : Json) : j.canonical.DistinctKeys := by
  induction j using induction with
  | null => exact .null
  | bool b => exact .bool b
  | number n => exact .number n
  | string text => exact .string text
  | array items ih =>
    rw [canonical_array, distinctKeys_array_iff]
    exact fun _ hj => by
      obtain ⟨i, hi, rfl⟩ := List.mem_map.mp hj
      exact ih i hi
  | object fields ih =>
    rw [canonical_object, distinctKeys_object_iff]
    refine ⟨(ordered_sortFields _).nodup_keys, fun g hg => ?_⟩
    obtain ⟨f, hf, hgf⟩ := exists_of_mem_sortFields_map hg
    exact hgf ▸ ih f hf

theorem canonical_array_eq_iff {xs ys : List Json} :
    (array xs).canonical = (array ys).canonical ↔ List.Forall₂ (fun x y => x.canonical = y.canonical) xs ys := by
  rw [canonical_array, canonical_array, array.injEq, ← List.forall₂_eq_eq_eq, List.forall₂_map_left_iff,
    List.forall₂_map_right_iff]

theorem canonical_object_eq_iff {fs gs : List (String × Json)} (hf : (fs.map (·.1)).Nodup)
    (hg : (gs.map (·.1)).Nodup) :
    (object fs).canonical = (object gs).canonical ↔ (fs.map (·.1)).Perm (gs.map (·.1)) ∧
      ∀ f ∈ fs, ∀ g ∈ gs, f.1 = g.1 → f.2.canonical = g.2.canonical := by
  have hkeys : ∀ fields : List (String × Json),
      (fields.map fun f => (f.1, f.2.canonical)).map (·.1) = fields.map (·.1) := fun fields => by
    rw [List.map_map]
    rfl
  rw [canonical_object, canonical_object, object.injEq, sortFields_eq_iff_perm (hkeys fs ▸ hf) (hkeys gs ▸ hg),
    perm_iff_of_nodup_keys (hkeys fs ▸ hf) (hkeys gs ▸ hg), hkeys, hkeys]
  simp only [List.forall_mem_map]

/-- The canonical form forgets the order of keys, and nothing else. -/
theorem canonical_eq_iff_same {j k : Json} (hj : j.DistinctKeys) (hk : k.DistinctKeys) :
    j.canonical = k.canonical ↔ Same j k := by
  induction j using induction generalizing k with
  | null => cases k with
    | null => exact iff_of_true rfl .null
    | _ => exact iff_of_false nofun nofun
  | bool b => cases k with
    | bool c => exact ⟨fun | rfl => .bool b, fun | .bool _ => rfl⟩
    | _ => exact iff_of_false nofun nofun
  | number n => cases k with
    | number m => exact ⟨fun | rfl => .number n, fun | .number _ => rfl⟩
    | _ => exact iff_of_false nofun nofun
  | string text => cases k with
    | string more => exact ⟨fun | rfl => .string text, fun | .string _ => rfl⟩
    | _ => exact iff_of_false nofun nofun
  | array xs ih => cases k with
    | array ys =>
      rw [distinctKeys_array_iff] at hj hk
      rw [canonical_array_eq_iff, same_array_iff, List.forall₂_iff_zip, List.forall₂_iff_zip]
      refine and_congr_right fun _ => forall_congr' fun x => forall_congr' fun y => forall_congr' fun hxy => ?_
      obtain ⟨hx, hy⟩ := List.of_mem_zip hxy
      exact ih x hx (hj x hx) (hk y hy)
    | _ => exact iff_of_false nofun nofun
  | object fs ih => cases k with
    | object gs =>
      rw [distinctKeys_object_iff] at hj hk
      rw [canonical_object_eq_iff hj.1 hk.1, same_object_iff]
      refine and_congr_right fun _ => forall₂_congr fun f hf => forall₂_congr fun g hg => ?_
      exact imp_congr_right fun _ => ih f hf (hj.2 f hf) (hk.2 g hg)
    | _ => exact iff_of_false nofun nofun

/-- Exact values without repeated keys have one canonical text if and only if they differ at most in the order of
    keys. -/
theorem canonicalText_eq_iff_same {j k : Json} (hj : j.Exact) (hk : k.Exact) (hj' : j.DistinctKeys)
    (hk' : k.DistinctKeys) : j.canonicalText = k.canonicalText ↔ Same j k := by
  rw [← canonical_eq_iff_same hj' hk']
  refine ⟨fun h => ?_, congrArg compact⟩
  have hcanonical := canonical_eq_of_compact_eq hj.canonical hk.canonical h
  rwa [canonical_canonical, canonical_canonical] at hcanonical

end StageLineage.Json
