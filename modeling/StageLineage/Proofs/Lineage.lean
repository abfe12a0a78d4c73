import StageLineage.Lineage
import StageLineage.Proofs.Nesting

/-! The lineage that a scan finds. It tells of every stage where it stands and whether its envelope is
    there: a stage stands below the parents that take part, and that depends on nothing but the optional
    stages above it. Two lineages therefore agree on a stage unless one of these appeared or vanished. -/

namespace StageLineage
namespace Lineage
variable {d : Definition} {t : Topology} {root : Path} {f g : Path → Bool} {ids : List String} {l l' : Lineage}

/-- The directory of a stage; the session root for an unknown one. -/
def dir (l : Lineage) (id : String) : LineagePath := ((l.path? id).map (·.dir)).getD .root

def file (l : Lineage) (id : String) : Path := l.root.join (StagePath.mk id (l.dir id)).artifactPath

/-- The parents that a stage stands below: those that are not optional or have an envelope, or all of
    them if there are none of these. -/
def effective (d : Definition) (l : Lineage) (id : String) : List String :=
  let parents := Stage.distinct (d.parents id)
  let taking := parents.filter fun p => !d.isOptional p || l.isPresent p
  if taking.isEmpty then parents else taking

/-- The declared parents that are not optional or have an envelope. -/
def unskipped (d : Definition) (l : Lineage) (id : String) : List String :=
  (Stage.distinct (d.parents id)).filter fun p => !d.isOptional p || l.isPresent p

theorem effective_eq (d : Definition) (l : Lineage) (id : String) :
    l.effective d id = if (l.unskipped d id).isEmpty then Stage.distinct (d.parents id) else l.unskipped d id := rfl

/-- The directory of a stage below those of its parents. -/
def place (d : Definition) (l : Lineage) (id : String) : LineagePath :=
  (Topology.above ((l.effective d id).map fun p => (p, l.dir p))).child (.stage id)

/-- A lineage tells of the stages `ids` where they stand, each below those of its parents that take part. -/
structure Laid (d : Definition) (ids : List String) (l : Lineage) : Prop where
  ids_eq : l.stages.map (·.path.stage) = ids
  dir_eq : ∀ id ∈ ids, l.dir id = l.place d id

/-- A lineage tells of the stages `ids` where they stand and which of their envelopes exist. -/
structure Realizes (d : Definition) (root : Path) (f : Path → Bool) (ids : List String) (l : Lineage) : Prop where
  root_eq : l.root = root
  ids_eq : l.stages.map (·.path.stage) = ids
  dir_eq : ∀ id ∈ ids, l.dir id = l.place d id
  present_eq : ∀ id ∈ ids, l.isPresent id = f (l.file id)

/-! ### Lookup -/

theorem exists_find?_iff {stages : List RealizedStage} {id : String} :
    (∃ r, find? stages id = some r) ↔ id ∈ stages.map (·.path.stage) := by
  rw [← Option.isSome_iff_exists, find?, List.find?_isSome]
  simp

theorem stage_of_find? {stages : List RealizedStage} {id : String} {r : RealizedStage} (h : find? stages id = some r) :
    r ∈ stages ∧ r.path.stage = id :=
  ⟨List.mem_of_find?_eq_some h, by simpa using List.find?_some h⟩

theorem find?_of_mem {stages : List RealizedStage} (hnodup : (stages.map (·.path.stage)).Nodup) {r : RealizedStage}
    (hr : r ∈ stages) : find? stages r.path.stage = some r := by
  obtain ⟨x, hx⟩ := exists_find?_iff.mpr (List.mem_map_of_mem hr)
  obtain ⟨hmem, hstage⟩ := stage_of_find? hx
  rw [hx, List.inj_on_of_nodup_map hnodup hmem hr hstage]

theorem find?_eq_some {id : String} (hid : id ∈ l.stages.map (·.path.stage)) :
    find? l.stages id = some ⟨⟨id, l.dir id⟩, l.isPresent id⟩ := by
  obtain ⟨r, hr⟩ := exists_find?_iff.mpr hid
  obtain ⟨⟨stage, dir⟩, present⟩ := r
  obtain rfl := (stage_of_find? hr).2
  simp only [Lineage.dir, path?, isPresent, hr, Option.map_some, Option.getD_some, Option.any_some]

theorem path?_eq_some {id : String} (hid : id ∈ l.stages.map (·.path.stage)) : l.path? id = some ⟨id, l.dir id⟩ := by
  rw [path?, find?_eq_some hid]
  rfl

theorem find?_append {stages : List RealizedStage} {r : RealizedStage} {id : String}
    (hid : id ∈ stages.map (·.path.stage)) : find? (stages ++ [r]) id = find? stages id := by
  obtain ⟨x, hx⟩ := exists_find?_iff.mpr hid
  rw [find?, List.find?_append, ← find?, hx]
  rfl

theorem find?_append_self {stages : List RealizedStage} {r : RealizedStage}
    (hid : r.path.stage ∉ stages.map (·.path.stage)) : find? (stages ++ [r]) r.path.stage = some r := by
  have hnone : find? stages r.path.stage = none := by
    rw [← Option.not_isSome_iff_eq_none, Option.isSome_iff_exists, exists_find?_iff]
    exact hid
  rw [find?, List.find?_append, ← find?, hnone]
  simp

/-! ### Dependence on the stages above -/

theorem unskipped_congr {id : String}
    (h : ∀ p ∈ d.parents id, d.isOptional p = true → l.isPresent p = l'.isPresent p) :
    l.unskipped d id = l'.unskipped d id := by
  refine List.filter_congr fun p hp => ?_
  cases hoptional : d.isOptional p with
  | false => rfl
  | true => simp [h p (Stage.mem_distinct_iff.mp hp) hoptional]

/-- The parents that take part depend on the presence of the optional ones. -/
theorem effective_congr {id : String}
    (h : ∀ p ∈ d.parents id, d.isOptional p = true → l.isPresent p = l'.isPresent p) :
    l.effective d id = l'.effective d id := by
  rw [effective_eq, effective_eq, unskipped_congr h]

/-- The parents that take part stand in the order of the declaration. -/
theorem effective_sublist (l : Lineage) (id : String) :
    (l.effective d id).Sublist (Stage.distinct (d.parents id)) := by
  rw [effective_eq]
  split
  · exact List.Sublist.refl _
  · exact List.filter_sublist

theorem mem_parents_of_mem_effective {id p : String} (h : p ∈ l.effective d id) : p ∈ d.parents id :=
  Stage.mem_distinct_iff.mp ((effective_sublist l id).subset h)

theorem effective_nodup (l : Lineage) (id : String) : (l.effective d id).Nodup :=
  (Stage.nodup_distinct _).sublist (effective_sublist l id)

theorem mem_effective_of_mandatory {id p : String} (hp : p ∈ d.parents id) (hmandatory : d.isOptional p = false) :
    p ∈ l.effective d id := by
  have hunskipped : p ∈ l.unskipped d id :=
    List.mem_filter.mpr ⟨Stage.mem_distinct_iff.mpr hp, by simp [hmandatory]⟩
  rw [effective_eq, if_neg (by simpa using List.ne_nil_of_mem hunskipped)]
  exact hunskipped

/-- Some parent of a child takes part. -/
theorem effective_ne_nil {id : String} (l : Lineage) (h : d.parents id ≠ []) : l.effective d id ≠ [] := by
  obtain ⟨p, hp⟩ := List.exists_mem_of_ne_nil _ h
  rw [effective_eq]
  split
  · exact List.ne_nil_of_mem (Stage.mem_distinct_iff.mpr hp)
  · next hne => simpa using hne

theorem nodup_map_effective (l : Lineage) (id : String) :
    (((l.effective d id).map fun p => (p, l.dir p)).map (·.1)).Nodup := by
  rw [List.map_map]
  simpa [Function.comp_def] using effective_nodup l id

theorem place_congr {id : String} (h : ∀ p ∈ d.parents id, d.isOptional p = true → l.isPresent p = l'.isPresent p)
    (hdir : ∀ p ∈ d.parents id, l.dir p = l'.dir p) : l.place d id = l'.place d id := by
  rw [place, place, effective_congr h]
  congr 2
  exact List.map_congr_left fun p hp => by rw [hdir p (mem_parents_of_mem_effective hp)]

/-! ### The scan -/

/-- The parents that a scan lets take part are the effective ones. -/
theorem takingPart_eq (wf : d.WellFormed) (ht : Topology.Describes d d.order t.stages) {id : String}
    (hparents : ∀ p ∈ d.parents id, p ∈ l.stages.map (·.path.stage)) :
    (takingPart t l.stages (Stage.distinct (d.parents id))).map (fun p => (p.path.stage, p.path.dir)) =
      (l.effective d id).map fun p => (p, l.dir p) := by
  let realized (p : String) : RealizedStage := ⟨⟨p, l.dir p⟩, l.isPresent p⟩
  have hall : (Stage.distinct (d.parents id)).filterMap (find? l.stages) =
      (Stage.distinct (d.parents id)).map realized := by
    rw [← List.filterMap_eq_map]
    refine List.filterMap_congr fun p hp => ?_
    exact find?_eq_some (hparents p (Stage.mem_distinct_iff.mp hp))
  simp only [takingPart, hall, List.filter_map, List.isEmpty_map]
  have hfilter : (fun p : RealizedStage => !t.isOptional p.path.stage || p.present) ∘ realized =
      fun p => !d.isOptional p || l.isPresent p := by
    funext p
    simp only [Function.comp_apply, realized, ht.isOptional_eq wf]
  rw [hfilter, effective]
  split <;> rw [List.map_map] <;> rfl

theorem realize_eq_ok (wf : d.WellFormed) (ht : Topology.Describes d d.order t.stages) {layout : StageLayout}
    (hl : layout.IsOf d) (hparents : ∀ p ∈ d.parents layout.path.stage, p ∈ l.stages.map (·.path.stage)) :
    realize t l.stages layout = .ok ⟨layout.path.stage, l.place d layout.path.stage⟩ := by
  have htaking := takingPart_eq wf ht hparents
  have hplace := Topology.place_eq_ok layout.path.stage (.stage layout.path.stage)
    (nodup_map_effective l layout.path.stage) fun p hp => by
      obtain ⟨q, hq, rfl⟩ := List.mem_map.mp hp
      exact wf.validate_id q (wf.mem_of_parents (mem_parents_of_mem_effective hq))
  simp [realize, hl.segment_eq, hl.parents_eq, htaking, hplace, Lineage.place, bind, Except.bind, pure, Except.pure]

section Append
variable {r : RealizedStage} {id : String}

theorem dir_append (hid : id ∈ l.stages.map (·.path.stage)) : dir ⟨l.root, l.stages ++ [r]⟩ id = l.dir id := by
  simp only [Lineage.dir, path?, find?_append hid]

theorem isPresent_append (hid : id ∈ l.stages.map (·.path.stage)) :
    isPresent ⟨l.root, l.stages ++ [r]⟩ id = l.isPresent id := by
  simp only [isPresent, find?_append hid]

theorem dir_append_self (hr : r.path.stage ∉ l.stages.map (·.path.stage)) :
    dir ⟨l.root, l.stages ++ [r]⟩ r.path.stage = r.path.dir := by
  simp only [Lineage.dir, path?, find?_append_self hr, Option.map_some, Option.getD_some]

theorem isPresent_append_self (hr : r.path.stage ∉ l.stages.map (·.path.stage)) :
    isPresent ⟨l.root, l.stages ++ [r]⟩ r.path.stage = r.present := by
  simp only [isPresent, find?_append_self hr, Option.any_some]

end Append

/-- A lineage with one more stage, which stands below stages that it tells of already. -/
theorem Laid.append (h : Laid d ids l) {id : String} (hid : id ∉ ids) (hids : ∀ x ∈ ids, ∀ p ∈ d.parents x, p ∈ ids)
    (hparents : ∀ p ∈ d.parents id, p ∈ ids) (present : Bool) :
    Laid d (ids ++ [id]) ⟨l.root, l.stages ++ [⟨⟨id, l.place d id⟩, present⟩]⟩ := by
  obtain ⟨rfl, hdir⟩ := h
  have hplace : ∀ x, (∀ p ∈ d.parents x, p ∈ l.stages.map (·.path.stage)) →
      place d ⟨l.root, l.stages ++ [⟨⟨id, l.place d id⟩, present⟩]⟩ x = l.place d x := fun x hx =>
    place_congr (fun p hp _ => isPresent_append (hx p hp)) fun p hp => dir_append (hx p hp)
  refine ⟨by simp, fun x hx => ?_⟩
  rcases List.mem_append.mp hx with hx | hx
  · rw [dir_append hx, hdir x hx, hplace x (hids x hx)]
  · obtain rfl := List.mem_singleton.mp hx
    rw [hplace x hparents, dir_append_self (r := ⟨⟨x, l.place d x⟩, present⟩) hid]

theorem Realizes.laid (h : Realizes d root f ids l) : Laid d ids l := ⟨h.ids_eq, h.dir_eq⟩

theorem Realizes.append (h : Realizes d root f ids l) {id : String} (hid : id ∉ ids)
    (hids : ∀ x ∈ ids, ∀ p ∈ d.parents x, p ∈ ids) (hparents : ∀ p ∈ d.parents id, p ∈ ids) :
    Realizes d root f (ids ++ [id])
      ⟨root, l.stages ++ [⟨⟨id, l.place d id⟩, f (root.join (StagePath.mk id (l.place d id)).artifactPath)⟩]⟩ := by
  have hlaid := h.laid.append hid hids hparents (f (root.join (StagePath.mk id (l.place d id)).artifactPath))
  obtain ⟨rfl, rfl, -, hpresent⟩ := h
  refine ⟨rfl, hlaid.ids_eq, hlaid.dir_eq, fun x hx => ?_⟩
  rcases List.mem_append.mp hx with hx | hx
  · rw [isPresent_append hx, hpresent x hx, file, file, dir_append hx]
  · obtain rfl := List.mem_singleton.mp hx
    rw [file, dir_append_self (r := ⟨⟨x, l.place d x⟩, _⟩) hid, isPresent_append_self (r := ⟨⟨x, l.place d x⟩, _⟩) hid]

/-- A scan finds the lineage of the files that it asks for, and changes nothing. -/
theorem scan_eq_ok (wf : d.WellFormed) (ht : Topology.Describes d d.order t.stages) {σ : Type}
    {ask : Path → StateM σ Bool} {s : σ} (hask : ∀ p, ask p s = (f p, s)) (root : Path) :
    ∃ l, scan ask t root s = (.ok l, s) ∧ Realizes d root f d.order l := by
  -- Along the order: the stages that were passed are realized, so the next one finds its parents.
  have along : ∀ (after : List StageLayout) (passed : List String) (done : List RealizedStage),
      d.order = passed ++ after.map (·.path.stage) → (∀ x ∈ after, x.IsOf d) →
      Realizes d root f passed ⟨root, done⟩ →
      ∃ stages, scanFrom ask t root done after s = (.ok stages, s) ∧ Realizes d root f d.order ⟨root, stages⟩ := by
    intro after
    induction after with
    | nil =>
      intro passed done horder _ h
      rw [List.map_nil, List.append_nil] at horder
      exact ⟨done, rfl, horder ▸ h⟩
    | cons x after ih =>
      intro passed done horder hof h
      have hfresh : x.path.stage ∉ passed := wf.notMem_before horder
      have hbehind := wf.parents_mem_before horder
      have hparents := wf.parents_before passed x.path.stage _ horder
      have hrealize := realize_eq_ok wf ht (l := ⟨root, done⟩) (hof x (List.mem_cons_self ..)) fun p hp =>
        h.ids_eq ▸ hparents p hp
      obtain ⟨stages, hstages, hdone⟩ := ih (passed ++ [x.path.stage]) _ (by simp [horder])
        (fun y hy => hof y (List.mem_cons_of_mem _ hy)) (h.append hfresh hbehind hparents)
      refine ⟨stages, ?_, hdone⟩
      simp only [scanFrom, hrealize, bind, StateT.bind, hask]
      exact hstages
  obtain ⟨stages, hstages, hdone⟩ := along t.stages [] [] (by simp [ht.ids_eq]) ht.isOf
    ⟨rfl, rfl, by simp, by simp⟩
  refine ⟨⟨root, stages⟩, ?_, hdone⟩
  simp only [scan, bind, StateT.bind, hstages]
  rfl

/-- Asks a store whether a file exists, which does not change the store. -/
def asking {σ : Type} (has : σ → Path → Bool) (p : Path) : StateM σ Bool := fun s => (has s p, s)

/-- Whatever store is asked, a scan finds the lineage of the files that the store has. -/
theorem exists_scan (wf : d.WellFormed) (ht : Topology.Describes d d.order t.stages) {σ : Type}
    (has : σ → Path → Bool) (root : Path) (s : σ) :
    ∃ l, (scan (asking has) t root).run s = (.ok l, s) ∧ Realizes d root (has s) d.order l :=
  have hask : ∀ p, asking has p s = (has s p, s) := fun _ => rfl
  scan_eq_ok wf ht hask root

theorem realizes_of_scan (wf : d.WellFormed) (ht : Topology.resolve d = .ok t) {σ : Type} {has : σ → Path → Bool}
    {root : Path} {s s' : σ} (h : (scan (asking has) t root).run s = (.ok l, s')) :
    s' = s ∧ Realizes d root (has s) d.order l := by
  obtain ⟨t', ht', hdescribes⟩ := Topology.resolve_eq_ok wf
  obtain rfl := Except.ok.inj (ht'.symm.trans ht)
  obtain ⟨l', hscan, hl⟩ := exists_scan wf hdescribes has root s
  obtain ⟨hok, rfl⟩ := Prod.mk.inj (h.symm.trans hscan)
  exact ⟨rfl, Except.ok.inj hok ▸ hl⟩

/-- Stages nest below the parents that take part. -/
theorem nests_of_dir_eq (h : ∀ id ∈ d.ids, l.dir id = l.place d id) : Nests d (l.effective d) l.dir where
  dir_eq := h
  mem_parents _ _ := mem_parents_of_mem_effective
  nodup := effective_nodup l
  ne_nil _ := l.effective_ne_nil

/-- Whether a lineage is the one of a session whose envelope files are those of some stage paths. -/
def fits (d : Definition) (written : List StagePath) (l : Lineage) : Bool :=
  l.stages.map (·.path.stage) == d.order && d.order.all fun id =>
    l.dir id == l.place d id && l.isPresent id == written.any fun p => p.stage == id && p.dir.names == (l.dir id).names

theorem realizes_of_fits (wf : d.WellFormed) {written : List StagePath} (hfits : l.fits d written = true)
    (hf : ∀ id ∈ d.ids, ∀ dir : LineagePath, dir.Named →
      f (l.root.join (StagePath.mk id dir).artifactPath) =
        written.any fun p => p.stage == id && p.dir.names == dir.names) :
    Realizes d l.root f d.order l := by
  simp only [fits, Bool.and_eq_true, beq_iff_eq, List.all_eq_true] at hfits
  obtain ⟨hids, hstages⟩ := hfits
  have hdir : ∀ id ∈ d.ids, l.dir id = l.place d id := fun id hid => (hstages id (wf.mem_order_iff.mpr hid)).1
  refine ⟨rfl, hids, fun id hid => (hstages id hid).1, fun id hid => ?_⟩
  have hid' := wf.mem_order_iff.mp hid
  rw [(hstages id hid).2, file, hf id hid' _ ((nests_of_dir_eq hdir).named wf id hid')]

/-! ### Two lineages -/

/-- A lineage is no more than where its stages stand and which of them are present. -/
theorem Laid.stages_eq (wf : d.WellFormed) (h : Laid d d.order l) :
    l.stages = d.order.map fun id => ⟨⟨id, l.dir id⟩, l.isPresent id⟩ := by
  have hnodup := wf.order_nodup
  rw [← h.ids_eq] at hnodup ⊢
  rw [List.map_map]
  refine (List.map_id _).symm.trans (List.map_congr_left fun r hr => ?_)
  have hfound := find?_eq_some (List.mem_map_of_mem hr)
  rw [find?_of_mem hnodup hr] at hfound
  exact Option.some.inj hfound

theorem Laid.paths_eq (wf : d.WellFormed) (h : Laid d d.order l) : l.paths = d.order.map fun id => ⟨id, l.dir id⟩ := by
  rw [paths, h.stages_eq wf, List.map_map]
  rfl

/-- Two lineages place a stage alike unless an optional stage above it, which they place alike, is
    present in only one of them. -/
theorem Laid.dir_eq_or_exists (wf : d.WellFormed) (h : Laid d d.order l) (h' : Laid d d.order l') :
    ∀ id ∈ d.ids, l.dir id = l'.dir id ∨
      ∃ o, d.Above o id ∧ d.isOptional o = true ∧ l.dir o = l'.dir o ∧ l.isPresent o ≠ l'.isPresent o := by
  refine wf.parents_induction fun id hid ih => ?_
  by_cases hmoved : ∃ p ∈ d.parents id, l.dir p ≠ l'.dir p
  · obtain ⟨p, hp, hne⟩ := hmoved
    obtain ⟨o, habove, ho⟩ := (ih p hp).resolve_left hne
    exact Or.inr ⟨o, habove.tail hp, ho⟩
  have hdir : ∀ p ∈ d.parents id, l.dir p = l'.dir p := fun p hp => by_contra fun hne => hmoved ⟨p, hp, hne⟩
  by_cases hchanged : ∃ p ∈ d.parents id, d.isOptional p = true ∧ l.isPresent p ≠ l'.isPresent p
  · obtain ⟨p, hp, hoptional, hne⟩ := hchanged
    exact Or.inr ⟨p, .single hp, hoptional, hdir p hp, hne⟩
  · have hmem := wf.mem_order_iff.mpr hid
    rw [h.dir_eq id hmem, h'.dir_eq id hmem]
    refine Or.inl (place_congr (fun p hp hoptional => ?_) hdir)
    exact by_contra fun hne => hchanged ⟨p, hp, hoptional, hne⟩

variable (wf : d.WellFormed) (h : Realizes d root f d.order l) (h' : Realizes d root g d.order l')
include wf h

theorem Realizes.mem_stages {id : String} (hid : id ∈ d.ids) : id ∈ l.stages.map (·.path.stage) :=
  h.ids_eq ▸ wf.mem_order_iff.mpr hid

theorem Realizes.path?_eq {id : String} (hid : id ∈ d.ids) : l.path? id = some ⟨id, l.dir id⟩ :=
  path?_eq_some (h.mem_stages wf hid)

theorem Realizes.stages_eq : l.stages = d.order.map fun id => ⟨⟨id, l.dir id⟩, l.isPresent id⟩ := h.laid.stages_eq wf

theorem Realizes.presentIds_eq : l.presentIds = d.order.filter l.isPresent := by
  rw [presentIds, h.stages_eq wf, List.filter_map, List.map_map]
  simp [Function.comp_def]

theorem Realizes.nests : Nests d (l.effective d) l.dir :=
  nests_of_dir_eq fun id hid => h.dir_eq id (wf.mem_order_iff.mpr hid)

theorem Realizes.named : ∀ id ∈ d.ids, (l.dir id).Named := (h.nests wf).named wf

include h' in
theorem Realizes.dir_eq_or_exists : ∀ id ∈ d.ids, l.dir id = l'.dir id ∨
    ∃ o, d.Above o id ∧ d.isOptional o = true ∧ l.dir o = l'.dir o ∧ l.isPresent o ≠ l'.isPresent o :=
  h.laid.dir_eq_or_exists wf h'.laid

/-- The files of a session determine where its stages stand and which of them are present. -/
theorem Realizes.unique (hsame : Realizes d root f d.order l') :
    ∀ id ∈ d.ids, l.dir id = l'.dir id ∧ l.isPresent id = l'.isPresent id := by
  have hpresent : ∀ id ∈ d.ids, l.dir id = l'.dir id → l.isPresent id = l'.isPresent id := fun id hid hdir => by
    have hmem := wf.mem_order_iff.mpr hid
    rw [h.present_eq id hmem, hsame.present_eq id hmem, file, file, hdir, h.root_eq, hsame.root_eq]
  intro id hid
  rcases h.dir_eq_or_exists wf hsame id hid with hdir | ⟨o, habove, -, hdir, hchanged⟩
  · exact ⟨hdir, hpresent id hid hdir⟩
  · exact absurd (hpresent o (wf.mem_of_above habove) hdir) hchanged

include h' in
theorem Realizes.eq_of_forall (hsame : ∀ id ∈ d.ids, l.dir id = l'.dir id ∧ l.isPresent id = l'.isPresent id) :
    l = l' := by
  have hstages : l.stages = l'.stages := by
    rw [h.stages_eq wf, h'.stages_eq wf]
    refine List.map_congr_left fun id hid => ?_
    obtain ⟨hdir, hpresent⟩ := hsame id (wf.mem_order_iff.mp hid)
    rw [hdir, hpresent]
  obtain ⟨root, stages⟩ := l
  obtain ⟨root', stages'⟩ := l'
  exact congrArg₂ Lineage.mk (h.root_eq.trans h'.root_eq.symm) hstages

theorem Realizes.eq (hsame : Realizes d root f d.order l') : l = l' :=
  h.eq_of_forall wf hsame (h.unique wf hsame)

end Lineage
end StageLineage
