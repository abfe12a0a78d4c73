import Mathlib.Data.Set.Lattice
import StageLineage.FileSystem.Tree
import StageLineage.Proofs.Lineage.Influence
import StageLineage.Proofs.Session.History
import StageLineage.Proofs.SortedMap.Pairs
import StageLineage.Session.Stale
import StageLineage.Store.Disk

/-! The stages that the stale scan reports, whatever the store. Whether a stage is stale depends on its own envelope
    and on its parents, so the stale stages are the least set that holds each stage with something amiss, given
    which of its parents it holds. The scan comes to the parents first, so one pass finds this set; and the reason
    that it gives for a stage is the first thing that is amiss. -/

namespace StageLineage

/-! ### The stale set -/

section StaleSet
variable (d : Definition) (stored : String → Option Envelope)

/-- A parent is not the one that an envelope was chained to: it is one of the stale stages `R`, or it has another
    fingerprint than the one recorded, or one of these two is missing. -/
def Amiss (R : Set String) (e : Envelope) (p : String) : Prop :=
  p ∈ R ∨ e.parents.get? p ≠ (stored p).map (·.fingerprint)

/-- The stage is stale, given that the stages `R` are: its envelope fails its check or a declared parent is amiss. -/
def StaleGiven (R : Set String) (id : String) : Prop :=
  ∃ e, stored id = some e ∧ (e.verify = false ∨ ∃ p ∈ d.parents id, Amiss stored R e p)

/-- The first of the declared parents that is amiss. -/
def FirstAmiss (R : Set String) (e : Envelope) (id p : String) : Prop :=
  ∃ before after, d.parents id = before ++ p :: after ∧ (∀ q ∈ before, ¬ Amiss stored R e q) ∧ Amiss stored R e p

/-- The reason says what is wrong with a stage, given that the stages `R` are stale. -/
def Explains (R : Set String) (r : StaleStage) : Prop :=
  ∃ e, stored r.stage = some e ∧
    match r.reason with
    | .tampered => e.verify = false
    | .parentStale p => e.verify = true ∧ FirstAmiss d stored R e r.stage p ∧ p ∈ R
    | .parentChanged p => e.verify = true ∧ FirstAmiss d stored R e r.stage p ∧ p ∉ R

/-- The set holds every stage that is stale given the stages in it. -/
def HoldsStale (R : Set String) : Prop := ∀ id, StaleGiven d stored R id → id ∈ R

def staleSet : Set String := ⋂₀ {R | HoldsStale d stored R}

/-- A list of stale stages with reasons: each of them once and in topological order, all stages of the least
    set that holds what is stale given this set, and of each the first reason. -/
structure StaleReport (present : String → Bool) (stale : List StaleStage) : Prop where
  nodup : (stale.map (·.stage)).Nodup
  sublist : (stale.map (·.stage)).Sublist (d.order.filter present)
  isLeast : IsLeast {R | HoldsStale d stored R} {id | id ∈ stale.map (·.stage)}
  explains : ∀ r ∈ stale, Explains d stored {id | id ∈ stale.map (·.stage)} r

end StaleSet

section StaleSet
variable {d : Definition} {stored : String → Option Envelope} {R : Set String} {e : Envelope} {id p : String}

theorem StaleGiven.mono {R' : Set String} (h : StaleGiven d stored R id) (hsub : R ⊆ R') : StaleGiven d stored R' id := by
  obtain ⟨e, he, hverify | ⟨p, hp, hstale | hchanged⟩⟩ := h
  · exact ⟨e, he, Or.inl hverify⟩
  · exact ⟨e, he, Or.inr ⟨p, hp, Or.inl (hsub hstale)⟩⟩
  · exact ⟨e, he, Or.inr ⟨p, hp, Or.inr hchanged⟩⟩

theorem isLeast_staleSet : IsLeast {R | HoldsStale d stored R} (staleSet d stored) :=
  ⟨fun id h => Set.mem_sInter.mpr fun _ hR => hR id (h.mono (Set.sInter_subset_of_mem hR)),
    fun _ hR => Set.sInter_subset_of_mem hR⟩

theorem mem_staleSet_iff : id ∈ staleSet d stored ↔ StaleGiven d stored (staleSet d stored) id := by
  have hclosed : HoldsStale d stored (staleSet d stored) := isLeast_staleSet.1
  -- What is stale given the least set holds what is stale given itself, so the least set is no larger.
  have hstep : HoldsStale d stored {id | StaleGiven d stored (staleSet d stored) id} := fun id h => h.mono hclosed
  exact ⟨fun h => isLeast_staleSet.2 hstep h, hclosed id⟩

theorem exists_stored_of_mem_staleSet (h : id ∈ staleSet d stored) : ∃ e, stored id = some e := by
  obtain ⟨e, he, -⟩ := mem_staleSet_iff.mp h
  exact ⟨e, he⟩

theorem staleGiven_iff (he : stored id = some e) :
    StaleGiven d stored R id ↔ e.verify = false ∨ ∃ p ∈ d.parents id, Amiss stored R e p := by
  constructor
  · rintro ⟨e', he', h⟩
    obtain rfl := Option.some.inj (he.symm.trans he')
    exact h
  · exact fun h => ⟨e, he, h⟩

theorem StaleReport.present_of_mem {present : String → Bool} {stale : List StaleStage}
    (h : StaleReport d stored present stale) (hid : id ∈ stale.map (·.stage)) : present id = true :=
  (List.mem_filter.mp (h.sublist.subset hid)).2

theorem StaleReport.eq_nil_iff {present : String → Bool} {stale : List StaleStage}
    (h : StaleReport d stored present stale) : stale = [] ↔ ∀ id, ¬ StaleGiven d stored ∅ id := by
  constructor
  · rintro rfl id hid
    have hclosed := h.isLeast.1 id
    simp only [List.map_nil, List.not_mem_nil, Set.ofPred_false] at hclosed
    exact hclosed hid
  · intro hnone
    have hempty := h.isLeast.2 fun id hid => absurd hid (hnone id)
    exact List.map_eq_nil_iff.mp (List.eq_nil_iff_forall_not_mem.mpr fun id hid => hempty hid)

end StaleSet

/-! ### One pass -/

/-- That a parent is declared twice makes no difference to what is found first. -/
theorem Stage.findSome?_distinct {α : Type} (f : String → Option α) (l : List String) :
    (distinct l).findSome? f = l.findSome? f := by
  induction l with
  | nil => rfl
  | cons x l ih =>
    rw [distinct, List.findSome?_cons, List.findSome?_cons, ← ih]
    cases hx : f x with
    | some a => rfl
    | none =>
      have hskip : (fun y => if (y != x) = true then f y else none) = f := by
        funext y
        by_cases hy : y = x <;> simp [hy, hx]
      simp only [← List.head?_filterMap, List.filterMap_filter, hskip]

namespace StaleScan
variable {d : Definition} {stored : String → Option Envelope} {R : Set String} {scan : StaleScan} {e : Envelope}
  {passed : List String} {id p : String} {reason : StaleReason}

theorem fingerprint?_add (stage : String) (parents : List String) (e : Envelope) (p : String) :
    (scan.add stage parents e).fingerprint? p = if p = stage then some e.fingerprint else scan.fingerprint? p := by
  by_cases hp : p = stage
  · simp [fingerprint?, add, hp]
  · simp [fingerprint?, add, hp, Ne.symm hp]

theorem stale_add (scan : StaleScan) (stage : String) (parents : List String) (e : Envelope) :
    (scan.add stage parents e).stale = scan.stale ++ ((scan.reason? parents e).map (StaleStage.mk stage)).toList := rfl

theorem mem_stale_add (scan : StaleScan) (stage : String) (parents : List String) (e : Envelope) (q : String) :
    q ∈ (scan.add stage parents e).stale.map (·.stage) ↔
      q ∈ scan.stale.map (·.stage) ∨ scan.reason? parents e ≠ none ∧ q = stage := by
  rw [stale_add, List.map_append, List.mem_append]
  cases scan.reason? parents e <;> simp

/-- A scan knows whether a stage is one of the stale ones, and its stored fingerprint. -/
structure Knows (stored : String → Option Envelope) (R : Set String) (scan : StaleScan) (p : String) : Prop where
  any_iff : scan.stale.any (·.stage == p) = true ↔ p ∈ R
  fingerprint?_eq : scan.fingerprint? p = (stored p).map (·.fingerprint)

theorem Knows.parentReason?_eq_none_iff (h : scan.Knows stored R p) :
    scan.parentReason? e p = none ↔ ¬ Amiss stored R e p := by
  rw [parentReason?, Amiss, ← h.any_iff, ← h.fingerprint?_eq]
  cases scan.stale.any (·.stage == p) <;> simp

theorem Knows.cases_parentReason? (h : scan.Knows stored R p) (hreason : scan.parentReason? e p = some reason) :
    p ∈ R ∧ reason = .parentStale p ∨ p ∉ R ∧ reason = .parentChanged p := by
  rw [parentReason?] at hreason
  rw [← h.any_iff]
  split at hreason
  · next hstale => exact Or.inl ⟨hstale, (Option.some.inj hreason).symm⟩
  · next hstale =>
    split at hreason
    · exact Or.inr ⟨hstale, (Option.some.inj hreason).symm⟩
    · cases hreason

section Reason
variable (he : stored id = some e) (hknows : ∀ p ∈ d.parents id, scan.Knows stored R p)
include he hknows

theorem reason?_eq_none_iff :
    scan.reason? (Stage.distinct (d.parents id)) e = none ↔ ¬ StaleGiven d stored R id := by
  rw [reason?, staleGiven_iff he]
  cases e.verify with
  | false => simp
  | true =>
    simp only [if_true, Bool.true_eq_false, false_or, List.findSome?_eq_none_iff, Stage.mem_distinct_iff, not_exists,
      not_and]
    exact forall₂_congr fun p hp => (hknows p hp).parentReason?_eq_none_iff

theorem explains_of_reason? (hreason : scan.reason? (Stage.distinct (d.parents id)) e = some reason) :
    Explains d stored R ⟨id, reason⟩ := by
  rw [reason?, Stage.findSome?_distinct] at hreason
  split at hreason
  · next hverify =>
    obtain ⟨before, p, after, hsplit, hreason, hbefore⟩ := List.findSome?_eq_some_iff.mp hreason
    have hp := hknows p (by simp [hsplit])
    have hamiss : Amiss stored R e p := by
      by_contra hnot
      rw [hp.parentReason?_eq_none_iff.mpr hnot] at hreason
      cases hreason
    have hfirst : FirstAmiss d stored R e id p := ⟨before, after, hsplit, fun q hq =>
      (hknows q (by simp [hsplit, hq])).parentReason?_eq_none_iff.mp (hbefore q hq), hamiss⟩
    rcases hp.cases_parentReason? hreason with ⟨hstale, rfl⟩ | ⟨hstale, rfl⟩
    · exact ⟨e, he, hverify, hfirst, hstale⟩
    · exact ⟨e, he, hverify, hfirst, hstale⟩
  · next hverify =>
    obtain rfl := Option.some.inj hreason
    exact ⟨e, he, Bool.eq_false_of_not_eq_true hverify⟩

end Reason

/-- What a scan knows of the stages that it has passed, and which of them it has reported. -/
structure Scanned (scan : StaleScan) (d : Definition) (stored : String → Option Envelope) (passed : List String) :
    Prop where
  fingerprint?_eq : ∀ p, scan.fingerprint? p = if p ∈ passed then (stored p).map (·.fingerprint) else none
  sublist : (scan.stale.map (·.stage)).Sublist passed
  mem_iff : ∀ q, q ∈ scan.stale.map (·.stage) ↔ q ∈ passed ∧ q ∈ staleSet d stored
  explains : ∀ r ∈ scan.stale, Explains d stored (staleSet d stored) r

theorem scanned_nil (d : Definition) (stored : String → Option Envelope) : Scanned ⟨[], []⟩ d stored [] where
  fingerprint?_eq p := by simp [fingerprint?]
  sublist := List.Sublist.refl _
  mem_iff q := by simp
  explains r hr := nomatch hr

theorem any_iff : scan.stale.any (·.stage == p) = true ↔ p ∈ scan.stale.map (·.stage) := by
  simp

theorem Scanned.knows (h : scan.Scanned d stored passed) (hp : p ∈ passed ∨ stored p = none) :
    scan.Knows stored (staleSet d stored) p := by
  rcases hp with hpassed | habsent
  · exact ⟨by rw [any_iff, h.mem_iff, and_iff_right hpassed], by rw [h.fingerprint?_eq, if_pos hpassed]⟩
  · have hnot : p ∉ staleSet d stored := fun hmem => by
      obtain ⟨e, he⟩ := exists_stored_of_mem_staleSet hmem
      simp [he] at habsent
    exact ⟨by simp only [any_iff, h.mem_iff, hnot, and_false], by simp [h.fingerprint?_eq, habsent]⟩

/-- A stage whose present parents were passed is reported exactly if it is stale. -/
theorem Scanned.add (h : scan.Scanned d stored passed) (he : stored id = some e)
    (hparents : ∀ p ∈ d.parents id, p ∈ passed ∨ stored p = none) :
    (scan.add id (Stage.distinct (d.parents id)) e).Scanned d stored (passed ++ [id]) := by
  have hknows : ∀ p ∈ d.parents id, scan.Knows stored (staleSet d stored) p := fun p hp => h.knows (hparents p hp)
  have hreason : scan.reason? (Stage.distinct (d.parents id)) e ≠ none ↔ id ∈ staleSet d stored := by
    rw [Ne, reason?_eq_none_iff he hknows, not_not, ← mem_staleSet_iff]
  refine ⟨fun p => ?_, ?_, fun q => ?_, fun r hr => ?_⟩
  · rw [fingerprint?_add, h.fingerprint?_eq]
    by_cases hp : p = id <;> simp [hp, he]
  · rw [stale_add, List.map_append]
    refine h.sublist.append ?_
    cases scan.reason? (Stage.distinct (d.parents id)) e <;> simp
  · rw [mem_stale_add, h.mem_iff, hreason, List.mem_append, List.mem_singleton]
    constructor
    · rintro (⟨hpassed, hq⟩ | ⟨hq, rfl⟩)
      · exact ⟨Or.inl hpassed, hq⟩
      · exact ⟨Or.inr rfl, hq⟩
    · rintro ⟨hpassed | rfl, hq⟩
      · exact Or.inl ⟨hpassed, hq⟩
      · exact Or.inr ⟨hq, rfl⟩
  · rw [stale_add] at hr
    rcases List.mem_append.mp hr with hr | hr
    · exact h.explains r hr
    · obtain ⟨reason, hreason, rfl⟩ := Option.map_eq_some_iff.mp (Option.mem_toList.mp hr)
      exact explains_of_reason? he hknows hreason

theorem Scanned.report {present : String → Bool} (hnodup : d.order.Nodup)
    (hpresent : ∀ id e, stored id = some e → id ∈ d.order.filter present)
    (h : scan.Scanned d stored (d.order.filter present)) : StaleReport d stored present scan.stale := by
  have hset : {id | id ∈ scan.stale.map (·.stage)} = staleSet d stored := by
    ext id
    refine (h.mem_iff id).trans (and_iff_right_of_imp fun hid => ?_)
    obtain ⟨e, he⟩ := exists_stored_of_mem_staleSet hid
    exact hpresent id e he
  refine ⟨(hnodup.filter _).sublist h.sublist, h.sublist, ?_, ?_⟩
  · rw [hset]
    exact isLeast_staleSet
  · rw [hset]
    exact h.explains

end StaleScan

/-! ### Stores -/

/-- A store in the state `a` says of each path whether a file is there and what is read of it, and answering leaves
    it as it is. -/
structure Shows {σ : Type} [SessionStore (StateM σ)] (a : σ) (has : Path → Bool)
    (read : Path → Except StoreError (Option ByteArray)) : Prop where
  fileExists_eq : ∀ p, (SessionStore.fileExists p : StateM σ Bool) a = (has p, a)
  read_eq : ∀ p, (SessionStore.read p : StateM σ (Except StoreError (Option ByteArray))) a = (read p, a)

theorem MemoryStore.shows (store : MemoryStore) : Shows store store.fileExists fun p => .ok (store.read? p) :=
  ⟨fun _ => rfl, fun _ => rfl⟩

/-- What a session reads of a file on disk: only its absence is no failure. -/
def Tree.stored (t : Tree) (p : Path) : Except StoreError (Option ByteArray) :=
  match t.read p with
  | .ok bytes => .ok (some bytes)
  | .error .notFound => .ok none
  | .error cause => .error (.io p cause)

theorem Tree.shows (t : Tree) : Shows t t.holdsFile t.stored := by
  refine ⟨fun _ => rfl, fun p => ?_⟩
  have hread : (FileSystem.readFile p : StateM Tree (Except IoError ByteArray)) t = (t.read p, t) := rfl
  simp only [SessionStore.read, SessionStore.readFrom, Tree.stored, bind, StateT.bind, hread]
  cases t.read p with
  | ok bytes => rfl
  | error cause => cases cause <;> rfl

theorem Tree.exists_of_locate {t : Tree} {p : Path} {place : Tree.Place} {bytes : ByteArray}
    (h : t.locate p = .ok (place, .file bytes)) : ∃ names, t.entries.get? names = some (.file bytes) := by
  obtain ⟨start, -, h⟩ := bind_eq_ok_iff.mp h
  obtain ⟨found, -, h⟩ := bind_eq_ok_iff.mp h
  split at h
  · cases h
  · next bytes' hentry =>
    have hbytes : bytes' = bytes := by
      split at h
      · cases h
      · exact Entry.file.inj (Prod.mk.inj (Except.ok.inj h)).2
    unfold entry? at hentry
    split at hentry
    · cases hentry
    · exact ⟨_, hbytes ▸ hentry⟩
    · cases hentry
  · cases (Prod.mk.inj (Except.ok.inj h)).2

/-- A file that is there can be read, and what is read is the bytes of an entry. -/
theorem Tree.exists_stored {t : Tree} {p : Path} (h : t.holdsFile p = true) :
    ∃ names bytes, t.stored p = .ok (some bytes) ∧ t.entries.get? names = some (.file bytes) := by
  rw [holdsFile] at h
  split at h
  · next place bytes hlocate =>
    obtain ⟨names, hnames⟩ := exists_of_locate hlocate
    refine ⟨names, bytes, ?_, hnames⟩
    rw [stored, read, hlocate]
    rfl
  · cases h

/-- The stored envelopes of the stages that are present. -/
def Lineage.envelopes (l : Lineage) (read : Path → Except StoreError (Option ByteArray)) (id : String) :
    Option Envelope :=
  if l.isPresent id then
    match read (l.file id) with
    | .ok (some bytes) => Envelope.ofBytes? bytes
    | _ => none
  else none

namespace Lineage
variable {l : Lineage} {read : Path → Except StoreError (Option ByteArray)} {id : String} {e : Envelope}

theorem envelopes_eq_some_iff : l.envelopes read id = some e ↔
    l.isPresent id = true ∧ ∃ bytes, read (l.file id) = .ok (some bytes) ∧ Envelope.ofBytes? bytes = some e := by
  rw [envelopes]
  cases l.isPresent id with
  | false => simp
  | true => rcases read (l.file id) with _ | _ | bytes <;> simp

theorem mem_stages_of_isPresent (h : l.isPresent id = true) : id ∈ l.stages.map (·.path.stage) := by
  obtain ⟨r, hr, -⟩ := (Option.any_eq_true ..).mp h
  exact exists_find?_iff.mp ⟨r, hr⟩

theorem artifactPath?_eq_file (h : id ∈ l.stages.map (·.path.stage)) : l.artifactPath? id = some (l.file id) := by
  rw [artifactPath?, path?_eq_some h]
  rfl

end Lineage

namespace Session
variable {σ : Type} {a b : σ} {s : Session} {l : Lineage} {id : String}

/-- Runs a session operation on a store of whatever kind. -/
def runOn {α : Type} (a : σ) (x : ExceptT SessionError (StateM σ) α) : Except SessionError α × σ := (ExceptT.run x).run a

theorem runOn_bind_of_ok {α β : Type} {x : ExceptT SessionError (StateM σ) α} {y : α} (h : runOn a x = (.ok y, b))
    (f : α → ExceptT SessionError (StateM σ) β) : runOn a (x >>= f) = runOn b (f y) := by
  rw [runOn] at h
  rw [runOn, ExceptT.run_bind, StateT.run_bind, h]
  rfl

theorem runOn_lift {α : Type} (x : StateM σ α) :
    runOn a (liftM x : ExceptT SessionError (StateM σ) α) = (.ok (x a).1, (x a).2) := rfl

theorem runOn_lift_bind {α β : Type} {x : StateM σ α} {y : α} (h : x a = (y, b))
    (f : α → ExceptT SessionError (StateM σ) β) :
    runOn a ((liftM x : ExceptT SessionError (StateM σ) α) >>= f) = runOn b (f y) :=
  runOn_bind_of_ok (by rw [runOn_lift, h]) f

section Stores
variable [SessionStore (StateM σ)] {has : Path → Bool} {read : Path → Except StoreError (Option ByteArray)}
  (hp : s.persona.IsRead) (hshows : Shows a has read)
include hp hshows

theorem exists_runOn_lineage : ∃ l, runOn a s.lineage = (.ok l, a) ∧
    l.Realizes s.persona.definition s.root has s.persona.definition.order := by
  obtain ⟨l, hscan, hl⟩ := Lineage.scan_eq_ok hp.wellFormed hp.describes hshows.fileExists_eq s.root
  refine ⟨l, ?_, hl⟩
  rw [lineage, runOn_lift_bind hscan]
  rfl

omit hp in
theorem runOn_readFrom {e : Envelope} (h : l.envelopes read id = some e) : runOn a (readFrom l id) = (.ok (some e), a) := by
  obtain ⟨hpresent, bytes, hbytes, he⟩ := Lineage.envelopes_eq_some_iff.mp h
  have hread : runOn a (onStore (SessionStore.read (l.file id))) = (.ok (some bytes), a) := by
    rw [onStore, runOn_lift_bind (hshows.read_eq _), hbytes]
    rfl
  rw [readFrom, Lineage.artifactPath?_eq_file (Lineage.mem_stages_of_isPresent hpresent)]
  simp only [runOn_bind_of_ok hread, he]
  rfl

theorem runOn_scanStale {passed after : List String} {scan : StaleScan}
    (hsplit : s.persona.definition.order.filter l.isPresent = passed ++ after)
    (hpresent : ∀ id ∈ after, ∃ e, l.envelopes read id = some e)
    (h : scan.Scanned s.persona.definition (l.envelopes read) passed) :
    ∃ scan', runOn a (scanStale s.persona.definition l scan after) = (.ok scan', a) ∧
      scan'.Scanned s.persona.definition (l.envelopes read) (s.persona.definition.order.filter l.isPresent) := by
  induction after generalizing passed scan with
  | nil => exact ⟨scan, rfl, by rwa [hsplit, List.append_nil]⟩
  | cons id after ih =>
    obtain ⟨e, he⟩ := hpresent id (List.mem_cons_self ..)
    -- The present parents stand before the stage in the order, so the scan has passed them.
    have hparents : ∀ p ∈ s.persona.definition.parents id, p ∈ passed ∨ l.envelopes read p = none := fun p hparent => by
      by_cases hppresent : l.isPresent p = true
      · exact Or.inl (hp.wellFormed.parents_before_filter hsplit hparent hppresent)
      · exact Or.inr (if_neg hppresent)
    obtain ⟨scan', hscan', hend⟩ := ih (by simp [hsplit]) (fun x hx => hpresent x (List.mem_cons_of_mem _ hx))
      (h.add he hparents)
    refine ⟨scan', ?_, hend⟩
    rw [scanStale, runOn_bind_of_ok (runOn_readFrom hshows he)]
    exact hscan'

/-- Where every present stage has an envelope, the scan answers with all stale stages and their reasons. -/
theorem exists_runOn_stale (hlineage : runOn a s.lineage = (.ok l, a))
    (hl : l.Realizes s.persona.definition s.root has s.persona.definition.order)
    (hpresent : ∀ id, l.isPresent id = true → ∃ e, l.envelopes read id = some e) :
    ∃ stale, runOn a s.stale = (.ok stale, a) ∧
      StaleReport s.persona.definition (l.envelopes read) l.isPresent stale := by
  obtain ⟨scan, hscan, h⟩ := runOn_scanStale hp hshows rfl (fun id hid => hpresent id (List.mem_filter.mp hid).2)
    (StaleScan.scanned_nil _ _)
  refine ⟨scan.stale, ?_, h.report hp.wellFormed.order_nodup fun id e he => ?_⟩
  · rw [stale, runOn_bind_of_ok hlineage, hl.presentIds_eq hp.wellFormed, runOn_bind_of_ok hscan]
    rfl
  · have hid := (Lineage.envelopes_eq_some_iff.mp he).1
    exact List.mem_filter.mpr ⟨hl.ids_eq ▸ Lineage.mem_stages_of_isPresent hid, hid⟩

end Stores

/-! ### Stores in memory -/

variable {store : MemoryStore} {e : Envelope}

/-- The stored envelopes of a session in memory. -/
def storedIn (s : Session) (store : MemoryStore) (id : String) : Option Envelope :=
  (s.lineageIn store).envelopes (fun p => .ok (store.read? p)) id

theorem storedIn_eq_some_iff (hp : s.persona.IsRead) :
    s.storedIn store id = some e ↔ s.readIn store id = .ok (some e) := by
  rw [storedIn, Lineage.envelopes_eq_some_iff]
  constructor
  · rintro ⟨hpresent, bytes, hbytes, he⟩
    replace hbytes : store.files.get? ((s.lineageIn store).file id) = some bytes := Except.ok.inj hbytes
    rw [readIn_eq hp store (mem_ids_of_isPresent hp hpresent), envelopeAt, hbytes]
    simp only [he]
  · intro h
    have hpresent := isPresent_of_readIn hp h
    rw [readIn_eq hp store (mem_ids_of_isPresent hp hpresent), envelopeAt] at h
    cases hbytes : store.files.get? ((s.lineageIn store).file id) with
    | none =>
      rw [hbytes] at h
      cases h
    | some bytes =>
      rw [hbytes] at h
      cases he : Envelope.ofBytes? bytes with
      | none =>
        simp only [he] at h
        cases h
      | some e' =>
        simp only [he, Except.ok.injEq, Option.some.injEq] at h
        exact ⟨hpresent, bytes, congrArg Except.ok hbytes, h ▸ he⟩

theorem storedIn_congr (hp : s.persona.IsRead) {store' : MemoryStore} (h : s.readIn store' id = s.readIn store id) :
    s.storedIn store' id = s.storedIn store id :=
  Option.ext fun e => by rw [storedIn_eq_some_iff hp, storedIn_eq_some_iff hp, h]

theorem map_storedIn (hp : s.persona.IsRead) (store : MemoryStore) (id : String) :
    (s.storedIn store id).map (·.fingerprint) = s.fingerprintIn? store id := by
  cases h : s.storedIn store id with
  | some e =>
    rw [fingerprintIn?, (storedIn_eq_some_iff hp).mp h]
    rfl
  | none =>
    rw [fingerprintIn?]
    split
    · next e he =>
      rw [(storedIn_eq_some_iff hp).mpr he] at h
      cases h
    · rfl

/-- Where every present stage of a session in memory can be read, the scan answers with all stale stages and their
    reasons. -/
theorem run_stale_report (hp : s.persona.IsRead) (hread : s.Readable store) :
    ∃ stale, store.run s.stale = (.ok stale, store) ∧
      StaleReport s.persona.definition (s.storedIn store) (s.lineageIn store).isPresent stale :=
  exists_runOn_stale hp store.shows (run_lineage hp store).1 (realizes hp store) fun id hpresent => by
    obtain ⟨e, he⟩ := hread id (mem_ids_of_isPresent hp hpresent) hpresent
    exact ⟨e, (storedIn_eq_some_iff hp).mpr he⟩

/-! ### The report -/

/-- Wherever the bytes of every present stage decode as an envelope, the scan answers with the stale stages: each once,
    in topological order, with the first reason, and together the least set that holds what is stale given this
    set. -/
theorem stale_least [SessionStore (StateM σ)] {has : Path → Bool}
    {read : Path → Except StoreError (Option ByteArray)} (hp : s.persona.IsRead) (hshows : Shows a has read) :
    ∃ l, runOn a s.lineage = (.ok l, a) ∧
      ((∀ id, l.isPresent id = true →
          ∃ bytes e, read (l.file id) = .ok (some bytes) ∧ Envelope.ofBytes? bytes = some e) →
        ∃ stale, runOn a s.stale = (.ok stale, a) ∧
          StaleReport s.persona.definition (l.envelopes read) l.isPresent stale) := by
  obtain ⟨l, hlineage, hl⟩ := exists_runOn_lineage hp hshows
  refine ⟨l, hlineage, fun hdecode => exists_runOn_stale hp hshows hlineage hl fun id hid => ?_⟩
  obtain ⟨bytes, e, hbytes, he⟩ := hdecode id hid
  exact ⟨e, Lineage.envelopes_eq_some_iff.mpr ⟨hid, bytes, hbytes, he⟩⟩

/-- An envelope that is chained to no parents. -/
def lone : Envelope := .ofPayload ⟨.bool true⟩ .empty

/-- A session of the fork on disk, in which `x` and `o` have this envelope, though `x` is the parent of `o`. -/
def unchained : Tree where
  entries.entries := [(["r"], .directory), (["r", "x"], .directory), (["r", "x", "meta"], .directory),
    (["r", "x", "meta", "x.json"], .file (lone.encode false).toUTF8), (["r", "x", "o"], .directory),
    (["r", "x", "o", "meta"], .directory), (["r", "x", "o", "meta", "o.json"], .file (lone.encode false).toUTF8)]
  entries.sorted := by
    have hkeys : [["r"], ["r", "x"], ["r", "x", "meta"], ["r", "x", "meta", "x.json"], ["r", "x", "o"],
      ["r", "x", "o", "meta"], ["r", "x", "o", "meta", "o.json"]].Pairwise (compare · · = .lt) := by decide
    exact List.Pairwise.of_map Prod.fst (fun _ _ h => h) hkeys

theorem stored_unchained {p : Path} (h : unchained.holdsFile p = true) :
    unchained.stored p = .ok (some (lone.encode false).toUTF8) := by
  obtain ⟨names, bytes, hstored, hentry⟩ := Tree.exists_stored h
  have hmem := SortedMap.get?_eq_some_iff_mem.mp hentry
  simp only [unchained, List.mem_cons, Prod.mk.injEq, reduceCtorEq, and_false, false_or, List.not_mem_nil, or_false,
    Tree.Entry.file.injEq] at hmem
  obtain rfl : bytes = (lone.encode false).toUTF8 := by tauto
  exact hstored

theorem exists_lineage_unchained (hp : s.persona.IsRead) (hd : s.persona.definition = .forked) (hroot : s.root = ⟨"r"⟩) :
    ∃ l, runOn unchained s.lineage = (.ok l, unchained) ∧ l.isPresent "x" = true ∧ l.isPresent "o" = true ∧
      ∀ id, l.isPresent id = true → l.envelopes unchained.stored id = some lone := by
  obtain ⟨l, hlineage, hl⟩ := exists_runOn_lineage hp unchained.shows
  rw [hd, hroot] at hl
  obtain ⟨hx, ho⟩ := hl.isPresent_forked
  refine ⟨l, hlineage, hx.trans rfl, ho.trans rfl, fun id hid => ?_⟩
  have hfile : unchained.holdsFile (l.file id) = true := by
    rw [← hl.present_eq id (hl.ids_eq ▸ Lineage.mem_stages_of_isPresent hid), hid]
  have hdecode : Envelope.ofBytes? (lone.encode false).toUTF8 = some lone :=
    (Envelope.ofBytes?_encode false (by decide)).trans (Envelope.stored?_of_canonical rfl)
  exact Lineage.envelopes_eq_some_iff.mpr ⟨hid, _, stored_unchained hfile, hdecode⟩

theorem decodes_history (hp : s.persona.IsRead) {calls : List Call}
    (hcalls : ∀ c ∈ calls, c.content.Exact ∧ c.content.depth ≤ Envelope.contentDepth) (id : String)
    (hid : (s.lineageIn (s.history .empty calls)).isPresent id = true) :
    ∃ bytes e, (s.history .empty calls).read? ((s.lineageIn (s.history .empty calls)).file id) = some bytes ∧
      Envelope.ofBytes? bytes = some e := by
  obtain ⟨e, he⟩ := readable_history hp hcalls id (mem_ids_of_isPresent hp hid) hid
  obtain ⟨-, bytes, hbytes, he⟩ := Lineage.envelopes_eq_some_iff.mp ((storedIn_eq_some_iff hp).mpr he)
  exact ⟨bytes, e, Except.ok.inj hbytes, he⟩

/-- The history of the fork in memory, in which a parent appeared after its child was materialized, and a session of the
    fork on disk, in which the optional stage is stale. -/
theorem stale_least_forked : ∃ s : Session, s.persona.IsRead ∧ s.persona.definition = .forked ∧
    (∃ l stale, runOn (s.history .empty forkedCalls) s.lineage = (.ok l, s.history .empty forkedCalls) ∧
      (∀ id, l.isPresent id = true → ∃ bytes e, (s.history .empty forkedCalls).read? (l.file id) = some bytes ∧
        Envelope.ofBytes? bytes = some e) ∧
      runOn (s.history .empty forkedCalls) s.stale = (.ok stale, s.history .empty forkedCalls) ∧
      StaleReport .forked (l.envelopes fun p => .ok ((s.history .empty forkedCalls).read? p)) l.isPresent stale) ∧
    ∃ (t : Tree) (l : Lineage) (stale : List StaleStage), runOn t s.lineage = (.ok l, t) ∧
      (∀ id, l.isPresent id = true → ∃ bytes e, t.stored (l.file id) = .ok (some bytes) ∧
        Envelope.ofBytes? bytes = some e) ∧
      runOn t s.stale = (.ok stale, t) ∧ StaleReport .forked (l.envelopes t.stored) l.isPresent stale ∧
      "o" ∈ stale.map (·.stage) := by
  obtain ⟨s, hp, hd, hroot, -⟩ := exists_forked
  refine ⟨s, hp, hd, ?_, ?_⟩
  · obtain ⟨l, hlineage, h⟩ := stale_least hp (MemoryStore.shows (s.history .empty forkedCalls))
    obtain rfl := Except.ok.inj (congrArg Prod.fst ((run_lineage hp _).1.symm.trans hlineage))
    have hcalls : ∀ c ∈ forkedCalls, c.content.Exact ∧ c.content.depth ≤ Envelope.contentDepth := by decide
    obtain ⟨stale, hstale, hreport⟩ := h fun id hid => by
      obtain ⟨bytes, e, hbytes, he⟩ := decodes_history hp hcalls id hid
      exact ⟨bytes, e, congrArg Except.ok hbytes, he⟩
    exact ⟨_, stale, hlineage, decodes_history hp hcalls, hstale, hd ▸ hreport⟩
  · obtain ⟨l, hlineage, hx, ho, henvelope⟩ := exists_lineage_unchained hp hd hroot
    obtain ⟨l', hlineage', h⟩ := stale_least hp unchained.shows
    obtain rfl : l = l' := Except.ok.inj (congrArg Prod.fst (hlineage.symm.trans hlineage'))
    have hdecode := fun id hid => (Lineage.envelopes_eq_some_iff.mp (henvelope id hid)).2
    obtain ⟨stale, hstale, hreport⟩ := h fun id hid => (hdecode id hid).imp fun _ hbytes => ⟨lone, hbytes⟩
    rw [hd] at hreport
    have hgiven : StaleGiven .forked (l.envelopes unchained.stored) {id | id ∈ stale.map (·.stage)} "o" :=
      ⟨lone, henvelope "o" ho, Or.inr ⟨"x", by decide, Or.inr (by rw [henvelope "x" hx]; exact nofun)⟩⟩
    exact ⟨unchained, l, stale, hlineage, fun id hid => (hdecode id hid).imp fun _ hbytes => ⟨lone, hbytes⟩, hstale,
      hreport, hreport.isLeast.1 "o" hgiven⟩

end Session
end StageLineage
