import Mathlib.Algebra.Group.Nat.Defs
import Mathlib.Data.Nat.Order.Lemmas
import StageLineage.Proofs.Session.Availability
import StageLineage.Proofs.Session.Frame

/-! Sessions that are driven by their position: the stage that is next is materialized, again and again. A stage
    that appears may make stages below it vanish, so it is not their number that grows. But those stages come
    later in the order, and so the presence of the stages, read as a binary number along the order, grows with
    every turn. Where each stage is completed by its own artifact, this goes on until all stages are present. -/

namespace StageLineage

/-! ### Presence as a number -/

namespace Lineage
variable {l l' : Lineage}

/-- The binary number that has a digit for each stage of a list, the first one highest. -/
def weight (l : Lineage) : List String → Nat
  | [] => 0
  | id :: ids => (if l.isPresent id then 2 ^ ids.length else 0) + l.weight ids

theorem weight_lt (l : Lineage) : ∀ ids : List String, l.weight ids < 2 ^ ids.length
  | [] => Nat.one_pos
  | id :: ids => by
    have ih := weight_lt l ids
    rw [weight, List.length_cons, Nat.pow_succ]
    split <;> omega

/-- The first digit that changes decides. -/
theorem weight_lt_weight {before after : List String} {id : String}
    (hbefore : ∀ x ∈ before, l.isPresent x = l'.isPresent x) (h : l.isPresent id = false)
    (h' : l'.isPresent id = true) : l.weight (before ++ id :: after) < l'.weight (before ++ id :: after) := by
  induction before with
  | nil =>
    have hafter := l.weight_lt after
    simp only [List.nil_append, weight, h, h', if_true, Bool.false_eq_true, if_false]
    omega
  | cons x before ih =>
    obtain ⟨hx, hbefore⟩ := List.forall_mem_cons.mp hbefore
    have ih := ih hbefore
    simp only [List.cons_append, weight, hx, List.length_append, List.length_cons]
    omega

end Lineage

namespace Session
variable {s : Session} {store : MemoryStore} {content : Json}

/-! ### Files that hold envelopes -/

/-- Every file below the session root holds an envelope. -/
def Legible (s : Session) (store : MemoryStore) : Prop :=
  ∀ p bytes, p.startsWith s.root = true → store.files.get? p = some bytes → ∃ e, Envelope.ofBytes? bytes = some e

theorem Legible.readable (hp : s.persona.IsRead) (h : s.Legible store) : s.Readable store := by
  intro id hid hpresent
  rw [isPresent_eq hp store hid, MemoryStore.fileExists, SortedMap.contains, Option.isSome_iff_exists] at hpresent
  obtain ⟨bytes, hbytes⟩ := hpresent
  obtain ⟨e, he⟩ := h _ bytes (startsWith_file hp store hid) hbytes
  exact ⟨e, by simp only [readIn_eq hp store hid, envelopeAt, hbytes, he]⟩

theorem Legible.after (hp : s.persona.IsRead) (h : s.Legible store) (c : Call) (hexact : c.content.Exact)
    (hdepth : c.content.depth ≤ Envelope.contentDepth) :
    s.Legible (store.after (s.materialize c.stage c.content)) := by
  intro p bytes hbelow hbytes
  rcases get?_files_after hp store c p with hsame | ⟨m, hm, -, hwritten⟩
  · exact h p bytes hbelow (hsame ▸ hbytes)
  · obtain ⟨payload, hpayload, rfl⟩ := (materialized_of_answer hp hm).ofValue
    have hdecode := Envelope.ofBytes?_encode_ofPayload hpayload hexact s.options.pretty
      (s.parentFingerprints store c.stage)
    rw [if_pos ((Json.depth_canonical_le _).trans hdepth)] at hdecode
    rw [hwritten] at hbytes
    cases hbytes
    exact ⟨_, hdecode⟩

/-! ### A turn -/

section Turn
variable {m : Type → Type} [Monad m] [SessionStore m]

/-- Materializes the stage that is next, if there is one. -/
def advance (s : Session) (content : Json) : ExceptT SessionError m (Option Materialization) := do
  match (← s.position).current? with
  | none => return none
  | some declared => return some (← s.materialize declared.id content)

end Turn

theorem run_advance (hp : s.persona.IsRead) (store : MemoryStore) (content : Json) :
    store.run (s.advance content) =
      match (Position.of s.persona.definition (s.lineageIn store)).current? with
      | none => (.ok none, store)
      | some declared =>
        ((store.answer (s.materialize declared.id content)).map some, store.after (s.materialize declared.id content)) := by
  rw [advance, MemoryStore.run_bind, run_position hp store]
  dsimp only
  cases (Position.of s.persona.definition (s.lineageIn store)).current? with
  | none => rfl
  | some declared =>
    simp only [MemoryStore.run_bind, MemoryStore.answer, MemoryStore.after]
    cases store.run (s.materialize declared.id content) with
    | mk r store' => cases r <;> rfl

/-- What each content has to fulfil: it makes a payload, and its envelope can be read back. -/
structure Suits (s : Session) (content : Json) : Prop where
  ne_null : content ≠ .null
  size : content.canonicalText.utf8ByteSize ≤ s.options.maxPayload
  exact : content.Exact
  depth : content.depth ≤ Envelope.contentDepth

section Progress
variable (hp : s.persona.IsRead)
  (hown : ∀ declared ∈ s.persona.definition.stages, declared.completesWith = .ownArtifact)
include hp hown

theorem incomplete_iff_isPresent {id : String} (hid : id ∈ s.persona.definition.ids) :
    s.Incomplete store id ↔ (s.lineageIn store).isPresent id = false := by
  obtain ⟨declared, hd, rfl⟩ := Definition.mem_ids_iff.mp hid
  simp [incomplete_iff hp hd, Stage.isComplete, Stage.completionTarget?, hown declared hd, CompletionRule.target?]

/-- There is no deadlock: the first absent stage of the order can run. -/
theorem isPresent_of_current? (hreachable : ∀ id ∈ s.persona.definition.ids, s.persona.definition.Reachable id)
    (h : (Position.of s.persona.definition (s.lineageIn store)).current? = none) :
    ∀ id ∈ s.persona.definition.ids, (s.lineageIn store).isPresent id = true := by
  refine hp.wellFormed.parents_induction fun id hid ih => ?_
  by_contra habsent
  have hincomplete := (incomplete_iff_isPresent hp hown hid).mpr (by simpa using habsent)
  have hsatisfied : ∀ p ∈ s.persona.definition.parents id,
      Position.isSatisfied s.persona.definition (s.lineageIn store) p = true := fun p hparent => by
    simp [Position.isSatisfied, ih p hparent]
  have hmem := (mem_availableIds_iff hp).mpr ⟨hreachable id hid, hincomplete, hsatisfied⟩
  rw [Position.availableIds, List.head?_eq_none_iff.mp h] at hmem
  exact List.not_mem_nil hmem

end Progress

/-- Where every file holds an envelope, the stage that is next is materialized. -/
theorem exists_turn (hp : s.persona.IsRead) (hlegible : s.Legible store) (hsuits : s.Suits content) {declared : Stage}
    (h : (Position.of s.persona.definition (s.lineageIn store)).current? = some declared) :
    ∃ m, s.Materialized store declared.id content m ∧ store.answer (s.advance content) = .ok (some m) ∧
      store.after (s.advance content) = store.after (s.materialize declared.id content) ∧
      s.Legible (store.after (s.advance content)) := by
  have haccepts := accepts_of_mem_availableIds hp (hlegible.readable hp) (mem_availableIds_of_current? h)
  obtain ⟨m, hm⟩ := haccepts content hsuits.ne_null hsuits.size
  have hrun := run_advance hp store content
  rw [h] at hrun
  have hanswer : store.answer (s.advance content) = (store.answer (s.materialize declared.id content)).map some :=
    congrArg Prod.fst hrun
  have hafter : store.after (s.advance content) = store.after (s.materialize declared.id content) :=
    congrArg Prod.snd hrun
  refine ⟨m, materialized_of_answer hp hm, ?_, hafter, ?_⟩
  · rw [hanswer, hm]
    rfl
  · rw [hafter]
    exact hlegible.after hp ⟨declared.id, content⟩ hsuits.exact hsuits.depth

/-- A stage that was absent makes the number grow, for what it moves comes later in the order. -/
theorem Materialized.weight_lt (hp : s.persona.IsRead) {stage : String} {m : Materialization}
    (h : s.Materialized store stage content m) (habsent : (s.lineageIn store).isPresent stage = false) :
    (s.lineageIn store).weight s.persona.definition.order <
      (s.lineageIn (s.storeWith store m)).weight s.persona.definition.order := by
  have hwf := hp.wellFormed
  obtain ⟨before, after, horder⟩ := List.append_of_mem (hwf.mem_order_iff.mpr h.mem_ids)
  have hfresh : stage ∉ before := fun hmem => by
    have hnodup := hwf.order_nodup
    rw [horder, List.nodup_append] at hnodup
    exact hnodup.2.2 stage hmem stage (List.mem_cons_self ..) rfl
  rw [horder]
  refine Lineage.weight_lt_weight (fun x hx => ?_) habsent (h.isPresent_self hp)
  obtain ⟨first, last, rfl⟩ := List.append_of_mem hx
  have hxid : x ∈ s.persona.definition.ids := hwf.mem_order_iff.mp (by simp [horder])
  refine (h.isPresent_eq_of_kept hp hxid (by rintro rfl; exact hfresh hx) fun habove => ?_).symm
  have hsplit : s.persona.definition.order = first ++ x :: (last ++ stage :: after) := by simp [horder]
  exact absurd (List.mem_append_left _ (hwf.above_before habove hsplit)) hfresh

/-! ### The loop -/

/-- The store after some turns, each with a content of its own. -/
def driven (s : Session) (store : MemoryStore) (contents : Nat → Json) : Nat → MemoryStore
  | 0 => store
  | n + 1 => (s.driven store contents n).after (s.advance (contents n))

/-- What holds as long as the loop goes on: no turn has failed or stopped, and each has made the number grow. -/
structure Growing (s : Session) (store : MemoryStore) (contents : Nat → Json) (n : Nat) : Prop where
  turns : ∀ k < n, ∃ m, (s.driven store contents k).answer (s.advance (contents k)) = .ok (some m)
  legible : s.Legible (s.driven store contents n)
  le_weight : n ≤ (s.lineageIn (s.driven store contents n)).weight s.persona.definition.order

section Loop
variable {contents : Nat → Json} (hp : s.persona.IsRead)
  (hown : ∀ declared ∈ s.persona.definition.stages, declared.completesWith = .ownArtifact)
include hp hown

/-- A turn materializes an absent stage, unless all stages are present. -/
theorem answer_advance (hreachable : ∀ id ∈ s.persona.definition.ids, s.persona.definition.Reachable id)
    (hlegible : s.Legible store) (hsuits : s.Suits content) :
    (store.answer (s.advance content) = .ok none ∧
        ∀ id ∈ s.persona.definition.ids, (s.lineageIn store).isPresent id = true) ∨
      (∃ m, store.answer (s.advance content) = .ok (some m)) ∧ s.Legible (store.after (s.advance content)) ∧
        (s.lineageIn store).weight s.persona.definition.order <
          (s.lineageIn (store.after (s.advance content))).weight s.persona.definition.order := by
  cases hcurrent : (Position.of s.persona.definition (s.lineageIn store)).current? with
  | none =>
    have hrun := run_advance hp store content
    rw [hcurrent] at hrun
    exact Or.inl ⟨congrArg Prod.fst hrun, isPresent_of_current? hp hown hreachable hcurrent⟩
  | some declared =>
    have hincomplete := ((mem_availableIds_iff hp).mp (mem_availableIds_of_current? hcurrent)).2.1
    obtain ⟨m, hm, hanswer, hafter, hlegible⟩ := exists_turn hp hlegible hsuits hcurrent
    refine Or.inr ⟨⟨m, hanswer⟩, hlegible, ?_⟩
    rw [hafter, hm.after_eq]
    exact hm.weight_lt hp ((incomplete_iff_isPresent hp hown hm.mem_ids).mp hincomplete)

theorem Growing.step (hreachable : ∀ id ∈ s.persona.definition.ids, s.persona.definition.Reachable id)
    (hcontents : ∀ k, s.Suits (contents k)) {n : Nat} (h : s.Growing store contents n) :
    ((s.driven store contents n).answer (s.advance (contents n)) = .ok none ∧
        ∀ id ∈ s.persona.definition.ids, (s.lineageIn (s.driven store contents n)).isPresent id = true) ∨
      s.Growing store contents (n + 1) := by
  refine (answer_advance hp hown hreachable h.legible (hcontents n)).imp_right ?_
  rintro ⟨hturn, hlegible, hgrows⟩
  refine ⟨fun k hk => ?_, hlegible, Nat.lt_of_le_of_lt h.le_weight hgrows⟩
  rcases Nat.lt_succ_iff_lt_or_eq.mp hk with hk | rfl
  · exact h.turns k hk
  · exact hturn

/-- Where every stage is completed by its own artifact and none has an empty list of parents, driving a session that has
    no files comes to an end, whatever the contents are. No turn fails, and in the end all stages are present. -/
theorem exists_driven (hprevious : ∀ declared ∈ s.persona.definition.stages, declared.previous ≠ some [])
    (hempty : ∀ p, p.startsWith s.root = true → store.fileExists p = false) (hcontents : ∀ k, s.Suits (contents k)) :
    ∃ n < 2 ^ s.persona.definition.ids.length,
      (∀ k < n, ∃ m, (s.driven store contents k).answer (s.advance (contents k)) = .ok (some m)) ∧
      (s.driven store contents n).answer (s.advance (contents n)) = .ok none ∧
      ∀ id ∈ s.persona.definition.ids, (s.lineageIn (s.driven store contents n)).isPresent id = true ∧
        (s.driven store contents n).fileExists ((s.lineageIn (s.driven store contents n)).file id) = true := by
  have hwf := hp.wellFormed
  have hlegible : s.Legible store := fun p bytes hbelow hbytes => by
    have habsent := hempty p hbelow
    rw [MemoryStore.fileExists, SortedMap.contains, hbytes] at habsent
    cases habsent
  have hstart : s.Growing store contents 0 := ⟨fun k hk => absurd hk (Nat.not_lt_zero k), hlegible, Nat.zero_le _⟩
  have hbound : ∀ n, s.Growing store contents n → n < 2 ^ s.persona.definition.ids.length := fun n h => by
    have hlt := (s.lineageIn (s.driven store contents n)).weight_lt s.persona.definition.order
    rw [hwf.order_perm.length_eq] at hlt
    exact Nat.lt_of_le_of_lt h.le_weight hlt
  -- The number cannot grow for ever, so there is a last turn that made it grow.
  obtain ⟨n, hn, hlast⟩ := Nat.exists_not_and_succ_of_not_zero_of_exists
    (p := fun n => ¬ s.Growing store contents n) (fun h => h hstart) ⟨_, fun h => Nat.lt_irrefl _ (hbound _ h)⟩
  have hgrowing := not_not.mp hn
  obtain ⟨hstops, hpresent⟩ := (hgrowing.step hp hown (hwf.reachable_of_forall hprevious) hcontents).resolve_right hlast
  refine ⟨n, hbound n hgrowing, hgrowing.turns, hstops, fun id hid => ⟨hpresent id hid, ?_⟩⟩
  rw [← isPresent_eq hp _ hid]
  exact hpresent id hid

end Loop

/-! ### An optional stage that comes up late -/

end Session

/-- A manifest in which the optional stage `o` is declared after the stage `a` below it. -/
def Manifest.late : Json :=
  .object [("name", .string "Late"), ("persona", .string "late"),
    ("stages", .array [plainEntry "x" [] false, plainEntry "a" ["x", "o"] false, plainEntry "o" ["x"] true])]

def Definition.late : Definition where
  header := ⟨"Late", "late", "", none, "1.0.0", false, []⟩
  stages := [.plain "x" [] false, .plain "a" ["x", "o"] false, .plain "o" ["x"] true]
  order := ["x", "o", "a"]

theorem Manifest.ofDocument_late : ofDocument late = .ok .late := by cbv

/-- The lineage of this manifest, in which `o` moves `a`. -/
def Lineage.late (root : Path) (present : List String) : Lineage :=
  ⟨root, [⟨⟨"x", ⟨[.stage "x"]⟩⟩, present.contains "x"⟩, ⟨⟨"o", ⟨[.stage "x", .stage "o"]⟩⟩, present.contains "o"⟩,
    ⟨⟨"a", ⟨if present.contains "o" then [.stage "x", .join ["o", "x"], .stage "a"] else [.stage "x", .stage "a"]⟩⟩,
      present.contains "a"⟩]⟩

theorem Definition.reachable_late : late.reachable = ["x", "a", "o"] := by
  rw [reachable, show late.rootIds = ["x"] by decide]
  cbv

namespace Session
variable {s : Session} {store : MemoryStore} {content : Json}

/-- The stage that is next in the lineage that fits is materialized, where that lineage says. -/
theorem Holds.advance (hp : s.persona.IsRead) {written : List StagePath} (h : s.Holds store written)
    (hlegible : s.Legible store) (hsuits : s.Suits content) {l : Lineage} (hroot : l.root = s.root)
    (hfits : l.fits s.persona.definition written = true) {declared : Stage}
    (hcurrent : (Position.of s.persona.definition l).current? = some declared) :
    s.Holds (store.after (s.advance content)) (⟨declared.id, l.dir declared.id⟩ :: written) ∧
      s.Legible (store.after (s.advance content)) := by
  obtain rfl := h.lineageIn_eq hp hroot hfits
  obtain ⟨m, hm, -, hafter, hlegible⟩ := exists_turn hp hlegible hsuits hcurrent
  exact ⟨hafter ▸ h.after hp hm, hlegible⟩

/-- The turns of this manifest: `a` is materialized beside the absent `o`, and moves when `o` is. -/
theorem late_turns (hp : s.persona.IsRead) (hd : s.persona.definition = .late) (hsuits : s.Suits content) :
    s.lineageIn (s.driven .empty (fun _ => content) 2) = .late s.root ["x", "a"] ∧
      s.lineageIn (s.driven .empty (fun _ => content) 3) = .late s.root ["x", "o"] := by
  have turn : ∀ {n : Nat} {written : List StagePath} (declared : Stage) (l : Lineage),
      s.Holds (s.driven .empty (fun _ => content) n) written ∧ s.Legible (s.driven .empty (fun _ => content) n) →
      l.root = s.root → l.fits .late written = true → (Position.of .late l).current? = some declared →
      s.Holds (s.driven .empty (fun _ => content) (n + 1)) (⟨declared.id, l.dir declared.id⟩ :: written) ∧
        s.Legible (s.driven .empty (fun _ => content) (n + 1)) := fun _ _ h hroot hfits hcurrent =>
    h.1.advance hp h.2 hsuits hroot (hd ▸ hfits) (hd ▸ hcurrent)
  have hnone : s.Holds (s.driven .empty (fun _ => content) 0) [] ∧ s.Legible (s.driven .empty (fun _ => content) 0) :=
    ⟨holds_empty s, fun _ _ _ h => nomatch h⟩
  have hx := turn (.plain "x" [] false) (.late s.root []) hnone rfl (by cbv)
    (by rw [Position.of, Definition.reachable_late]; rfl)
  have ha := turn (.plain "a" ["x", "o"] false) (.late s.root ["x"]) hx rfl (by cbv)
    (by rw [Position.of, Definition.reachable_late]; rfl)
  have ho := turn (.plain "o" ["x"] true) (.late s.root ["x", "a"]) ha rfl (by cbv)
    (by rw [Position.of, Definition.reachable_late]; rfl)
  exact ⟨ha.1.lineageIn_eq hp rfl (hd ▸ by cbv), ho.1.lineageIn_eq hp rfl (hd ▸ by cbv)⟩

/-- Driving the manifest in which `o` comes up late: the third turn takes `a` away, which is materialized again. -/
theorem driven_late : ∃ s : Session, s.persona.IsRead ∧ s.persona.definition = .late ∧
    (s.lineageIn (s.driven .empty (fun _ => .bool true) 2)).isPresent "a" = true ∧
    (s.lineageIn (s.driven .empty (fun _ => .bool true) 3)).isPresent "a" = false ∧
    ∃ n < 8, (s.driven .empty (fun _ => .bool true) n).answer (s.advance (.bool true)) = .ok none ∧
      ∀ id ∈ ["x", "a", "o"], (s.lineageIn (s.driven .empty (fun _ => .bool true) n)).isPresent id = true := by
  obtain ⟨p, -, hp, hd⟩ := Persona.compile_eq_ok Manifest.ofDocument_late
  have hsize : (Json.bool true).canonicalText.utf8ByteSize ≤ Payload.defaultLimit := by decide
  have hempty : ∀ q : Path, q.startsWith ⟨"r"⟩ = true → MemoryStore.empty.fileExists q = false := fun _ _ => rfl
  have hsuits : Suits ⟨p, {}, ⟨"r"⟩⟩ (.bool true) := ⟨by simp, hsize, by decide, by decide⟩
  obtain ⟨hbefore, hafter⟩ := late_turns (s := ⟨p, {}, ⟨"r"⟩⟩) hp hd hsuits
  obtain ⟨n, hn, -, hstops, hpresent⟩ :=
    exists_driven (s := ⟨p, {}, ⟨"r"⟩⟩) hp (by rw [hd]; decide) (by rw [hd]; decide) hempty fun _ => hsuits
  simp only [hd] at hn hpresent
  exact ⟨_, hp, hd, hbefore ▸ rfl, hafter ▸ rfl, n, hn, hstops, fun id hid => (hpresent id hid).1⟩

end Session
end StageLineage
