import Mathlib.Order.Lattice.Nat
import StageLineage.Proofs.Manifest.WellFormed

/-! The stages above and below a stage, as a breadth-first search lists them: each once, and none before one that is
    nearer. The queue of the search holds stages at one distance and behind them stages one step further off, and what
    was not seen yet is no nearer than the first of them. The search takes stages out of those that there are; a loop
    that only keeps the stages it has seen comes to the same list, and to an end. -/

namespace StageLineage
namespace StageGraph
variable {next : String → List String} {start within unseen seen queue near far : List String} {n : Nat} {x : String}

/-! ### Distance -/

/-- Some number of steps of `next` leads from a member of `start` to a stage. -/
inductive Steps (next : String → List String) (start : List String) : Nat → String → Prop
  | start {x : String} : x ∈ start → Steps next start 0 x
  | step {n : Nat} {x y : String} : Steps next start n x → y ∈ next x → Steps next start (n + 1) y

/-- What is known while the queue holds the stages `near`, which are `n` steps off, and behind them the stages `far`,
    which are one step further off. -/
structure Levels (next : String → List String) (start unseen near far : List String) (n : Nat) : Prop where
  unseen_nodup : unseen.Nodup
  steps_near : ∀ x ∈ near, Steps next start n x
  steps_far : ∀ x ∈ far, Steps next start (n + 1) x
  le_of_unseen : ∀ x ∈ unseen, ∀ m, Steps next start m x → n ≤ m
  mem_near : ∀ x ∈ unseen, Steps next start n x → x ∈ near
  mem_queue : ∀ x, x ∉ unseen → ∀ m, Steps next start m x → ∀ y ∈ next x, y ∈ unseen → y ∈ near ∨ y ∈ far

theorem levels_start (hnodup : within.Nodup) (hwithin : ∀ m x, Steps next start m x → x ∈ within) :
    Levels next start within start [] 0 where
  unseen_nodup := hnodup
  steps_near _ hx := .start hx
  steps_far _ hx := nomatch hx
  le_of_unseen _ _ m _ := Nat.zero_le m
  mem_near x _ h := by
    cases h
    assumption
  mem_queue x hx m h := absurd (hwithin m x h) hx

/-- Behind the last stage at one distance the queue holds those one step further off. -/
theorem Levels.advance (h : Levels next start unseen [] far n) : Levels next start unseen far [] (n + 1) where
  unseen_nodup := h.unseen_nodup
  steps_near := h.steps_far
  steps_far _ hx := nomatch hx
  le_of_unseen x hx m hm := by
    rcases Nat.lt_or_ge n m with hlt | hge
    · exact hlt
    · obtain rfl := Nat.le_antisymm hge (h.le_of_unseen x hx m hm)
      exact nomatch h.mem_near x hx hm
  mem_near y hy hsteps := by
    cases hsteps with
    | @step _ x _ hx hstep =>
      have hseen : x ∉ unseen := fun hmem => nomatch h.mem_near x hmem hx
      exact (h.mem_queue x hseen n hx y hstep hy).resolve_left List.not_mem_nil
  mem_queue x hx m hm y hy hunseen := Or.inl ((h.mem_queue x hx m hm y hy hunseen).resolve_left List.not_mem_nil)

/-- The first stage of a queue is among the nearest ones. -/
theorem Levels.exists_cons (h : Levels next start unseen near far n) (hqueue : x :: queue = near ++ far) :
    ∃ n near far, queue = near ++ far ∧ Levels next start unseen (x :: near) far n := by
  cases near with
  | nil =>
    obtain rfl : x :: queue = far := hqueue
    exact ⟨n + 1, queue, [], (List.append_nil queue).symm, h.advance⟩
  | cons y near =>
    obtain ⟨rfl, rfl⟩ := List.cons.inj hqueue
    exact ⟨n, near, far, rfl, h⟩

/-- A stage that is seen for the first time puts its successors behind the queue. -/
theorem Levels.take (h : Levels next start unseen (x :: near) far n) :
    Levels next start (unseen.erase x) near (far ++ next x) n where
  unseen_nodup := h.unseen_nodup.erase x
  steps_near y hy := h.steps_near y (List.mem_cons_of_mem _ hy)
  steps_far y hy := by
    rcases List.mem_append.mp hy with hy | hy
    · exact h.steps_far y hy
    · exact .step (h.steps_near x (List.mem_cons_self ..)) hy
  le_of_unseen y hy := h.le_of_unseen y (List.mem_of_mem_erase hy)
  mem_near y hy hsteps := by
    obtain ⟨hyx, hunseen⟩ := h.unseen_nodup.mem_erase_iff.mp hy
    exact (List.mem_cons.mp (h.mem_near y hunseen hsteps)).resolve_left hyx
  mem_queue z hz m hm y hy hunseen := by
    obtain ⟨hyx, hunseen⟩ := h.unseen_nodup.mem_erase_iff.mp hunseen
    by_cases hzx : z = x
    · exact Or.inr (List.mem_append_right _ (hzx ▸ hy))
    · have hseen : z ∉ unseen := fun hmem => hz ((List.mem_erase_of_ne hzx).mpr hmem)
      rcases h.mem_queue z hseen m hm y hy hunseen with hnear | hfar
      · exact Or.inl ((List.mem_cons.mp hnear).resolve_left hyx)
      · exact Or.inr (List.mem_append_left _ hfar)

theorem Levels.skip (h : Levels next start unseen (x :: near) far n) (hx : x ∉ unseen) :
    Levels next start unseen near far n where
  unseen_nodup := h.unseen_nodup
  steps_near y hy := h.steps_near y (List.mem_cons_of_mem _ hy)
  steps_far := h.steps_far
  le_of_unseen := h.le_of_unseen
  mem_near y hy hsteps := by
    rcases List.mem_cons.mp (h.mem_near y hy hsteps) with rfl | hnear
    · exact absurd hy hx
    · exact hnear
  mem_queue z hz m hm y hy hunseen := by
    rcases h.mem_queue z hz m hm y hy hunseen with hnear | hfar
    · rcases List.mem_cons.mp hnear with rfl | hnear
      · exact absurd hunseen hx
      · exact Or.inl hnear
    · exact Or.inr hfar

/-- Whatever leads to a stage of the list, something no longer leads to each stage before it. -/
theorem Levels.pairwise_reach (h : Levels next start unseen near far n) (hqueue : queue = near ++ far) :
    (reach next unseen queue).Pairwise fun x y => ∀ m, Steps next start m y → ∃ k ≤ m, Steps next start k x := by
  fun_induction reach next unseen queue generalizing near far n with
  | case1 => exact .nil
  | case2 unseen x queue hx ih =>
    obtain ⟨n, near, far, rfl, h⟩ := h.exists_cons hqueue
    refine List.pairwise_cons.mpr ⟨fun y hy m hm => ?_, ih h.take (List.append_assoc ..)⟩
    have hunseen : y ∈ unseen := List.mem_of_mem_erase (mem_reach_iff.mp hy).mem
    exact ⟨n, h.le_of_unseen y hunseen m hm, h.steps_near x (List.mem_cons_self ..)⟩
  | case3 unseen x queue hx ih =>
    obtain ⟨n, near, far, rfl, h⟩ := h.exists_cons hqueue
    exact ih (h.skip hx) rfl

theorem nodup_reach (hnodup : unseen.Nodup) : (reach next unseen queue).Nodup := by
  fun_induction reach next unseen queue with
  | case1 => exact .nil
  | case2 unseen x queue hx ih =>
    refine List.nodup_cons.mpr ⟨fun hmem => ?_, ih (hnodup.erase x)⟩
    exact (hnodup.mem_erase_iff.mp (mem_reach_iff.mp hmem).mem).1 rfl
  | case3 unseen x queue hx ih => exact ih hnodup

theorem mem_reach_iff_steps (hwithin : ∀ m x, Steps next start m x → x ∈ within) :
    x ∈ reach next within start ↔ ∃ n, Steps next start n x := by
  rw [mem_reach_iff]
  constructor
  · intro h
    induction h with
    | seed hx _ => exact ⟨0, .start hx⟩
    | step _ hstep _ ih =>
      obtain ⟨n, hn⟩ := ih
      exact ⟨n + 1, hn.step hstep⟩
  · rintro ⟨n, h⟩
    induction h with
    | start hx => exact .seed hx (hwithin 0 _ (.start hx))
    | step hsteps hstep ih => exact .step ih hstep (hwithin _ _ (hsteps.step hstep))

/-! ### The loop -/

/-- The loop over a queue that keeps the stages it has seen ends with the stages `found`. A stage leaves the queue; if
    it was not seen, it is now, and its successors go behind the queue, whether or not they wait there already. -/
inductive Explores (next : String → List String) : List String → List String → List String → Prop
  | done {seen : List String} : Explores next seen [] seen
  | first {seen queue found : List String} {x : String} : x ∉ seen →
      Explores next (seen ++ [x]) (queue ++ next x) found → Explores next seen (x :: queue) found
  | again {seen queue found : List String} {x : String} : x ∈ seen → Explores next seen queue found →
      Explores next seen (x :: queue) found

/-- The loop finds what the search over the stages that there are finds. -/
theorem explores_reach (hnext : ∀ x, ∀ y ∈ next x, y ∈ within) (hnodup : unseen.Nodup)
    (hqueue : ∀ x ∈ queue, x ∈ within) (hseen : ∀ x ∈ within, x ∈ unseen ↔ x ∉ seen) :
    Explores next seen queue (seen ++ reach next unseen queue) := by
  fun_induction reach next unseen queue generalizing seen with
  | case1 =>
    rw [List.append_nil]
    exact .done
  | case2 unseen x queue hx ih =>
    obtain ⟨hxwithin, hqueue⟩ := List.forall_mem_cons.mp hqueue
    rw [List.append_cons]
    refine .first ((hseen x hxwithin).mp hx) (ih (hnodup.erase x) (fun y hy => ?_) fun y hy => ?_)
    · rcases List.mem_append.mp hy with hy | hy
      · exact hqueue y hy
      · exact hnext x y hy
    · rw [hnodup.mem_erase_iff, hseen y hy, List.mem_append, List.mem_singleton, not_or, and_comm]
  | case3 unseen x queue hx ih =>
    obtain ⟨hxwithin, hqueue⟩ := List.forall_mem_cons.mp hqueue
    exact .again (not_not.mp (mt (hseen x hxwithin).mpr hx)) (ih hnodup hqueue hseen)

end StageGraph

namespace Definition
variable {d : Definition} {a id p : String} {n : Nat}

/-! ### Chains of edges -/

inductive Chain (d : Definition) : Nat → String → String → Prop
  | nil (id : String) : Chain d 0 id id
  | snoc {n : Nat} {a p c : String} : Chain d n a p → ⟨p, c⟩ ∈ d.edges → Chain d (n + 1) a c

theorem Chain.cons (he : ⟨a, p⟩ ∈ d.edges) (h : d.Chain n p id) : d.Chain (n + 1) a id := by
  induction h with
  | nil => exact .snoc (.nil a) he
  | snoc _ he' ih => exact .snoc (ih he) he'

/-- The list holds the stages of all chains with an edge, each once and the ones of the shortest chains first. -/
structure NearestFirst (chain : Nat → String → Prop) (found : List String) : Prop where
  mem_iff : ∀ x, x ∈ found ↔ ∃ n, chain (n + 1) x
  nodup : found.Nodup
  ordered : found.Pairwise fun x y => sInf {n | chain n x} ≤ sInf {n | chain n y}

/-- A search that takes one step for each edge lists the nearest stages first, if no chain without edges leads to any
    of them. -/
theorem nearestFirst_reach {next : String → List String} {start within : List String} {chain : Nat → String → Prop}
    (hchain : ∀ n x, StageGraph.Steps next start n x ↔ chain (n + 1) x) (hnodup : within.Nodup)
    (hwithin : ∀ n x, chain (n + 1) x → x ∈ within) (hproper : ∀ n x, chain (n + 1) x → ¬ chain 0 x) :
    NearestFirst chain (StageGraph.reach next within start) := by
  have hsteps : ∀ n x, StageGraph.Steps next start n x → x ∈ within := fun n x h => hwithin n x ((hchain n x).mp h)
  have hmem : ∀ x, x ∈ StageGraph.reach next within start ↔ ∃ n, chain (n + 1) x := fun x => by
    simp only [StageGraph.mem_reach_iff_steps hsteps, hchain]
  refine ⟨hmem, StageGraph.nodup_reach hnodup, ?_⟩
  refine ((StageGraph.levels_start hnodup hsteps).pairwise_reach (List.append_nil start).symm).imp_of_mem ?_
  intro x y _ hy hle
  obtain ⟨n, hn⟩ := (hmem y).mp hy
  have hne : {n | chain n y}.Nonempty := ⟨n + 1, hn⟩
  have hshortest : chain (sInf {n | chain n y}) y := Nat.sInf_mem hne
  -- The shortest chain has an edge, so the search has gone it.
  cases hm : sInf {n | chain n y} with
  | zero => exact absurd (hm ▸ hshortest) (hproper n y hn)
  | succ m =>
    rw [hm] at hshortest
    obtain ⟨k, hk, hsteps⟩ := hle m ((hchain m y).mpr hshortest)
    exact (Nat.sInf_le ((hchain k x).mp hsteps)).trans (Nat.succ_le_succ hk)

namespace WellFormed
variable (wf : d.WellFormed)
include wf

theorem mem_edges_iff {c : String} : ⟨p, c⟩ ∈ d.edges ↔ p ∈ d.parents c := by
  rw [edges, ← StageGraph.mem_parents_iff, StageGraph.mem_parents_ofStages]
  constructor
  · rintro ⟨s, hs, rfl, hp⟩
    rwa [parents_of_stage? (wf.stage?_of_mem hs)]
  · intro hp
    obtain ⟨s, hs⟩ := isSome_stage? (mem_ids_of_parents hp)
    exact ⟨s, (stage?_eq_some hs).1, (stage?_eq_some hs).2, parents_of_stage? hs ▸ hp⟩

theorem above_iff_chain : d.Above a id ↔ ∃ n, d.Chain (n + 1) a id := by
  constructor
  · intro h
    induction h with
    | single hp => exact ⟨0, .snoc (.nil a) (wf.mem_edges_iff.mpr hp)⟩
    | tail _ hp ih =>
      obtain ⟨n, hn⟩ := ih
      exact ⟨n + 1, hn.snoc (wf.mem_edges_iff.mpr hp)⟩
  · rintro ⟨n, h⟩
    induction n generalizing id with
    | zero =>
      cases h with
      | snoc h he =>
        cases h
        exact .single (wf.mem_edges_iff.mp he)
    | succ n ih =>
      cases h with
      | snoc h he => exact (ih h).tail (wf.mem_edges_iff.mp he)

theorem steps_parents_iff : StageGraph.Steps d.parents (d.parents id) n a ↔ d.Chain (n + 1) a id := by
  constructor
  · intro h
    induction h with
    | start hp => exact .snoc (.nil _) (wf.mem_edges_iff.mpr hp)
    | step _ hp ih => exact ih.cons (wf.mem_edges_iff.mpr hp)
  · -- From the lower end: what the search has reached, it goes up from.
    have up : ∀ n x m, d.Chain n a x → StageGraph.Steps d.parents (d.parents id) m x →
        StageGraph.Steps d.parents (d.parents id) (m + n) a := by
      intro n
      induction n with
      | zero =>
        intro x m h hx
        cases h
        exact hx
      | succ n ih =>
        intro x m h hx
        cases h with
        | snoc h he =>
          rw [Nat.add_comm n, ← Nat.add_assoc]
          exact ih _ (m + 1) h (hx.step (wf.mem_edges_iff.mp he))
    intro h
    cases h with
    | snoc h he =>
      rw [← Nat.zero_add n]
      exact up n _ 0 h (.start (wf.mem_edges_iff.mp he))

theorem steps_children_iff : StageGraph.Steps d.children (d.children a) n id ↔ d.Chain (n + 1) a id := by
  constructor
  · intro h
    induction h with
    | start hc => exact .snoc (.nil a) (wf.mem_edges_iff.mpr (wf.mem_children_iff_mem_parents.mp hc))
    | step _ hc ih => exact ih.snoc (wf.mem_edges_iff.mpr (wf.mem_children_iff_mem_parents.mp hc))
  · intro h
    induction n generalizing id with
    | zero =>
      cases h with
      | snoc h he =>
        cases h
        exact .start (wf.mem_children_iff_mem_parents.mpr (wf.mem_edges_iff.mp he))
    | succ n ih =>
      cases h with
      | snoc h he => exact (ih h).step (wf.mem_children_iff_mem_parents.mpr (wf.mem_edges_iff.mp he))

theorem notMem_ancestors_self : id ∉ d.ancestors id := fun h =>
  have habove := wf.mem_ancestors_iff.mp h
  wf.not_above_self id (wf.mem_of_above habove) habove

theorem chain_mem (h : d.Chain (n + 1) a id) : a ∈ d.ids ∧ id ∈ d.ids := by
  have habove : d.Above a id := wf.above_iff_chain.mpr ⟨n, h⟩
  exact ⟨wf.mem_of_above habove, (StageGraph.mem_reach_iff.mp (wf.mem_descendants_iff.mpr habove)).mem⟩

theorem not_chain_zero (h : d.Chain (n + 1) a id) : ¬ d.Chain 0 a id := by
  rintro ⟨⟩
  exact wf.not_above_self a (wf.chain_mem h).1 (wf.above_iff_chain.mpr ⟨n, h⟩)

theorem reachable_eq :
    d.reachable = d.ids.filter fun id => id ∈ d.rootIds ∨ ∃ root ∈ d.rootIds, root ∈ d.ancestors id := by
  refine List.filter_congr fun id _ => ?_
  have hfound : id ∈ d.rootIds.flatMap (fun root => root :: d.descendants root) ↔
      id ∈ d.rootIds ∨ ∃ root ∈ d.rootIds, root ∈ d.ancestors id := by
    simp only [List.mem_flatMap, List.mem_cons, wf.mem_descendants_iff, ← wf.mem_ancestors_iff]
    constructor
    · rintro ⟨root, hroot, rfl | habove⟩
      · exact Or.inl hroot
      · exact Or.inr ⟨root, hroot, habove⟩
    · rintro (hroot | ⟨root, hroot, habove⟩)
      · exact ⟨id, hroot, Or.inl rfl⟩
      · exact ⟨root, hroot, Or.inr habove⟩
  simp only [List.contains_eq_mem, hfound]

end WellFormed

/-- In a definition that was read, the searches up and down the edges find each other's ends and never the stage they
    start from, and each lists, with the nearest first, what the chains lead to; so do loops that only keep the stages
    they have seen. The stages that are reached from the roots are the roots and what has a root above it. -/
theorem ancestors_and_descendants {document : Json} (h : Manifest.ofDocument document = .ok d) :
    (∀ a id, (a ∈ d.ancestors id ↔ ∃ n, d.Chain (n + 1) a id) ∧ (a ∈ d.ancestors id ↔ id ∈ d.descendants a)) ∧
    (∀ id, id ∉ d.ancestors id ∧ id ∉ d.descendants id ∧
      NearestFirst (fun n a => d.Chain n a id) (d.ancestors id) ∧
      NearestFirst (fun n c => d.Chain n id c) (d.descendants id) ∧
      StageGraph.Explores d.parents [] (d.parents id) (d.ancestors id) ∧
      StageGraph.Explores d.children [] (d.children id) (d.descendants id)) ∧
    d.reachable = d.ids.filter fun id => id ∈ d.rootIds ∨ ∃ root ∈ d.rootIds, root ∈ d.ancestors id := by
  have wf := Manifest.wellFormed_of_ofDocument h
  have hdual : ∀ a id, a ∈ d.ancestors id ↔ id ∈ d.descendants a := fun a id =>
    wf.mem_ancestors_iff.trans wf.mem_descendants_iff.symm
  have hself : ∀ id, id ∉ d.ancestors id := fun id => wf.notMem_ancestors_self
  have hparents : ∀ id, ∀ p ∈ d.parents id, p ∈ d.ids := fun id p hp => wf.mem_of_parents hp
  have hchildren : ∀ id, ∀ c ∈ d.children id, c ∈ d.ids := fun id c hc =>
    mem_ids_of_parents (wf.mem_children_iff_mem_parents.mp hc)
  have hseen : ∀ x ∈ d.ids, x ∈ d.ids ↔ x ∉ ([] : List String) := fun x hx => by simp [hx]
  refine ⟨fun a id => ⟨wf.mem_ancestors_iff.trans wf.above_iff_chain, hdual a id⟩, fun id => ?_, wf.reachable_eq⟩
  refine ⟨hself id, fun hmem => hself id ((hdual id id).mpr hmem), ?_, ?_, ?_, ?_⟩
  · exact nearestFirst_reach (fun _ _ => wf.steps_parents_iff) wf.ids_nodup (fun _ _ h => (wf.chain_mem h).1)
      fun _ _ h => wf.not_chain_zero h
  · exact nearestFirst_reach (fun _ _ => wf.steps_children_iff) wf.ids_nodup (fun _ _ h => (wf.chain_mem h).2)
      fun _ _ h => wf.not_chain_zero h
  · exact StageGraph.explores_reach hparents wf.ids_nodup (hparents id) hseen
  · exact StageGraph.explores_reach hchildren wf.ids_nodup (hchildren id) hseen

end Definition

/-! ### A braid -/

/-- A manifest in which a stage is named twice as a parent, the first stage is a child of all stages but one, and a
    stage without parents is no root. -/
def Manifest.braided : Json :=
  .object [("name", .string "Braided"), ("persona", .string "braided"),
    ("stages", .array [plainEntry "c" ["x", "b", "a"] false,
      .object [("id", .string "e"), ("previous", .array []), ("produces", .array [.string "text"])],
      plainEntry "x" [] false, plainEntry "a" ["x", "x"] false, plainEntry "b" ["a", "e"] false])]

def Definition.braided : Definition where
  header := ⟨"Braided", "braided", "", none, "1.0.0", false, []⟩
  stages := [.plain "c" ["x", "b", "a"] false, { Stage.plain "e" [] false with previous := some [] },
    .plain "x" [] false, .plain "a" ["x", "x"] false, .plain "b" ["a", "e"] false]
  order := ["e", "x", "a", "b", "c"]

theorem Manifest.ofDocument_braided : ofDocument braided = .ok .braided := by cbv

/-- The stage `e` is above the last stage, further off than its parents, and not reached from the root. -/
theorem Definition.ancestors_braided : Manifest.ofDocument Manifest.braided = .ok .braided ∧
    braided.ancestors "c" = ["x", "b", "a", "e"] ∧ braided.descendants "x" = ["c", "a", "b"] ∧
    (∃ n, braided.Chain (n + 1) "e" "c") ∧ "c" ∈ braided.descendants "e" ∧ "c" ∉ braided.ancestors "c" ∧
    NearestFirst (fun n a => braided.Chain n a "c") ["x", "b", "a", "e"] ∧
    NearestFirst (fun n c => braided.Chain n "x" c) ["c", "a", "b"] ∧
    StageGraph.Explores braided.parents [] ["x", "b", "a"] ["x", "b", "a", "e"] ∧
    StageGraph.Explores braided.children [] ["c", "a"] ["c", "a", "b"] ∧
    braided.reachable = ["c", "x", "a", "b"] := by
  have hancestors : braided.ancestors "c" = ["x", "b", "a", "e"] := by cbv
  have hdescendants : braided.descendants "x" = ["c", "a", "b"] := by cbv
  have hroots : braided.rootIds = ["x"] := rfl
  have hreachable : braided.reachable = ["c", "x", "a", "b"] := by
    simp only [reachable, hroots, List.flatMap_cons, List.flatMap_nil, hdescendants]
    rfl
  obtain ⟨hmem, hlists, -⟩ := ancestors_and_descendants Manifest.ofDocument_braided
  obtain ⟨hchain, hdual⟩ := hmem "e" "c"
  obtain ⟨hself, -, habove, -, hloop, -⟩ := hlists "c"
  obtain ⟨-, -, -, hbelow, -, hloop'⟩ := hlists "x"
  have he : "e" ∈ braided.ancestors "c" := by simp [hancestors]
  exact ⟨Manifest.ofDocument_braided, hancestors, hdescendants, hchain.mp he, hdual.mp he, hself, hancestors ▸ habove,
    hdescendants ▸ hbelow, hancestors ▸ hloop, hdescendants ▸ hloop', hreachable⟩

end StageLineage
