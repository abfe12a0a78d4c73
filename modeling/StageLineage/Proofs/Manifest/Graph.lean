import Mathlib.Data.List.MinMax
import Mathlib.Logic.Relation
import StageLineage.Manifest.Graph

/-! What the searches over a stage graph establish. A graph in which no cycle was found has its parents
    rank below their children; in such a graph the order holds every stage once, and in any graph it puts
    parents before children. A breadth-first search finds exactly what chains of steps lead to. -/

namespace StageLineage.StageGraph
variable {g : StageGraph}

theorem mem_parents_iff {p x : String} : p ∈ g.parents x ↔ ⟨p, x⟩ ∈ g.edges := by
  simp only [parents, List.mem_map, List.mem_filter, beq_iff_eq]
  constructor
  · rintro ⟨⟨_, _⟩, ⟨he, rfl⟩, rfl⟩
    exact he
  · exact fun h => ⟨_, ⟨h, rfl⟩, rfl⟩

theorem mem_children_iff {p x : String} : x ∈ g.children p ↔ ⟨p, x⟩ ∈ g.edges := by
  simp only [children, List.mem_map, List.mem_filter, beq_iff_eq]
  constructor
  · rintro ⟨⟨_, _⟩, ⟨he, rfl⟩, rfl⟩
    exact he
  · exact fun h => ⟨_, ⟨h, rfl⟩, rfl⟩

theorem mem_children_iff_mem_parents {p x : String} : x ∈ g.children p ↔ p ∈ g.parents x :=
  mem_children_iff.trans mem_parents_iff.symm

/-! ### The search for cycles -/

theorem mem_of_search {unseen stack finished found : List String} (h : g.search unseen stack finished = .ok found) :
    ∀ x, x ∈ finished ∨ x ∈ stack → x ∈ found := by
  fun_induction search g unseen stack finished with
  | case1 unseen finished =>
    cases h
    exact fun x hx => hx.resolve_right List.not_mem_nil
  | case2 => cases h
  | case3 unseen finished x rest _ _ _ ih =>
    exact fun y hy => ih h y (hy.imp id fun hy => List.mem_append_right _ hy)
  | case4 unseen finished x rest _ ih =>
    intro y hy
    have hx : x ∈ if x ∈ finished then finished else x :: finished := by
      split
      · assumption
      · exact List.mem_cons_self ..
    have hfinished : ∀ z ∈ finished, z ∈ if x ∈ finished then finished else x :: finished := fun z hz => by
      split
      · exact hz
      · exact List.mem_cons_of_mem _ hz
    rcases hy with hy | hy
    · exact ih h y (Or.inl (hfinished y hy))
    · rcases List.mem_cons.mp hy with rfl | hy
      · exact ih h _ (Or.inl hx)
      · exact ih h y (Or.inr hy)

/-- No unseen stage on the stack is its own child. -/
theorem not_mem_children_of_search {unseen stack finished found : List String}
    (h : g.search unseen stack finished = .ok found) : ∀ x ∈ stack, x ∈ unseen → x ∉ g.children x := by
  fun_induction search g unseen stack finished with
  | case1 => exact fun x hx => nomatch hx
  | case2 => cases h
  | case3 unseen finished x rest _ hloop _ ih =>
    intro y hy hunseen
    by_cases hyx : y = x
    · exact hyx ▸ hloop
    · exact ih h y (List.mem_append_right _ hy) ((List.mem_erase_of_ne hyx).mpr hunseen)
  | case4 unseen finished x rest hseen ih =>
    intro y hy hunseen
    rcases List.mem_cons.mp hy with rfl | hy
    · exact absurd hunseen hseen
    · exact ih h y hy hunseen

/-- If no parent stands behind its child, the parents of a stage come before it. -/
theorem mem_of_parentBehind? {x p : String} {after : List String} (hp : p ∈ g.parents x) :
    ∀ {before passed : List String}, g.parentBehind? passed (before ++ x :: after) = none →
      p = x ∨ p ∈ before ∨ p ∈ passed
  | [], passed, h => by
    simp only [List.nil_append, parentBehind?] at h
    split at h
    · cases h
    · next hnone =>
      have := List.find?_eq_none.mp hnone p hp
      simp only [List.mem_cons, not_or, decide_eq_true_eq, Classical.not_and_iff_not_or_not,
        Classical.not_not] at this
      exact this.imp id Or.inr
  | y :: before, passed, h => by
    simp only [List.cons_append, parentBehind?] at h
    split at h
    · cases h
    · rcases mem_of_parentBehind? hp h with hx | hb | hpassed
      · exact Or.inl hx
      · exact Or.inr (Or.inl (List.mem_cons_of_mem _ hb))
      · rcases List.mem_cons.mp hpassed with rfl | hpassed
        · exact Or.inr (Or.inl (List.mem_cons_self ..))
        · exact Or.inr (Or.inr hpassed)

/-- The stages have ranks by which parents stand below their children. -/
def Ranked (g : StageGraph) : Prop := ∃ rank : String → Nat, ∀ x ∈ g.ids, ∀ p ∈ g.parents x, rank p < rank x

/-- A graph in which no cycle is found is ranked: by their places among the finished stages. -/
theorem ranked_of_cycle? (h : g.cycle? = none) : g.Ranked := by
  unfold cycle? at h
  split at h
  · cases h
  · next finished hsearch =>
    refine ⟨fun x => finished.idxOf x, fun x hx p hp => ?_⟩
    have hfinished : x ∈ finished := mem_of_search hsearch x (Or.inr hx)
    have hne : p ≠ x := by
      rintro rfl
      exact not_mem_children_of_search hsearch p hx hx (mem_children_iff_mem_parents.mpr hp)
    obtain ⟨before, after, rfl, hbefore⟩ := List.eq_append_cons_of_mem hfinished
    have hp : p ∈ before := by
      rcases mem_of_parentBehind? hp h with hpx | hb | hnil
      · exact absurd hpx hne
      · exact hb
      · exact absurd hnil List.not_mem_nil
    have hlt := List.idxOf_lt_length_of_mem hp
    show List.idxOf p (before ++ x :: after) < List.idxOf x (before ++ x :: after)
    rw [List.idxOf_append_of_mem hp, List.idxOf_append_of_notMem hbefore]
    omega

/-! ### The order -/

/-- What is placed comes behind its parents. -/
theorem mem_of_place {pending placed before after : List String} {x : String}
    (h : g.place pending placed = before ++ x :: after) : ∀ p ∈ g.parents x, p ∈ before ∨ p ∈ placed := by
  fun_induction place g pending placed generalizing before with
  | case1 => exact absurd h (by simp)
  | case2 pending placed y hfound ih =>
    cases before with
    | nil =>
      obtain ⟨rfl, -⟩ := List.cons.inj h
      have hready : g.isReady placed y = true := List.find?_some hfound
      exact fun p hp => Or.inr (by simpa using List.all_eq_true.mp hready p hp)
    | cons z before =>
      obtain ⟨rfl, htail⟩ := List.cons.inj h
      intro p hp
      rcases ih htail p hp with hb | hplaced
      · exact Or.inl (List.mem_cons_of_mem _ hb)
      · rcases List.mem_cons.mp hplaced with rfl | hplaced
        · exact Or.inl (List.mem_cons_self ..)
        · exact Or.inr hplaced

/-- In a ranked graph some pending stage is ready, as long as parents are pending or placed. -/
theorem exists_isReady (hranked : g.Ranked) {pending placed : List String} (hids : ∀ x ∈ pending, x ∈ g.ids)
    (hparents : ∀ x ∈ pending, ∀ p ∈ g.parents x, p ∈ pending ∨ p ∈ placed) (hne : pending ≠ []) :
    ∃ x ∈ pending, g.isReady placed x = true := by
  obtain ⟨rank, hrank⟩ := hranked
  cases hmin : pending.argmin rank with
  | none => exact absurd (List.argmin_eq_none.mp hmin) hne
  | some x =>
    have hx : x ∈ pending := List.argmin_mem hmin
    refine ⟨x, hx, List.all_eq_true.mpr fun p hp => ?_⟩
    rcases hparents x hx p hp with hpending | hplaced
    · have hle : rank x ≤ rank p := List.le_of_mem_argmin hpending hmin
      have hlt : rank p < rank x := hrank x (hids x hx) p hp
      omega
    · simpa using hplaced

/-- In a ranked graph every pending stage is placed, and placed once. -/
theorem place_perm (hranked : g.Ranked) {pending placed : List String} (hids : ∀ x ∈ pending, x ∈ g.ids)
    (hparents : ∀ x ∈ pending, ∀ p ∈ g.parents x, p ∈ pending ∨ p ∈ placed) :
    (g.place pending placed).Perm pending := by
  fun_induction place g pending placed with
  | case1 pending placed hnone =>
    by_cases hne : pending = []
    · rw [hne]
    · obtain ⟨x, hx, hready⟩ := exists_isReady hranked hids hparents hne
      exact absurd hready (List.find?_eq_none.mp hnone x hx)
  | case2 pending placed x hfound ih =>
    have hx : x ∈ pending := List.mem_of_find?_eq_some hfound
    have htail := ih (fun y hy => hids y (List.mem_of_mem_erase hy)) fun y hy p hp => by
      rcases hparents y (List.mem_of_mem_erase hy) p hp with hpending | hplaced
      · by_cases hpx : p = x
        · exact Or.inr (hpx ▸ List.mem_cons_self ..)
        · exact Or.inl ((List.mem_erase_of_ne hpx).mpr hpending)
      · exact Or.inr (List.mem_cons_of_mem _ hplaced)
    exact (htail.cons x).trans (List.perm_cons_erase hx).symm

/-- An order holds every stage once, if the parents of the stages are stages. -/
theorem perm_of_order {order : List String} (h : g.order = .ok order)
    (hparents : ∀ x ∈ g.ids, ∀ p ∈ g.parents x, p ∈ g.ids) : order.Perm g.ids := by
  unfold StageGraph.order at h
  split at h
  · cases h
  · next hcycle =>
    cases h
    exact place_perm (ranked_of_cycle? hcycle) (fun _ hx => hx) fun x hx p hp => Or.inl (hparents x hx p hp)

/-- An order puts parents before their children. -/
theorem mem_of_order {before after : List String} {x : String} (h : g.order = .ok (before ++ x :: after)) :
    ∀ p ∈ g.parents x, p ∈ before := by
  unfold StageGraph.order at h
  split at h
  · cases h
  · exact fun p hp => (mem_of_place (Except.ok.inj h) p hp).resolve_right List.not_mem_nil

/-! ### Reachability -/

/-- What steps of `next` lead to from some members of `within`, without leaving them. -/
inductive Reached (next : String → List String) (within queue : List String) : String → Prop
  | seed {x} : x ∈ queue → x ∈ within → Reached next within queue x
  | step {x y} : Reached next within queue x → y ∈ next x → y ∈ within → Reached next within queue y

theorem Reached.mem {next : String → List String} {within queue : List String} {x : String}
    (h : Reached next within queue x) : x ∈ within := by
  cases h <;> assumption

/-- A search that took `x` goes on with its successors, and need not come back to it. -/
theorem reached_cons_iff {next : String → List String} {within queue : List String} {x : String}
    (hx : x ∈ within) {y : String} :
    Reached next within (x :: queue) y ↔ y = x ∨ Reached next (within.erase x) (queue ++ next x) y := by
  constructor
  · intro h
    induction h with
    | @seed y hy hwithin =>
      by_cases hyx : y = x
      · exact Or.inl hyx
      · refine Or.inr (.seed ?_ ((List.mem_erase_of_ne hyx).mpr hwithin))
        exact List.mem_append_left _ ((List.mem_cons.mp hy).resolve_left hyx)
    | @step z y _ hstep hwithin ih =>
      by_cases hyx : y = x
      · exact Or.inl hyx
      · refine Or.inr ?_
        have hy : y ∈ within.erase x := (List.mem_erase_of_ne hyx).mpr hwithin
        rcases ih with rfl | ih
        · exact .seed (List.mem_append_right _ hstep) hy
        · exact .step ih hstep hy
  · rintro (rfl | h)
    · exact .seed (List.mem_cons_self ..) hx
    · induction h with
      | @seed y hy hwithin =>
        have hwithin := List.mem_of_mem_erase hwithin
        rcases List.mem_append.mp hy with hy | hy
        · exact .seed (List.mem_cons_of_mem _ hy) hwithin
        · exact .step (.seed (List.mem_cons_self ..) hx) hy hwithin
      | @step z y _ hstep hwithin ih => exact .step ih hstep (List.mem_of_mem_erase hwithin)

/-- What does not lie within leads nowhere. -/
theorem reached_cons_iff_of_notMem {next : String → List String} {within queue : List String} {x : String}
    (hx : x ∉ within) {y : String} : Reached next within (x :: queue) y ↔ Reached next within queue y := by
  constructor
  · intro h
    induction h with
    | @seed y hy hwithin =>
      rcases List.mem_cons.mp hy with rfl | hy
      · exact absurd hwithin hx
      · exact .seed hy hwithin
    | step _ hstep hwithin ih => exact .step ih hstep hwithin
  · intro h
    induction h with
    | seed hy hwithin => exact .seed (List.mem_cons_of_mem _ hy) hwithin
    | step _ hstep hwithin ih => exact .step ih hstep hwithin

theorem not_reached_nil {next : String → List String} {within : List String} {y : String} :
    ¬ Reached next within [] y := by
  intro h
  induction h with
  | seed hy _ => exact List.not_mem_nil hy
  | step _ _ _ ih => exact ih

theorem mem_reach_iff {next : String → List String} {within queue : List String} {y : String} :
    y ∈ reach next within queue ↔ Reached next within queue y := by
  fun_induction reach next within queue with
  | case1 => simp [not_reached_nil]
  | case2 within x rest hx ih => rw [List.mem_cons, ih, reached_cons_iff hx]
  | case3 within x rest hx ih => rw [ih, reached_cons_iff_of_notMem hx]

end StageLineage.StageGraph
