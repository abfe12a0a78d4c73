import StageLineage.Proofs.Manifest.Graph

/-! The search for cycles. A stage that was seen waits on the stack, below the children that are still to be
    searched, and is finished after them. So a child that is not finished before its parent leads back to it,
    and in a graph without cycles the finished stages, the last one first, have parents before children. Walking
    back over them, the first parent that is found behind its child lies on a cycle. -/

namespace StageLineage.StageGraph
variable {g : StageGraph} {unseen stack finished rest : List String} {x : String}

/-- Going from parents to children leads from one stage to another. -/
def Leads (g : StageGraph) : String → String → Prop := Relation.TransGen fun x y => y ∈ g.children x

def Acyclic (g : StageGraph) : Prop := ∀ x, ¬ g.Leads x x

/-- All edges join stages of the graph. -/
def Within (g : StageGraph) : Prop := ∀ x, ∀ c ∈ g.children x, x ∈ g.ids ∧ c ∈ g.ids

/-- The children of each finished stage were finished before it or lead back to it. -/
def Closed (g : StageGraph) (finished : List String) : Prop :=
  ∀ before x after, finished = before ++ x :: after → ∀ c ∈ g.children x, c ∈ after ∨ g.Leads c x

/-- A stage that was seen and is not finished leads to all that lies above its uppermost place on the stack, and
    its children are finished, lie there, or lead back to it. -/
def Waiting (g : StageGraph) (unseen stack finished : List String) : Prop :=
  ∀ above y below, stack = above ++ y :: below → y ∉ above → y ∉ unseen → y ∉ finished →
    (∀ c ∈ g.children y, c ∈ finished ∨ c ∈ above ∨ g.Leads c y) ∧ ∀ z ∈ above, g.Leads y z

/-- What a step of the search keeps. -/
structure Searching (g : StageGraph) (unseen stack finished : List String) : Prop where
  unseen_nodup : unseen.Nodup
  finished_nodup : finished.Nodup
  met : ∀ x ∈ g.ids, x ∈ stack ∨ x ∈ finished
  closed : g.Closed finished
  waiting : g.Waiting unseen stack finished

/-! ### Steps -/

/-- The children of a stage that is seen for the first time go on top of it. -/
theorem Searching.waiting_expand (hwithin : g.Within) (h : g.Searching unseen (x :: rest) finished) :
    g.Waiting (unseen.erase x) ((g.children x).filter (· ∈ unseen.erase x) ++ x :: rest) finished := by
  intro above y below hstack hy hunseen hfinished
  -- The stage itself: what of its children is neither unseen nor finished lies deeper on the stack and waits.
  have hself : (∀ c ∈ g.children x, c ∈ finished ∨ c ∈ (g.children x).filter (· ∈ unseen.erase x) ∨ g.Leads c x) ∧
      ∀ z ∈ (g.children x).filter (· ∈ unseen.erase x), g.Leads x z := by
    refine ⟨fun c hc => ?_, fun z hz => .single (List.mem_filter.mp hz).1⟩
    by_cases hcunseen : c ∈ unseen.erase x
    · exact Or.inr (Or.inl (List.mem_filter.mpr ⟨hc, by simpa using hcunseen⟩))
    by_cases hcx : c = x
    · exact Or.inr (Or.inr (hcx ▸ .single (hcx ▸ hc)))
    by_cases hcfinished : c ∈ finished
    · exact Or.inl hcfinished
    have hcseen : c ∉ unseen := fun hmem => hcunseen ((List.mem_erase_of_ne hcx).mpr hmem)
    have hcrest : c ∈ rest :=
      (List.mem_cons.mp ((h.met c (hwithin x c hc).2).resolve_right hcfinished)).resolve_left hcx
    obtain ⟨first, last, rfl, hfirst⟩ := List.eq_append_cons_of_mem hcrest
    have hwaits := h.waiting (x :: first) c last rfl (by simp [hcx, hfirst]) hcseen hcfinished
    exact Or.inr (Or.inr (hwaits.2 x (List.mem_cons_self ..)))
  have hnotchild : y ∉ (g.children x).filter (· ∈ unseen.erase x) := fun hmem =>
    hunseen (by simpa using (List.mem_filter.mp hmem).2)
  rcases List.append_eq_append_iff.mp hstack.symm with ⟨more, habove, hbelow⟩ | ⟨more, habove, hbelow⟩
  · cases more with
    | nil =>
      obtain ⟨rfl, -⟩ := List.cons.inj hbelow
      rw [List.append_nil] at habove
      exact habove ▸ hself
    | cons z more =>
      obtain ⟨rfl, -⟩ := List.cons.inj hbelow
      exact absurd (by simp [habove]) hnotchild
  · cases more with
    | nil =>
      obtain ⟨rfl, -⟩ := List.cons.inj hbelow
      rw [List.append_nil] at habove
      exact habove ▸ hself
    | cons z more =>
      obtain ⟨rfl, rfl⟩ := List.cons.inj hbelow
      -- A stage that waits deeper down also waits for what lies above the stage that is seen now.
      have hyabove : y ∉ x :: more := fun hmem => hy (habove ▸ List.mem_append_right _ hmem)
      have hyx : y ≠ x := fun heq => hyabove (heq ▸ List.mem_cons_self ..)
      have hseen : y ∉ unseen := fun hmem => hunseen ((List.mem_erase_of_ne hyx).mpr hmem)
      obtain ⟨hchildren, hleads⟩ := h.waiting (x :: more) y below rfl hyabove hseen hfinished
      subst habove
      refine ⟨fun c hc => ?_, fun z hz => ?_⟩
      · rcases hchildren c hc with hc | hc | hc
        · exact Or.inl hc
        · exact Or.inr (Or.inl (List.mem_append_right _ hc))
        · exact Or.inr (Or.inr hc)
      · rcases List.mem_append.mp hz with hz | hz
        · exact (hleads x (List.mem_cons_self ..)).tail (List.mem_filter.mp hz).1
        · exact hleads z hz

theorem Searching.expand (hwithin : g.Within) (h : g.Searching unseen (x :: rest) finished) :
    g.Searching (unseen.erase x) ((g.children x).filter (· ∈ unseen.erase x) ++ x :: rest) finished where
  unseen_nodup := h.unseen_nodup.erase x
  finished_nodup := h.finished_nodup
  met y hy := (h.met y hy).imp_left (List.mem_append_right _)
  closed := h.closed
  waiting := h.waiting_expand hwithin

/-- A stage that leaves the stack has been finished. -/
theorem Waiting.pop (h : g.Waiting unseen (x :: rest) finished) {finished' : List String} (hx : x ∈ finished')
    (hsubset : ∀ y ∈ finished, y ∈ finished') : g.Waiting unseen rest finished' := by
  rintro above y below rfl hy hseen hfinished
  have hyx : y ≠ x := fun heq => hfinished (heq ▸ hx)
  obtain ⟨hchildren, hleads⟩ := h (x :: above) y below rfl (by simp [hyx, hy]) hseen fun hmem =>
    hfinished (hsubset y hmem)
  refine ⟨fun c hc => ?_, fun z hz => hleads z (List.mem_cons_of_mem _ hz)⟩
  rcases hchildren c hc with hc | hc | hc
  · exact Or.inl (hsubset c hc)
  · rcases List.mem_cons.mp hc with rfl | hc
    · exact Or.inl hx
    · exact Or.inr (Or.inl hc)
  · exact Or.inr (Or.inr hc)

/-- A stage that nothing lies above on the stack can be finished. -/
theorem Searching.closed_cons (h : g.Searching unseen (x :: rest) finished) (hx : x ∉ unseen) (hfinished : x ∉ finished) :
    g.Closed (x :: finished) := by
  intro before y after heq c hc
  cases before with
  | nil =>
    obtain ⟨rfl, rfl⟩ := List.cons.inj heq
    have hwaits := (h.waiting [] x rest rfl List.not_mem_nil hx hfinished).1 c hc
    exact hwaits.imp_right (·.resolve_left List.not_mem_nil)
  | cons z before => exact h.closed before y after (List.cons.inj heq).2 c hc

theorem Searching.pop (h : g.Searching unseen (x :: rest) finished) (hx : x ∉ unseen) :
    g.Searching unseen rest (if x ∈ finished then finished else x :: finished) := by
  have hmet : ∀ {finished' : List String}, x ∈ finished' → (∀ y ∈ finished, y ∈ finished') →
      ∀ y ∈ g.ids, y ∈ rest ∨ y ∈ finished' := fun hx hsubset y hy => by
    rcases h.met y hy with hstack | hfinished
    · rcases List.mem_cons.mp hstack with rfl | hrest
      · exact Or.inr hx
      · exact Or.inl hrest
    · exact Or.inr (hsubset y hfinished)
  split
  · next hfinished =>
    exact ⟨h.unseen_nodup, h.finished_nodup, hmet hfinished fun _ hy => hy, h.closed,
      h.waiting.pop hfinished fun _ hy => hy⟩
  · next hfinished =>
    have hsubset : ∀ y ∈ finished, y ∈ x :: finished := fun _ => List.mem_cons_of_mem _
    exact ⟨h.unseen_nodup, List.nodup_cons.mpr ⟨hfinished, h.finished_nodup⟩, hmet (List.mem_cons_self ..) hsubset,
      h.closed_cons hx hfinished, h.waiting.pop (List.mem_cons_self ..) hsubset⟩

/-! ### The whole search -/

theorem closed_of_search (hwithin : g.Within) (hsearching : g.Searching unseen stack finished) {found : List String}
    (h : g.search unseen stack finished = .ok found) : found.Nodup ∧ g.Closed found := by
  fun_induction search g unseen stack finished with
  | case1 =>
    cases h
    exact ⟨hsearching.finished_nodup, hsearching.closed⟩
  | case2 => cases h
  | case3 _ _ _ _ _ _ _ ih => exact ih (hsearching.expand hwithin) h
  | case4 _ _ _ _ hseen ih => exact ih (hsearching.pop hseen) h

/-- Only a stage that is its own child ends the search early. -/
theorem mem_children_of_search_error (h : g.search unseen stack finished = .error x) : x ∈ g.children x := by
  fun_induction search g unseen stack finished with
  | case1 => cases h
  | case2 _ _ _ _ _ hloop =>
    cases h
    exact hloop
  | case3 _ _ _ _ _ _ _ ih => exact ih h
  | case4 _ _ _ _ _ ih => exact ih h

theorem searching_ids (hnodup : g.ids.Nodup) : g.Searching g.ids g.ids [] where
  unseen_nodup := hnodup
  finished_nodup := .nil
  met _ hx := Or.inl hx
  closed before x after h := absurd h (by simp)
  waiting above y below h _ hseen := absurd (h ▸ by simp : y ∈ g.ids) hseen

/-- If parents come before their children, none is found to stand behind. -/
theorem parentBehind?_eq_none {passed : List String} : ∀ {stages : List String},
    (∀ before x after, stages = before ++ x :: after → ∀ p ∈ g.parents x, p = x ∨ p ∈ before ∨ p ∈ passed) →
      g.parentBehind? passed stages = none
  | [], _ => rfl
  | x :: rest, h => by
    have hnone : (g.parents x).find? (· ∉ x :: passed) = none := by
      rw [List.find?_eq_none]
      intro p hp
      have hpassed : p ∈ x :: passed :=
        List.mem_cons.mpr ((h [] x rest rfl p hp).imp_right (·.resolve_left List.not_mem_nil))
      simp [hpassed]
    rw [parentBehind?, hnone]
    refine parentBehind?_eq_none fun before y after heq p hp => ?_
    rcases h (x :: before) y after (by rw [heq]; rfl) p hp with hpy | hbefore | hpassed
    · exact Or.inl hpy
    · rcases List.mem_cons.mp hbefore with rfl | hbefore
      · exact Or.inr (Or.inr (List.mem_cons_self ..))
      · exact Or.inr (Or.inl hbefore)
    · exact Or.inr (Or.inr (List.mem_cons_of_mem _ hpassed))

theorem Ranked.acyclic (hwithin : g.Within) (h : g.Ranked) : g.Acyclic := by
  obtain ⟨rank, hrank⟩ := h
  have hlt : ∀ {x y}, g.Leads x y → rank x < rank y := fun hleads => by
    induction hleads with
    | single hc => exact hrank _ (hwithin _ _ hc).2 _ (mem_children_iff_mem_parents.mp hc)
    | tail _ hc ih => exact ih.trans (hrank _ (hwithin _ _ hc).2 _ (mem_children_iff_mem_parents.mp hc))
  exact fun x hx => Nat.lt_irrefl _ (hlt hx)

/-- A parent that stands behind its child was finished first, so the child leads back to it. -/
theorem Closed.leads_back {found before after : List String} {p : String} (hclosed : g.Closed found)
    (hnodup : found.Nodup) (hfound : found = before ++ x :: after) (hp : p ∈ after) (hchild : x ∈ g.children p) :
    g.Leads x p := by
  obtain ⟨first, last, rfl⟩ := List.append_of_mem hp
  rcases hclosed (before ++ x :: first) p last (by simp [hfound]) x hchild with hlast | hleads
  · rw [hfound] at hnodup
    have hdistinct := (List.nodup_cons.mp (List.nodup_append.mp hnodup).2.1).1
    exact absurd (by simp [hlast]) hdistinct
  · exact hleads

/-- A cycle is found exactly if there is one. -/
theorem cycle?_eq_none_iff (hnodup : g.ids.Nodup) (hwithin : g.Within) : g.cycle? = none ↔ g.Acyclic := by
  refine ⟨fun h => (ranked_of_cycle? h).acyclic hwithin, fun hacyclic => ?_⟩
  unfold cycle?
  split
  · next x hsearch => exact absurd (.single (mem_children_of_search_error hsearch)) (hacyclic x)
  · next found hsearch =>
    obtain ⟨hfound, hclosed⟩ := closed_of_search hwithin (searching_ids hnodup) hsearch
    refine parentBehind?_eq_none fun before x after heq p hp => ?_
    have hchild := mem_children_iff_mem_parents.mpr hp
    have hpfound : p ∈ found := mem_of_search hsearch p (Or.inr (hwithin p x hchild).1)
    rw [heq] at hpfound
    rcases List.mem_append.mp hpfound with hbefore | hafter
    · exact Or.inr (Or.inl hbefore)
    rcases List.mem_cons.mp hafter with hpx | hafter
    · exact Or.inl hpx
    · exact absurd ((hclosed.leads_back hfound heq hafter hchild).tail hchild) (hacyclic x)

theorem exists_order_iff (hnodup : g.ids.Nodup) (hwithin : g.Within) : (∃ order, g.order = .ok order) ↔ g.Acyclic := by
  rw [← cycle?_eq_none_iff hnodup hwithin, order]
  cases g.cycle? <;> simp

/-! ### The stage that is named -/

/-- The parent that is found stands behind its child. -/
theorem exists_of_parentBehind? {p : String} : ∀ {passed stages : List String},
    g.parentBehind? passed stages = some p →
      ∃ before x after, stages = before ++ x :: after ∧ p ∈ g.parents x ∧ p ≠ x ∧ p ∉ before ∧ p ∉ passed
  | _, [], h => nomatch h
  | passed, x :: rest, h => by
    rw [parentBehind?] at h
    split at h
    · next parent hfind =>
      cases h
      have hp : p ∉ x :: passed := by simpa using List.find?_some hfind
      exact ⟨[], x, rest, rfl, List.mem_of_find?_eq_some hfind, List.ne_of_not_mem_cons hp, List.not_mem_nil,
        List.not_mem_of_not_mem_cons hp⟩
    · obtain ⟨before, y, after, rfl, hparent, hpy, hbefore, hpassed⟩ := exists_of_parentBehind? h
      refine ⟨x :: before, y, after, rfl, hparent, hpy, ?_, List.not_mem_of_not_mem_cons hpassed⟩
      exact List.not_mem_cons_of_ne_of_not_mem (List.ne_of_not_mem_cons hpassed) hbefore

theorem leads_of_cycle? (hnodup : g.ids.Nodup) (hwithin : g.Within) (h : g.cycle? = some x) : g.Leads x x := by
  unfold cycle? at h
  split at h
  · next hsearch =>
    cases h
    exact .single (mem_children_of_search_error hsearch)
  · next found hsearch =>
    obtain ⟨hfound, hclosed⟩ := closed_of_search hwithin (searching_ids hnodup) hsearch
    obtain ⟨before, child, after, heq, hparent, hne, hbefore, -⟩ := exists_of_parentBehind? h
    have hchild := mem_children_iff_mem_parents.mpr hparent
    have hafter : x ∈ after := by
      have hmem : x ∈ found := mem_of_search hsearch x (Or.inr (hwithin x child hchild).1)
      simpa [heq, hbefore, hne] using hmem
    exact .head hchild (hclosed.leads_back hfound heq hafter hchild)

/-- An order is refused exactly if some stage leads back to itself, and the stage that is named then does. -/
theorem order_error_iff_cycle (hnodup : g.ids.Nodup) (hedges : ∀ e ∈ g.edges, e.parent ∈ g.ids ∧ e.child ∈ g.ids) :
    ((∃ x, g.order = .error x) ↔ ∃ x, g.Leads x x) ∧ ∀ x, g.order = .error x → g.Leads x x := by
  have hwithin : g.Within := fun x c hc => hedges ⟨x, c⟩ (mem_children_iff.mp hc)
  have hnamed : ∀ x, g.order = .error x → g.Leads x x := fun x h => by
    unfold order at h
    split at h
    · next hcycle =>
      cases h
      exact leads_of_cycle? hnodup hwithin hcycle
    · cases h
  refine ⟨⟨fun ⟨x, h⟩ => ⟨x, hnamed x h⟩, fun ⟨x, h⟩ => ?_⟩, hnamed⟩
  cases horder : g.order with
  | error y => exact ⟨y, rfl⟩
  | ok order => exact absurd h ((exists_order_iff hnodup hwithin).mp ⟨order, horder⟩ x)

/-- A cycle of two stages that one stage leads into, by two edges, and one out of. -/
def tangled : StageGraph where
  ids := ["seed", "leaf", "a", "b"]
  edges := [⟨"seed", "a"⟩, ⟨"a", "b"⟩, ⟨"seed", "a"⟩, ⟨"b", "leaf"⟩, ⟨"b", "a"⟩]

/-- Neither the stage that leads in nor the one that is led to is named. -/
theorem leads_tangled : tangled.order = .error "b" ∧ tangled.Leads "b" "b" :=
  have horder : tangled.order = .error "b" := by cbv
  ⟨horder, (order_error_iff_cycle (by decide) (by decide)).2 "b" horder⟩

/-! ### Walks back -/

/-- The stage a walk back over the edges meets next, and the stack after it. Stages that were marked leave the
    stack; the parents of the stage that is met go on top of it, unless they are marked. -/
def meet? (g : StageGraph) (marked : List String) : List String → Option (String × List String)
  | [] => none
  | x :: rest =>
    if x ∈ marked then meet? g marked rest
    else some (x, (g.parents x).filter (· ∉ x :: marked) ++ rest)

/-- A walk back from each stage in turn, over marks that all walks share, up to the first walk that meets a second
    stage. -/
def walks? (g : StageGraph) (marked : List String) : List String → Option String
  | [] => none
  | x :: rest =>
    match g.meet? marked [x] with
    | none => walks? g marked rest
    | some (y, stack) =>
      match g.meet? (y :: marked) stack with
      | some (z, _) => some z
      | none => walks? g (y :: marked) rest

/-- What a walk meets next is the first stage on its stack without a mark. -/
theorem map_meet? {marked : List String} : (g.meet? marked stack).map (·.1) = stack.find? (· ∉ marked) := by
  fun_induction meet? g marked stack with
  | case1 => rfl
  | case2 x rest hmarked ih => rw [ih, List.find?_cons_of_neg (by simpa using hmarked)]
  | case3 x rest hmarked => rw [List.find?_cons_of_pos (by simpa using hmarked), Option.map_some]

/-- From a stage without a mark the second stage of a walk is its first parent without one. Over stages that are
    listed once, the walks stop where the first parent stands behind its child. -/
theorem walks?_eq_parentBehind? : ∀ {marked stages : List String}, stages.Nodup → (∀ x ∈ stages, x ∉ marked) →
    g.walks? marked stages = g.parentBehind? marked stages
  | _, [], _, _ => rfl
  | marked, x :: rest, hnodup, hunmarked => by
    obtain ⟨hx, hrest⟩ := List.nodup_cons.mp hnodup
    have hfirst : g.meet? marked [x] = some (x, (g.parents x).filter (· ∉ x :: marked) ++ []) := by
      rw [meet?, if_neg (hunmarked x (List.mem_cons_self ..))]
    have hsecond : (g.meet? (x :: marked) ((g.parents x).filter (· ∉ x :: marked) ++ [])).map (·.1) =
        (g.parents x).find? (· ∉ x :: marked) := by
      rw [map_meet?, List.append_nil, List.find?_filter]
      simp only [decide_eq_true_eq, and_self]
    have hnext : g.walks? (x :: marked) rest = g.parentBehind? (x :: marked) rest :=
      walks?_eq_parentBehind? hrest fun y hy => List.not_mem_cons_of_ne_of_not_mem (fun heq => hx (heq ▸ hy))
        (hunmarked y (List.mem_cons_of_mem _ hy))
    rw [walks?, hfirst, parentBehind?, ← hsecond]
    dsimp only
    cases g.meet? (x :: marked) ((g.parents x).filter (· ∉ x :: marked) ++ []) with
    | none => exact hnext
    | some met => rfl

/-- The cycle that is found is the one of the two passes: the search, then the walks back over what it finished. -/
theorem cycle?_eq_walks? (hnodup : g.ids.Nodup) (hwithin : g.Within) :
    g.cycle? = match g.search g.ids g.ids [] with
      | .error x => some x
      | .ok finished => g.walks? [] finished := by
  unfold cycle?
  cases hsearch : g.search g.ids g.ids [] with
  | error x => rfl
  | ok found =>
    have hfound := (closed_of_search hwithin (searching_ids hnodup) hsearch).1
    exact (walks?_eq_parentBehind? hfound fun _ _ => List.not_mem_nil).symm

end StageLineage.StageGraph
