import Mathlib.Data.List.Lex
import StageLineage.Proofs.Manifest.Cycle

/-! The order of the stages. It takes, place by place, the first declared stage among those whose parents stand
    before it, so that of all lists that hold every stage once and lead no edge back it is the least one by places
    in the declaration. The same stages come out of a loop that counts edges: it knows how many edges lead to each
    stage from stages that are not placed, keeps the stages ready that no such edge leads to, and takes the edges
    of each stage that it places away one by one. -/

namespace StageLineage.StageGraph
variable {g : StageGraph} {pending placed : List String} {x : String}

/-- A list holds every stage once, and each edge goes from an earlier place in it to a later one. -/
structure IsTopological (g : StageGraph) (order : List String) : Prop where
  perm : order.Perm g.ids
  idxOf_lt : ∀ e ∈ g.edges, order.idxOf e.parent < order.idxOf e.child

/-- The place of a stage in the declaration. -/
def index (g : StageGraph) (id : String) : Nat := g.ids.idxOf id

/-- Each stage of a list is ready once the stages before it are placed. -/
def Legal (g : StageGraph) (placed : List String) : List String → Prop
  | [] => True
  | x :: rest => g.isReady placed x = true ∧ Legal g (x :: placed) rest

theorem isReady_iff : g.isReady placed x = true ↔ ∀ p ∈ g.parents x, p ∈ placed := by
  simp [isReady]

theorem pairwise_idxOf {l : List String} (h : l.Nodup) : l.Pairwise fun a b => l.idxOf a < l.idxOf b := by
  rw [List.pairwise_iff_getElem]
  intro i j hi hj hij
  rwa [h.idxOf_getElem, h.idxOf_getElem]

theorem within_iff : g.Within ↔ ∀ e ∈ g.edges, e.parent ∈ g.ids ∧ e.child ∈ g.ids :=
  ⟨fun h e he => h e.parent e.child (mem_children_iff.mpr he), fun h x c hc => h ⟨x, c⟩ (mem_children_iff.mp hc)⟩

/-! ### The least order -/

theorem IsTopological.legal (hnodup : g.ids.Nodup) {order : List String} (h : g.IsTopological order) :
    g.Legal [] order := by
  have hordered := pairwise_idxOf (h.perm.nodup_iff.mpr hnodup)
  -- Along the list: the parents of the next stage come earlier, so they are placed.
  have along : ∀ after before : List String, order = before.reverse ++ after → g.Legal before after := by
    intro after
    induction after with
    | nil => exact fun _ _ => trivial
    | cons x after ih =>
      intro before heq
      refine ⟨isReady_iff.mpr fun p hp => ?_, ih (x :: before) (by simp [heq])⟩
      have hlt := h.idxOf_lt ⟨p, x⟩ (mem_parents_iff.mp hp)
      have hmem : p ∈ order := List.idxOf_lt_length_iff.mp (hlt.trans_le List.idxOf_le_length)
      rw [heq] at hordered hmem
      rcases List.mem_append.mp hmem with hbefore | hafter
      · exact List.mem_reverse.mp hbefore
      · have hbehind := (List.pairwise_append.mp hordered).2.1
        rw [← heq] at hbehind
        rcases List.mem_cons.mp hafter with rfl | hafter
        · exact absurd hlt (Nat.lt_irrefl _)
        · exact absurd hlt (Nat.lt_asymm ((List.pairwise_cons.mp hbehind).1 p hafter))
  exact along order [] rfl

/-- The first stage that is ready was declared before any other one. -/
theorem lt_of_find? (hordered : pending.Pairwise fun a b => g.index a < g.index b)
    (hfound : pending.find? (g.isReady placed) = some x) {y : String} (hy : y ∈ pending)
    (hready : g.isReady placed y = true) (hyx : y ≠ x) : g.index x < g.index y := by
  obtain ⟨-, before, after, rfl, hbefore⟩ := List.find?_eq_some_iff_append.mp hfound
  rcases List.mem_append.mp hy with hmem | hmem
  · exact absurd hready (by simpa using hbefore y hmem)
  · have hafter : y ∈ after := (List.mem_cons.mp hmem).resolve_left hyx
    exact (List.pairwise_cons.mp (List.pairwise_append.mp hordered).2.1).1 y hafter

/-- Any other legal list of the pending stages is greater, at the first place at which it differs. -/
theorem place_lt_of_legal (hordered : pending.Pairwise fun a b => g.index a < g.index b) {other : List String}
    (hperm : other.Perm pending) (hlegal : g.Legal placed other) (hne : other ≠ g.place pending placed) :
    (g.place pending placed).map g.index < other.map g.index := by
  fun_induction place g pending placed generalizing other with
  | case1 pending placed hnone =>
    cases other with
    | nil => exact absurd rfl hne
    | cons y rest =>
      exact absurd hlegal.1 (List.find?_eq_none.mp hnone y (hperm.subset (List.mem_cons_self ..)))
  | case2 pending placed x hfound ih =>
    cases other with
    | nil => exact absurd (hperm.symm.subset (List.mem_of_find?_eq_some hfound)) List.not_mem_nil
    | cons y rest =>
      by_cases hyx : y = x
      · subst hyx
        have hrest : rest.Perm (pending.erase y) := by simpa using hperm.erase y
        exact List.Lex.cons (ih (hordered.sublist List.erase_sublist) hrest hlegal.2 fun heq => hne (by rw [heq]))
      · exact List.Lex.rel (lt_of_find? hordered hfound (hperm.subset (List.mem_cons_self ..)) hlegal.1 hyx)

/-! ### Counting edges -/

/-- What a loop over ready stages knows. -/
structure EdgeCount where
  /-- How many edges lead to a stage from stages that are not placed. -/
  degree : String → Nat
  /-- The stages that are not placed and that no such edge leads to. -/
  ready : List String

/-- Takes one edge to a stage away, which makes the stage ready if it was the last one. There has to be one. -/
def EdgeCount.lower? (c : EdgeCount) (x : String) : Option EdgeCount :=
  if c.degree x = 0 then none
  else some ⟨fun y => if y = x then c.degree x - 1 else c.degree y, if c.degree x = 1 then x :: c.ready else c.ready⟩

/-- At first all edges count. -/
def edgeCount (g : StageGraph) : EdgeCount where
  degree x := (g.parents x).length
  ready := g.ids.filter fun x => (g.parents x).isEmpty

/-- The stages that the loop places: each time the ready stage that was declared first, of which the edges are
    taken away then, until no stage is ready. -/
inductive Emits (g : StageGraph) : EdgeCount → List String → Prop
  | done {degree : String → Nat} : Emits g ⟨degree, []⟩ []
  | next {c c' : EdgeCount} {x : String} {rest : List String} : x ∈ c.ready →
      (∀ y ∈ c.ready, g.index x ≤ g.index y) →
      (g.children x).foldlM EdgeCount.lower? ⟨c.degree, c.ready.erase x⟩ = some c' → Emits g c' rest →
      Emits g c (x :: rest)

/-- No stage is ready to which an edge leads, and none is ready twice. -/
structure EdgeCount.Settled (c : EdgeCount) : Prop where
  degree_ready : ∀ y ∈ c.ready, c.degree y = 0
  ready_nodup : c.ready.Nodup

theorem EdgeCount.Settled.lower? {c : EdgeCount} (h : c.Settled) (hpos : c.degree x ≠ 0) :
    ∃ c', c.lower? x = some c' ∧ c'.Settled ∧ (∀ y, c'.degree y = if y = x then c.degree x - 1 else c.degree y) ∧
      ∀ y, y ∈ c'.ready ↔ y ∈ c.ready ∨ y = x ∧ c.degree x = 1 := by
  have hx : x ∉ c.ready := fun hmem => hpos (h.degree_ready x hmem)
  have hother : ∀ y ∈ c.ready, y ≠ x := fun y hy heq => hx (heq ▸ hy)
  refine ⟨_, if_neg hpos, ?_, fun _ => rfl, fun y => ?_⟩
  · by_cases hone : c.degree x = 1
    · simp only [hone, if_true]
      refine ⟨fun y hy => ?_, List.nodup_cons.mpr ⟨hx, h.ready_nodup⟩⟩
      rcases List.mem_cons.mp hy with rfl | hy
      · exact if_pos rfl
      · exact (if_neg (hother y hy)).trans (h.degree_ready y hy)
    · simp only [hone, if_false]
      exact ⟨fun y hy => (if_neg (hother y hy)).trans (h.degree_ready y hy), h.ready_nodup⟩
  · by_cases hone : c.degree x = 1 <;> simp [hone, or_comm]

/-- Taking the edges away one by one takes them away at once, as long as there are enough of them. -/
theorem EdgeCount.Settled.foldlM_lower? {c : EdgeCount} {xs : List String} (h : c.Settled)
    (hcount : ∀ y, xs.count y ≤ c.degree y) :
    ∃ c', xs.foldlM EdgeCount.lower? c = some c' ∧ c'.Settled ∧ (∀ y, c'.degree y = c.degree y - xs.count y) ∧
      ∀ y, y ∈ c'.ready ↔ y ∈ c.ready ∨ y ∈ xs ∧ c.degree y = xs.count y := by
  induction xs generalizing c with
  | nil => exact ⟨c, rfl, h, by simp, by simp⟩
  | cons x xs ih =>
    have hx : xs.count x + 1 ≤ c.degree x := by simpa using hcount x
    obtain ⟨c₁, hlower, hsettled, hdegree, hready⟩ := h.lower? (x := x) (by omega)
    have hrest : ∀ y, xs.count y ≤ c₁.degree y := fun y => by
      have hy := hcount y
      rw [hdegree]
      split
      · next heq =>
        subst heq
        omega
      · next hne => rwa [List.count_cons_of_ne (Ne.symm hne)] at hy
    obtain ⟨c', hfold, hsettled', hdegree', hready'⟩ := ih hsettled hrest
    refine ⟨c', by rw [List.foldlM_cons, hlower]; exact hfold, hsettled', fun y => ?_, fun y => ?_⟩
    · rw [hdegree', hdegree]
      by_cases hyx : y = x
      · subst hyx
        rw [if_pos rfl, List.count_cons_self]
        omega
      · rw [if_neg hyx, List.count_cons_of_ne (Ne.symm hyx)]
    · rw [hready', hready, hdegree]
      by_cases hyx : y = x
      · -- The stage became ready with its last edge, be it this one or a later one.
        subst hyx
        have hpos := @List.count_pos_iff _ _ _ y xs
        simp only [true_and, if_true, List.mem_cons, true_or, List.count_cons_self]
        rw [or_assoc]
        refine or_congr_right ⟨?_, fun hlast => ?_⟩
        · rintro (hone | ⟨-, hlast⟩) <;> omega
        · by_cases hmem : y ∈ xs
          · exact Or.inr ⟨hmem, by omega⟩
          · rw [List.count_eq_zero_of_not_mem hmem] at hlast
            exact Or.inl hlast
      · simp [hyx, List.count_cons_of_ne (Ne.symm hyx)]

/-- As many edges lead from a parent to a child as from the child back to the parent. -/
theorem count_children (g : StageGraph) (x y : String) : (g.children x).count y = (g.parents y).count x := by
  simp only [children, parents, List.count, List.countP_map, List.countP_filter]
  congr 1
  funext e
  exact Bool.and_comm ..

theorem countP_notMem_cons (parents : List String) (hx : x ∉ placed) :
    parents.countP (· ∉ placed) = parents.countP (· ∉ x :: placed) + parents.count x := by
  induction parents with
  | nil => rfl
  | cons p parents ih =>
    rw [List.countP_cons, List.countP_cons, List.count_cons, ih]
    by_cases hpx : p = x
    · simp [hpx, hx]
      omega
    · by_cases hp : p ∈ placed <;> simp [hp, hpx]
      omega

theorem isReady_iff_countP : g.isReady placed x = true ↔ (g.parents x).countP (· ∉ placed) = 0 := by
  simp [isReady_iff, List.countP_eq_zero]

/-- The loop knows of the pending stages what there is to know. -/
structure Counting (g : StageGraph) (pending placed : List String) (c : EdgeCount) : Prop where
  ordered : pending.Pairwise fun a b => g.index a < g.index b
  notMem : ∀ x ∈ pending, x ∉ placed
  cover : ∀ x ∈ g.ids, x ∈ pending ∨ x ∈ placed
  ready_of_placed : ∀ x ∈ placed, g.isReady placed x = true
  settled : c.Settled
  degree_eq : ∀ x, c.degree x = (g.parents x).countP (· ∉ placed)
  mem_ready_iff : ∀ x, x ∈ c.ready ↔ x ∈ pending ∧ g.isReady placed x = true

theorem counting_edgeCount (hnodup : g.ids.Nodup) : g.Counting g.ids [] g.edgeCount where
  ordered := pairwise_idxOf hnodup
  notMem _ _ := List.not_mem_nil
  cover _ hx := Or.inl hx
  ready_of_placed _ hx := absurd hx List.not_mem_nil
  settled := ⟨fun x hx => by simpa [edgeCount] using (List.mem_filter.mp hx).2, hnodup.filter _⟩
  degree_eq x := by simp [edgeCount]
  mem_ready_iff x := by simp [edgeCount, isReady_iff, List.eq_nil_iff_forall_not_mem]

/-- Placing a ready stage and taking its edges away. -/
theorem Counting.place {c : EdgeCount} (h : g.Counting pending placed c) (hwithin : g.Within) (hx : x ∈ pending)
    (hready : g.isReady placed x = true) :
    ∃ c', (g.children x).foldlM EdgeCount.lower? ⟨c.degree, c.ready.erase x⟩ = some c' ∧
      g.Counting (pending.erase x) (x :: placed) c' := by
  have hxplaced := h.notMem x hx
  have hnodup : pending.Nodup := h.ordered.imp fun hlt heq => Nat.ne_of_lt hlt (congrArg g.index heq)
  have hdegree : ∀ y, c.degree y = (g.parents y).countP (· ∉ x :: placed) + (g.children x).count y := fun y => by
    rw [h.degree_eq, countP_notMem_cons _ hxplaced, count_children]
  have hsettled : EdgeCount.Settled ⟨c.degree, c.ready.erase x⟩ :=
    ⟨fun y hy => h.settled.degree_ready y (List.mem_of_mem_erase hy), h.settled.ready_nodup.erase x⟩
  have hstays : ∀ {y}, g.isReady placed y = true → g.isReady (x :: placed) y = true := fun hy =>
    isReady_iff.mpr fun p hp => List.mem_cons_of_mem _ (isReady_iff.mp hy p hp)
  have hcount : ∀ y, (g.children x).count y ≤ c.degree y := fun y => by
    rw [hdegree]
    omega
  obtain ⟨c', hfold, hsettled', hdegree', hready'⟩ := hsettled.foldlM_lower? hcount
  -- A child of the stage was not ready before, so it is neither placed nor the stage itself.
  have hchild : ∀ y ∈ g.children x, y ≠ x ∧ y ∈ pending := fun y hy => by
    have hparent := mem_children_iff_mem_parents.mp hy
    refine ⟨fun heq => hxplaced (isReady_iff.mp hready x (heq ▸ hparent)), ?_⟩
    refine (h.cover y (hwithin x y hy).2).resolve_right fun hplaced => hxplaced ?_
    exact isReady_iff.mp (h.ready_of_placed y hplaced) x hparent
  refine ⟨c', hfold, h.ordered.sublist List.erase_sublist, fun y hy => ?_, fun y hy => ?_, fun y hy => ?_, hsettled',
    fun y => ?_, fun y => ?_⟩
  · obtain ⟨hyx, hpending⟩ := hnodup.mem_erase_iff.mp hy
    exact List.not_mem_cons_of_ne_of_not_mem hyx (h.notMem y hpending)
  · by_cases hyx : y = x
    · exact Or.inr (hyx ▸ List.mem_cons_self ..)
    · exact (h.cover y hy).imp (List.mem_erase_of_ne hyx).mpr (List.mem_cons_of_mem _)
  · rcases List.mem_cons.mp hy with rfl | hy
    · exact hstays hready
    · exact hstays (h.ready_of_placed y hy)
  · rw [hdegree', hdegree, Nat.add_sub_cancel]
  · have hlast : c.degree y = (g.children x).count y ↔ g.isReady (x :: placed) y = true := by
      rw [isReady_iff_countP, hdegree]
      omega
    rw [hready', hlast, h.settled.ready_nodup.mem_erase_iff, h.mem_ready_iff, hnodup.mem_erase_iff]
    constructor
    · rintro (⟨hyx, hpending, hy⟩ | ⟨hy, hready⟩)
      · exact ⟨⟨hyx, hpending⟩, hstays hy⟩
      · exact ⟨hchild y hy, hready⟩
    · rintro ⟨⟨hyx, hpending⟩, hy⟩
      by_cases hbefore : g.isReady placed y = true
      · exact Or.inl ⟨hyx, hpending, hbefore⟩
      · refine Or.inr ⟨mem_children_iff_mem_parents.mpr ?_, hy⟩
        rw [isReady_iff] at hbefore hy
        push Not at hbefore
        obtain ⟨p, hp, hnot⟩ := hbefore
        exact (List.mem_cons.mp (hy p hp)).resolve_right hnot ▸ hp

/-- The loop places what is placed by looking for the first ready stage. -/
theorem Counting.emits {c : EdgeCount} (h : g.Counting pending placed c) (hwithin : g.Within) :
    g.Emits c (g.place pending placed) := by
  fun_induction StageGraph.place g pending placed generalizing c with
  | case1 pending placed hnone =>
    obtain ⟨degree, ready⟩ := c
    have hnil : ready = [] := List.eq_nil_iff_forall_not_mem.mpr fun y hy => by
      obtain ⟨hpending, hready⟩ := (h.mem_ready_iff y).mp hy
      exact List.find?_eq_none.mp hnone y hpending hready
    subst hnil
    exact .done
  | case2 pending placed x hfound ih =>
    have hx := List.mem_of_find?_eq_some hfound
    have hready : g.isReady placed x = true := List.find?_some hfound
    obtain ⟨c', hfold, hcounting⟩ := h.place hwithin hx hready
    refine .next ((h.mem_ready_iff x).mpr ⟨hx, hready⟩) (fun y hy => ?_) hfold (ih hcounting)
    obtain ⟨hpending, hyready⟩ := (h.mem_ready_iff y).mp hy
    by_cases hyx : y = x
    · exact (congrArg g.index hyx).ge
    · exact (lt_of_find? h.ordered hfound hpending hyready hyx).le

/-- Where the edges join stages and lead round no cycle, the order holds every stage once and leads every edge
    forward, and any other list that does so is greater at the first place at which the declaration indices differ.
    The loop that counts edges places the same stages in this order. -/
theorem order_least (hnodup : g.ids.Nodup) (hedges : ∀ e ∈ g.edges, e.parent ∈ g.ids ∧ e.child ∈ g.ids)
    (hacyclic : ∀ x, ¬ g.Leads x x) :
    ∃ order, g.order = .ok order ∧ g.IsTopological order ∧
      (∀ other, g.IsTopological other → other ≠ order → order.map g.index < other.map g.index) ∧
      g.Emits g.edgeCount order := by
  have hwithin : g.Within := within_iff.mpr hedges
  have hcycle : g.cycle? = none := (cycle?_eq_none_iff hnodup hwithin).mpr hacyclic
  have horder : g.order = .ok (g.place g.ids []) := by rw [order, hcycle]
  have hperm : (g.place g.ids []).Perm g.ids := perm_of_order horder fun x _ p hp =>
    (hwithin p x (mem_children_iff_mem_parents.mpr hp)).1
  refine ⟨_, horder, ⟨hperm, fun e he => ?_⟩, fun other hother hne => ?_, (counting_edgeCount hnodup).emits hwithin⟩
  · obtain ⟨before, after, hsplit, hbefore⟩ := List.eq_append_cons_of_mem (hperm.symm.subset (hedges e he).2)
    rw [hsplit] at horder
    have hmem : e.parent ∈ before := mem_of_order horder e.parent (mem_parents_iff.mpr he)
    rw [hsplit, List.idxOf_append_of_mem hmem, List.idxOf_append_of_notMem hbefore]
    exact Nat.lt_add_right _ (List.idxOf_lt_length_of_mem hmem)
  · exact place_lt_of_legal (pairwise_idxOf hnodup) hother.perm (hother.legal hnodup) hne

/-- Two stages that could be placed in either order, below one that was declared behind them and has two edges to
    one of them. -/
def woven : StageGraph where
  ids := ["leaf", "c", "b", "root"]
  edges := [⟨"root", "b"⟩, ⟨"root", "c"⟩, ⟨"b", "leaf"⟩, ⟨"root", "b"⟩, ⟨"c", "leaf"⟩]

/-- Of the two stages the one that was declared first comes first, though its edge comes later. -/
theorem order_woven : woven.order = .ok ["root", "c", "b", "leaf"] ∧ (∀ x, ¬ woven.Leads x x) ∧
    woven.IsTopological ["root", "c", "b", "leaf"] ∧ woven.Emits woven.edgeCount ["root", "c", "b", "leaf"] := by
  have hacyclic : ∀ x, ¬ woven.Leads x x :=
    (cycle?_eq_none_iff (by decide) (within_iff.mpr (by decide))).mp (by cbv)
  have horder : woven.order = .ok ["root", "c", "b", "leaf"] := by cbv
  obtain ⟨order, hok, htopological, -, hemits⟩ := order_least (g := woven) (by decide) (by decide) hacyclic
  obtain rfl : ["root", "c", "b", "leaf"] = order := Except.ok.inj (horder.symm.trans hok)
  exact ⟨horder, hacyclic, htopological, hemits⟩

end StageLineage.StageGraph
