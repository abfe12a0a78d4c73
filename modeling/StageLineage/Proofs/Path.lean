import StageLineage.Path

/-! Going down a path. A text that is a single directory name adds one component to a path, whatever the
    path is, and the directory above it is the path; so a descent by several names is told by its
    components, and below another path it is the same descent. -/

namespace StageLineage.Path

/-- A text names a single directory: it is not empty, holds no separator and is not `.` or `..`. -/
structure IsName (text : String) : Prop where
  ne_empty : text.toList ≠ []
  ne_here : text.toList ≠ ['.']
  ne_up : text.toList ≠ ['.', '.']
  no_separator : '/' ∉ text.toList

theorem IsName.component? {n : String} (h : IsName n) : component? n.toList = some (.name n) := by
  simp [Path.component?, h.ne_empty, h.ne_here, h.ne_up]

/-! ### Pieces between separators -/

theorem split_ne_nil (cs : List Char) : split cs ≠ [] := by
  cases cs with
  | nil => simp [split]
  | cons c cs =>
    rw [split]
    split <;> simp

theorem split_append_separator (cs ds : List Char) : split (cs ++ '/' :: ds) = split cs ++ split ds := by
  induction cs with
  | nil => simp [split]
  | cons c cs ih =>
    obtain ⟨piece, pieces, hp⟩ := List.exists_cons_of_ne_nil (split_ne_nil cs)
    rw [List.cons_append, split, split, ih, hp]
    cases c == '/' <;> rfl

theorem split_of_not_mem {cs : List Char} (h : '/' ∉ cs) : split cs = [cs] := by
  induction cs with
  | nil => rfl
  | cons c cs ih =>
    obtain ⟨hc, hcs⟩ := not_or.mp (mt List.mem_cons.mpr h)
    have hc' : (c == '/') = false := beq_eq_false_iff_ne.mpr (Ne.symm hc)
    rw [split, hc', ih hcs]

/-- The text of some pieces, each with a separator after it. -/
def joined (pieces : List (List Char)) : List Char := pieces.flatMap (· ++ ['/'])

theorem joined_split (cs : List Char) : joined (split cs) = cs ++ ['/'] := by
  induction cs with
  | nil => rfl
  | cons c cs ih =>
    obtain ⟨piece, pieces, hp⟩ := List.exists_cons_of_ne_nil (split_ne_nil cs)
    rw [hp] at ih
    rw [split, hp]
    by_cases hc : c = '/'
    · subst hc
      exact congrArg ('/' :: ·) ih
    · rw [beq_eq_false_iff_ne.mpr hc]
      exact congrArg (c :: ·) ih

theorem spansAfter_append (pieces more : List (List Char)) :
    ∀ before, spansAfter before (pieces ++ more) =
      spansAfter before pieces ++ spansAfter (before ++ joined pieces) more := by
  induction pieces with
  | nil => simp [spansAfter, joined]
  | cons piece pieces ih =>
    intro before
    have hj : before ++ joined (piece :: pieces) = before ++ piece ++ ['/'] ++ joined pieces := by simp [joined]
    rw [List.cons_append, spansAfter, spansAfter, hj]
    simp only [ih]
    split <;> rfl

/-! ### One name further -/

/-- The components of a text that is followed by a separator. -/
def spansBefore (cs : List Char) : List (Component × List Char) :=
  match split cs with
  | [] => []
  | first :: pieces =>
    if first = [] then (.root, ['/']) :: spansAfter ['/'] pieces
    else if first = ['.'] then (.here, ['.']) :: spansAfter ['.', '/'] pieces
    else spansAfter [] (first :: pieces)

/-- The piece after the last separator adds the component that it stands for, if it stands for one. -/
theorem spans_append_separator (cs last : List Char) (h : '/' ∉ last) :
    (Path.mk (String.ofList (cs ++ '/' :: last))).spans =
      spansBefore cs ++ ((component? last).map (·, cs ++ '/' :: last)).toList := by
  obtain ⟨first, pieces, hp⟩ := List.exists_cons_of_ne_nil (split_ne_nil cs)
  have hjoined := joined_split cs
  rw [hp] at hjoined
  have hsplit : split (cs ++ '/' :: last) = first :: (pieces ++ [last]) := by
    rw [split_append_separator, hp, split_of_not_mem h, List.cons_append]
  have hlast : ∀ before, spansAfter before [last] = ((component? last).map (·, before ++ last)).toList := fun before => by
    simp only [spansAfter]
    cases component? last <;> rfl
  have htext : first ++ '/' :: joined pieces ++ last = cs ++ '/' :: last := by
    have : first ++ '/' :: joined pieces = cs ++ ['/'] := by simpa [joined] using hjoined
    rw [this, List.append_assoc]
    rfl
  rw [spans, String.toList_ofList, hsplit, spansBefore, hp]
  simp only [List.append_eq_nil_iff, List.isEmpty_eq_false_iff, ne_eq, Bool.and_eq_true, decide_eq_true_eq,
    Bool.not_eq_true', List.cons_ne_self, and_false, not_false_eq_true, and_true]
  split
  · next hf =>
    rw [hf] at htext
    rw [spansAfter_append, hlast, List.cons_append, ← htext]
    simp
  split
  · next hf =>
    rw [hf] at htext
    rw [spansAfter_append, hlast, List.cons_append, ← htext]
    simp
  · rw [← List.cons_append, spansAfter_append, hlast, ← htext]
    simp [joined]

theorem spans_of_ne_nil {cs : List Char} (h : cs ≠ []) : (Path.mk (String.ofList cs)).spans = spansBefore cs := by
  obtain ⟨first, pieces, hp⟩ := List.exists_cons_of_ne_nil (split_ne_nil cs)
  have hempty : first = [] → pieces ≠ [] := fun hf hps => by
    have := joined_split cs
    rw [hp, hf, hps] at this
    simp [joined] at this
    exact h this
  rw [spans, String.toList_ofList, spansBefore, hp]
  by_cases hf : first = []
  · simp [hf, hempty hf]
  · simp [hf]

theorem not_isAbsolute_of_isName {n : String} (h : IsName n) : (Path.mk n).isAbsolute = false := by
  rw [isAbsolute, ← Bool.not_eq_true, beq_iff_eq]
  exact fun hhead => h.no_separator (List.mem_of_mem_head? hhead)

theorem ofList_toList (p : Path) : Path.mk (String.ofList p.text.toList) = p := by
  rw [String.ofList_toList]

theorem child_empty (n : String) : empty.child n = ⟨n⟩ := by
  by_cases h : (Path.mk n).isAbsolute <;> simp [child, join, empty, isEmpty, h]

theorem toList_child_of_separator {p : Path} {n : String} (h : IsName n) {cs : List Char}
    (hp : p.text.toList = cs ++ ['/']) : (p.child n).text.toList = cs ++ '/' :: n.toList := by
  simp [child, join, not_isAbsolute_of_isName h, hp]

theorem toList_child {p : Path} {n : String} (h : IsName n) (hne : p.text.toList ≠ [])
    (hlast : p.text.toList.getLast? ≠ some '/') : (p.child n).text.toList = p.text.toList ++ '/' :: n.toList := by
  have hempty : p.isEmpty = false := by
    rw [isEmpty, ← Bool.not_eq_true, String.isEmpty_iff]
    exact fun he => hne (by simp [he])
  simp [child, join, not_isAbsolute_of_isName h, hlast, hempty]

/-- A name adds one component to a path, and the part of the path that it ends is all of it. -/
theorem spans_child (p : Path) {n : String} (h : IsName n) :
    (p.child n).spans = p.spans ++ [(.name n, (p.child n).text.toList)] := by
  have happend : ∀ cs, (Path.mk (String.ofList (cs ++ '/' :: n.toList))).spans =
      spansBefore cs ++ [(.name n, cs ++ '/' :: n.toList)] := fun cs => by
    rw [spans_append_separator cs n.toList h.no_separator, h.component?]
    rfl
  by_cases hne : p.text.toList = []
  · have hp : p = empty := by
      rw [← ofList_toList p, hne]
      rfl
    have hspans := spans_of_ne_nil h.ne_empty
    rw [String.ofList_toList, spansBefore, split_of_not_mem h.no_separator] at hspans
    simp only [h.ne_empty, h.ne_here, ↓reduceIte, spansAfter, List.nil_append, h.component?] at hspans
    rw [hp, child_empty, hspans]
    rfl
  by_cases hlast : p.text.toList.getLast? = some '/'
  · obtain ⟨cs, hcs⟩ := List.getLast?_eq_some_iff.mp hlast
    have hspans : p.spans = spansBefore cs := by
      have := spans_append_separator cs [] List.not_mem_nil
      rw [← hcs, ofList_toList] at this
      simpa [component?] using this
    rw [← ofList_toList (p.child n), toList_child_of_separator h hcs, happend, hspans, String.toList_ofList]
  · have hspans : p.spans = spansBefore p.text.toList := by
      have := spans_of_ne_nil hne
      rwa [ofList_toList] at this
    rw [← ofList_toList (p.child n), toList_child h hne hlast, happend, hspans, String.toList_ofList]

theorem components_child (p : Path) {n : String} (h : IsName n) :
    (p.child n).components = p.components ++ [.name n] := by
  simp [components_eq_map_spans, spans_child p h]

theorem isEmpty_child (p : Path) {n : String} (h : IsName n) : (p.child n).isEmpty = false := by
  rw [isEmpty, ← Bool.not_eq_true, String.isEmpty_iff]
  intro he
  have hspans := spans_child p h
  have hp : p.child n = empty := congrArg Path.mk he
  have hnil : empty.spans = [] := by decide
  rw [hp, hnil] at hspans
  simp at hspans

/-- The directory above one name further down is the directory from which it went down. -/
theorem parent?_child_child (p : Path) {m n : String} (hm : IsName m) (hn : IsName n) :
    ((p.child m).child n).parent? = some (p.child m) := by
  have hreverse : ((p.child m).child n).spans.reverse = (.name n, ((p.child m).child n).text.toList) ::
      (.name m, (p.child m).text.toList) :: p.spans.reverse := by
    rw [spans_child _ hn, spans_child _ hm]
    simp
  rw [parent?, parents, hreverse]
  simp only [List.map_cons, ofList_toList]
  split <;> rfl

/-! ### Descents -/

def descend (p : Path) (names : List String) : Path := names.foldl child p

theorem descend_append (p : Path) (names more : List String) :
    p.descend (names ++ more) = (p.descend names).descend more :=
  List.foldl_append ..

theorem components_descend (p : Path) {names : List String} (h : ∀ n ∈ names, IsName n) :
    (p.descend names).components = p.components ++ names.map .name := by
  induction names generalizing p with
  | nil => simp [descend]
  | cons n names ih =>
    have hrest := ih (p.child n) fun m hm => h m (List.mem_cons_of_mem _ hm)
    rw [descend, List.foldl_cons, ← descend, hrest, components_child p (h n (List.mem_cons_self ..))]
    simp

/-- A path has a text that begins and ends with something else than a separator. -/
structure Relative (p : Path) : Prop where
  ne_nil : p.text.toList ≠ []
  head : p.text.toList.head? ≠ some '/'
  last : p.text.toList.getLast? ≠ some '/'

theorem relative_of_isName {n : String} (h : IsName n) : Relative ⟨n⟩ where
  ne_nil := h.ne_empty
  head hh := h.no_separator (List.mem_of_mem_head? hh)
  last hl := h.no_separator (List.mem_of_getLast? hl)

theorem Relative.child {p : Path} (hp : p.Relative) {n : String} (h : IsName n) : (p.child n).Relative := by
  have htext := toList_child h hp.ne_nil hp.last
  obtain ⟨c, cs, hc⟩ := List.exists_cons_of_ne_nil hp.ne_nil
  have hhead := hp.head
  rw [hc] at htext hhead
  have hn := relative_of_isName h
  refine ⟨?_, ?_, ?_⟩ <;> rw [htext]
  · simp
  · simpa using hhead
  · rw [List.getLast?_append]
    obtain ⟨d, ds, hd⟩ := List.exists_cons_of_ne_nil h.ne_empty
    have hlast := hn.last
    simp only [hd] at hlast ⊢
    simpa using hlast

theorem join_child (p : Path) {q : Path} (hq : q.Relative) {n : String} (h : IsName n) :
    p.join (q.child n) = (p.join q).child n := by
  have habs : ∀ {q : Path}, q.Relative → q.isAbsolute = false := fun hq => by
    rw [isAbsolute, ← Bool.not_eq_true, beq_iff_eq]
    exact hq.head
  have hchild := toList_child h hq.ne_nil hq.last
  obtain ⟨c, cs, hc⟩ := List.exists_cons_of_ne_nil hq.ne_nil
  have hlast : ∀ ds : List Char, (ds ++ q.text.toList).getLast? ≠ some '/' := fun ds => by
    have hq' := hq.last
    rw [List.getLast?_append]
    rw [hc] at hq' ⊢
    simpa using hq'
  have hjoin : ∃ ds, (p.join q).text.toList = ds ++ q.text.toList ∧
      (p.join (q.child n)).text.toList = ds ++ (q.child n).text.toList := by
    rw [join, habs hq, join, habs (hq.child h)]
    by_cases hp : (p.isEmpty || p.text.toList.getLast? == some '/') = true
    · exact ⟨p.text.toList, by simp [hp], by simp [hp]⟩
    · exact ⟨p.text.toList ++ ['/'], by simp [hp], by simp [hp]⟩
  obtain ⟨ds, hds, hds'⟩ := hjoin
  have htext : (p.join (q.child n)).text.toList = ((p.join q).child n).text.toList := by
    rw [toList_child h (by rw [hds, hc]; simp) (by rw [hds]; exact hlast ds), hds, hds', hchild, List.append_assoc]
  rw [← ofList_toList (p.join (q.child n)), htext, ofList_toList]

theorem join_descend_of_relative (p : Path) :
    ∀ {names : List String} {q : Path}, q.Relative → (∀ n ∈ names, IsName n) →
      p.join (q.descend names) = (p.join q).descend names
  | [], _, _, _ => rfl
  | n :: names, q, hq, h => by
    have hn := h n (List.mem_cons_self ..)
    show p.join ((q.child n).descend names) = ((p.join q).child n).descend names
    rw [← join_child p hq hn]
    exact join_descend_of_relative p (hq.child hn) fun m hm => h m (List.mem_cons_of_mem _ hm)

/-- A descent from the empty path is the same descent below any path. -/
theorem join_descend (p : Path) {names : List String} (hne : names ≠ []) (h : ∀ n ∈ names, IsName n) :
    p.join (empty.descend names) = p.descend names := by
  obtain ⟨n, names, rfl⟩ := List.exists_cons_of_ne_nil hne
  show p.join ((empty.child n).descend names) = (p.child n).descend names
  rw [child_empty]
  exact join_descend_of_relative p (relative_of_isName (h n (List.mem_cons_self ..)))
    fun m hm => h m (List.mem_cons_of_mem _ hm)

/-! ### Comparison -/

instance : Std.LawfulEqOrd Component where
  eq_of_compare {a b} h := by
    have h : compareLex (compareOn Component.rank) (compareOn Component.label) a b = .eq := h
    rw [compareLex_eq_eq] at h
    obtain ⟨hrank, hlabel⟩ := h
    have hrank : a.rank = b.rank := Std.LawfulEqCmp.eq_of_compare hrank
    have hlabel : a.label = b.label := Std.LawfulEqCmp.eq_of_compare hlabel
    cases a <;> cases b <;> simp_all [Component.rank, Component.label]

/-- Paths compare equal if and only if they have the same components. -/
theorem compare_eq_iff {p q : Path} : compare p q = .eq ↔ p.components = q.components :=
  Std.LawfulEqOrd.compare_eq_iff_eq (a := p.components) (b := q.components)

theorem startsWith_iff {p dir : Path} : p.startsWith dir = true ↔ dir.components <+: p.components :=
  List.isPrefixOf_iff_prefix

theorem startsWith_of_compare {p q dir : Path} (h : compare p q = .eq) : p.startsWith dir = q.startsWith dir := by
  rw [startsWith, startsWith, compare_eq_iff.mp h]

theorem compare_descend_eq_iff {p : Path} {names more : List String} (hn : ∀ n ∈ names, IsName n)
    (hm : ∀ n ∈ more, IsName n) : compare (p.descend names) (p.descend more) = .eq ↔ names = more := by
  rw [compare_eq_iff, components_descend p hn, components_descend p hm, List.append_cancel_left_eq]
  exact List.map_inj_right fun _ _ h => Component.name.inj h

/-! ### The way down to a path -/

theorem exists_last_separator {cs : List Char} (h : '/' ∈ cs) :
    ∃ before last, cs = before ++ '/' :: last ∧ '/' ∉ last := by
  obtain ⟨last, before, hreverse, hlast⟩ := List.eq_append_cons_of_mem (List.mem_reverse.mpr h)
  refine ⟨before.reverse, last.reverse, ?_, by simpa using hlast⟩
  rw [← List.reverse_reverse cs, hreverse]
  simp

theorem spans_of_not_mem {cs : List Char} (h : '/' ∉ cs) :
    (Path.mk (String.ofList cs)).spans = [] ∨ ∃ c, (Path.mk (String.ofList cs)).spans = [(c, cs)] := by
  rw [spans, String.toList_ofList, split_of_not_mem h]
  simp only [List.isEmpty_nil, Bool.not_true, Bool.and_false, Bool.false_eq_true, if_false]
  split
  · next hhere => exact Or.inr ⟨.here, by rw [hhere]; rfl⟩
  · simp only [spansAfter, List.nil_append]
    cases component? cs with
    | none => exact Or.inl rfl
    | some c => exact Or.inr ⟨c, rfl⟩

/-- Each component of a list ends a part of a path whose own components are those up to it. -/
def EndsParts (spans : List (Component × List Char)) : Prop :=
  ∀ before x after, spans = before ++ x :: after → (Path.mk (String.ofList x.2)).spans = before ++ [x]

theorem endsParts_nil : EndsParts [] := fun before x after h => by simp at h

theorem EndsParts.concat {spans : List (Component × List Char)} {x : Component × List Char} (h : EndsParts spans)
    (hx : (Path.mk (String.ofList x.2)).spans = spans ++ [x]) : EndsParts (spans ++ [x]) := by
  intro before y after hsplit
  rcases List.eq_nil_or_concat after with rfl | ⟨rest, z, rfl⟩
  · obtain ⟨rfl, hy⟩ := List.append_inj' hsplit rfl
    rwa [← List.singleton_inj.mp hy]
  · rw [List.concat_eq_append, ← List.cons_append, ← List.append_assoc] at hsplit
    exact h before y rest (List.append_inj_left' hsplit rfl)

theorem endsParts_spans (p : Path) : EndsParts p.spans := by
  -- What stands before the last separator is a shorter path, or nothing.
  have shorter : ∀ (n : Nat) (cs : List Char), cs.length = n → EndsParts (Path.mk (String.ofList cs)).spans := by
    intro n
    induction n using Nat.strongRecOn with
    | ind n ih =>
      intro cs hn
      by_cases hseparator : '/' ∈ cs
      · obtain ⟨above, last, rfl, hlast⟩ := exists_last_separator hseparator
        have habove : EndsParts (spansBefore above) := by
          by_cases hnil : above = []
          · subst hnil
            exact endsParts_nil.concat (by decide : (Path.mk (String.ofList ['/'])).spans = [(.root, ['/'])])
          · rw [← spans_of_ne_nil hnil]
            refine ih above.length ?_ above rfl
            simp only [List.length_append, List.length_cons] at hn
            omega
        have hspans := spans_append_separator above last hlast
        rw [hspans]
        cases hc : component? last with
        | none => simpa using habove
        | some c => exact habove.concat (by simpa [hc] using hspans)
      · rcases spans_of_not_mem hseparator with hnil | ⟨c, hsingle⟩
        · exact hnil ▸ endsParts_nil
        · exact hsingle ▸ endsParts_nil.concat hsingle
  exact ofList_toList p ▸ shorter p.text.toList.length p.text.toList rfl

/-- The part of a path that ends with one of its components begins like the path. -/
theorem spans_prefix_of_mem_spans {p : Path} : ∀ x ∈ p.spans, (Path.mk (String.ofList x.2)).spans <+: p.spans := by
  intro x hx
  obtain ⟨before, after, hsplit⟩ := List.append_of_mem hx
  rw [endsParts_spans p before x after hsplit, hsplit]
  exact ⟨after, by simp⟩

/-- A path without trailing separators, and the directories above it, innermost first. -/
def trail (p : Path) : List Path := (p.spans.reverse.map fun x => Path.mk (String.ofList x.2)).filter (!·.isEmpty)

/-- The directories on the way from a path down by some names, innermost first. -/
def below (p : Path) : List String → List Path
  | [] => []
  | n :: names => (p.child n).below names ++ [p.child n]

theorem components_prefix_of_mem_trail {p q : Path} (h : q ∈ p.trail) : q.components <+: p.components := by
  obtain ⟨x, hx, rfl⟩ := List.mem_map.mp (List.mem_filter.mp h).1
  rw [components_eq_map_spans, components_eq_map_spans]
  exact (spans_prefix_of_mem_spans x (List.mem_reverse.mp hx)).map _

theorem trail_child (p : Path) {n : String} (h : IsName n) : (p.child n).trail = p.child n :: p.trail := by
  simp [trail, spans_child p h, isEmpty_child p h]

theorem ancestors_child (p : Path) {n : String} (h : IsName n) :
    (p.child n).ancestors.filter (!·.isEmpty) = (p.child n).trail := by
  have hempty : (!empty.isEmpty) = false := rfl
  rw [trail_child p h, ancestors, List.filter_cons_of_pos (by simp [isEmpty_child p h]), parents, spans_child p h]
  simp only [List.reverse_append, List.reverse_cons, List.reverse_nil, List.nil_append, List.cons_append, trail]
  split <;> simp [hempty]

theorem trail_descend (p : Path) {names : List String} (h : ∀ n ∈ names, IsName n) :
    (p.descend names).trail = p.below names ++ p.trail := by
  induction names generalizing p with
  | nil => rfl
  | cons n names ih =>
    obtain ⟨hn, hnames⟩ := List.forall_mem_cons.mp h
    rw [descend, List.foldl_cons, ← descend, ih (p.child n) hnames, trail_child p hn, below]
    simp

theorem ancestors_descend (p : Path) {names : List String} (hne : names ≠ []) (h : ∀ n ∈ names, IsName n) :
    (p.descend names).ancestors.filter (!·.isEmpty) = p.below names ++ p.trail := by
  obtain ⟨above, n, rfl⟩ := List.eq_nil_or_concat names |>.resolve_left hne
  rw [← trail_descend p h, List.concat_eq_append, descend_append]
  exact ancestors_child _ (h n (by simp))

theorem below_append (p : Path) (names more : List String) :
    p.below (names ++ more) = (p.descend names).below more ++ p.below names := by
  induction names generalizing p with
  | nil => simp [below, descend]
  | cons n names ih =>
    rw [List.cons_append, below, ih, below, List.append_assoc]
    rfl

theorem exists_of_mem_below {p q : Path} {names : List String} (h : q ∈ p.below names) :
    ∃ steps, steps ≠ [] ∧ steps <+: names ∧ q = p.descend steps := by
  induction names generalizing p with
  | nil => cases h
  | cons n names ih =>
    rcases List.mem_append.mp h with h | h
    · obtain ⟨steps, -, hsteps, rfl⟩ := ih h
      exact ⟨n :: steps, by simp, (List.prefix_cons_inj n).mpr hsteps, rfl⟩
    · exact ⟨[n], by simp, by simp, List.mem_singleton.mp h⟩

/-- What lies below a path has more components than what lies above it. -/
theorem compare_below_trail {p q r : Path} {names : List String} (h : ∀ n ∈ names, IsName n) (hq : q ∈ p.below names)
    (hr : r ∈ p.trail) : compare q r ≠ .eq := by
  obtain ⟨steps, hne, hsteps, rfl⟩ := exists_of_mem_below hq
  have hcomponents := components_descend p fun n hn => h n (hsteps.subset hn)
  intro heq
  have hlength := (components_prefix_of_mem_trail hr).length_le
  rw [← compare_eq_iff.mp heq, hcomponents, List.length_append, List.length_map] at hlength
  have := List.length_pos_iff.mpr hne
  omega

theorem pairwise_below {p : Path} {names : List String} (h : ∀ n ∈ names, IsName n) :
    (p.below names).Pairwise fun q r => compare q r ≠ .eq := by
  induction names generalizing p with
  | nil => exact .nil
  | cons n names ih =>
    obtain ⟨hn, hnames⟩ := List.forall_mem_cons.mp h
    rw [below, List.pairwise_append]
    refine ⟨ih hnames, List.pairwise_singleton .., fun q hq r hr => compare_below_trail hnames hq ?_⟩
    rw [List.mem_singleton.mp hr, trail_child p hn]
    exact List.mem_cons_self ..

/-- Two descents part after some common names, unless one of them goes on where the other ends. -/
theorem exists_fork : ∀ names more : List String, ∃ common ns ms, names = common ++ ns ∧ more = common ++ ms ∧
    ∀ n, ns.head? = some n → ms.head? ≠ some n
  | [], more => ⟨[], [], more, rfl, rfl, by simp⟩
  | n :: names, [] => ⟨[], n :: names, [], rfl, rfl, by simp⟩
  | n :: names, m :: more => by
    by_cases h : n = m
    · subst h
      obtain ⟨common, ns, ms, rfl, rfl, hfork⟩ := exists_fork names more
      exact ⟨n :: common, ns, ms, rfl, rfl, hfork⟩
    · exact ⟨[], n :: names, m :: more, rfl, rfl, by simpa [eq_comm] using h⟩

theorem compare_below_of_fork {p q r : Path} {ns ms : List String} (hn : ∀ n ∈ ns, IsName n) (hm : ∀ n ∈ ms, IsName n)
    (hfork : ∀ n, ns.head? = some n → ms.head? ≠ some n) (hq : q ∈ p.below ns) (hr : r ∈ p.below ms) :
    compare q r ≠ .eq := by
  obtain ⟨steps, hne, ⟨rest, rfl⟩, rfl⟩ := exists_of_mem_below hq
  obtain ⟨steps', -, ⟨rest', rfl⟩, rfl⟩ := exists_of_mem_below hr
  rw [Ne, compare_descend_eq_iff (fun n h => hn n (List.mem_append_left _ h))
    fun n h => hm n (List.mem_append_left _ h)]
  rintro rfl
  obtain ⟨n, steps, rfl⟩ := List.exists_cons_of_ne_nil hne
  exact hfork n rfl rfl

end StageLineage.Path
