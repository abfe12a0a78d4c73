import StageLineage.FileSystem.Tree
import StageLineage.Proofs.Session.Memory
import StageLineage.Registry

/-! Directories of manifests. The files are registered one after another, so loading stops at the first file that is
    refused and leaves what came before it registered. What was registered earlier stays as it was. -/

namespace StageLineage

/-! ### Steps that leave the state as it is -/

section Steps
variable {σ α β : Type} {a : σ}

theorem bind_of_eq {x : StateM σ α} {v : α} (hx : x a = (v, a)) (f : α → StateM σ β) : (x >>= f) a = f v a := by
  simp only [bind, StateT.bind, hx]

theorem filterM_of_eq {f : α → StateM σ Bool} {g : α → Bool} (hf : ∀ x, f x a = (g x, a)) (l : List α) :
    l.filterM f a = (l.filter g, a) := by
  -- What was kept so far comes last first.
  have along : ∀ l before : List α, List.filterAuxM f l before a = ((l.filter g).reverse ++ before, a) := by
    intro l
    induction l with
    | nil => exact fun _ => rfl
    | cons x l ih =>
      intro before
      rw [List.filterAuxM, bind_of_eq (hf x), ih]
      cases hx : g x <;> simp [hx]
  rw [List.filterM, bind_of_eq (along l []), List.append_nil, List.reverse_reverse]
  rfl

end Steps

variable {σ : Type} [FileSystem (StateM σ)] {a : σ} {isFile : Path → Bool} {read : Path → Except IoError ByteArray}
  {list : Path → Except IoError (List String)} {fs : Formats}

/-! ### Reading files -/

/-- A file system in the state `a` says of each path whether a regular file is there, what is read of it and what is
    listed of it, and answering leaves it as it is. -/
structure FileSystem.Shows (a : σ) (isFile : Path → Bool) (read : Path → Except IoError ByteArray)
    (list : Path → Except IoError (List String)) : Prop where
  isFile_eq : ∀ p, (FileSystem.isFile p : StateM σ Bool) a = (isFile p, a)
  readFile_eq : ∀ p, (FileSystem.readFile p : StateM σ (Except IoError ByteArray)) a = (read p, a)
  listDirectory_eq : ∀ p, (FileSystem.listDirectory p : StateM σ (Except IoError (List String))) a = (list p, a)

/-- Reading a text leaves the files as they are, and gives the text whose bytes a file holds. -/
theorem FileSystem.Shows.exists_readText (h : FileSystem.Shows a isFile read list) (p : Path) :
    ∃ result, (FileSystem.readText p : StateM σ _) a = (result, a) ∧
      ∀ text : String, read p = .ok text.toUTF8 → result = .ok text := by
  rw [FileSystem.readText, bind_of_eq (h.readFile_eq p)]
  cases read p with
  | error cause => exact ⟨_, rfl, fun _ h => nomatch h⟩
  | ok bytes =>
    cases htext : String.fromUTF8? bytes with
    | none =>
      refine ⟨.error .invalidData, by simp only [htext]; rfl, fun text h => ?_⟩
      rw [Except.ok.inj h, Text.fromUTF8?_toUTF8] at htext
      exact nomatch htext
    | some text =>
      refine ⟨.ok text, by simp only [htext]; rfl, fun text' h => ?_⟩
      rw [Except.ok.inj h, Text.fromUTF8?_toUTF8] at htext
      rw [Option.some.inj htext]

theorem Tree.showsFiles (t : Tree) : FileSystem.Shows t t.holdsFile t.read t.list :=
  ⟨fun _ => rfl, fun _ => rfl, fun _ => rfl⟩

namespace Formats

/-- What a file is read as in the state `a`. -/
def loaded (fs : Formats) (a : σ) (p : Path) : Except ManifestError Definition := ((fs.load p : StateM σ _) a).1

/-- Loading leaves the files as they are, and only a document without fault is loaded. -/
theorem exists_load (hshows : FileSystem.Shows a isFile read list) (fs : Formats) (p : Path) :
    ∃ result, (fs.load p : StateM σ _) a = (result, a) ∧
      ∀ d, result = .ok d → ∃ document, Manifest.ofDocument document = .ok d := by
  rw [load]
  cases fs.forPath? p with
  | none => exact ⟨_, rfl, fun _ h => nomatch h⟩
  | some format =>
    obtain ⟨text, htext, -⟩ := hshows.exists_readText p
    dsimp only
    rw [bind_of_eq htext]
    cases text with
    | error cause => exact ⟨_, rfl, fun _ h => nomatch h⟩
    | ok text =>
      refine ⟨_, rfl, fun d hd => ?_⟩
      obtain ⟨document, -, hdocument⟩ := bind_eq_ok_iff.mp hd
      exact ⟨document, hdocument⟩

theorem load_eq (hshows : FileSystem.Shows a isFile read list) (fs : Formats) (p : Path) :
    (fs.load p : StateM σ _) a = (fs.loaded a p, a) := by
  obtain ⟨result, hresult, -⟩ := exists_load hshows fs p
  rw [loaded, hresult]

theorem loaded_of_text (hshows : FileSystem.Shows a isFile read list) {p : Path} {format : Format} {text : String}
    (hformat : fs.forPath? p = some format) (hread : read p = .ok text.toUTF8) :
    fs.loaded a p = format.manifest text := by
  obtain ⟨result, hresult, htext⟩ := hshows.exists_readText p
  obtain rfl := htext text hread
  rw [loaded, load, hformat]
  dsimp only
  rw [bind_of_eq hresult]
  rfl

theorem exists_compile (hshows : FileSystem.Shows a isFile read list) {p : Path} {d : Definition}
    (hd : fs.loaded a p = .ok d) : ∃ q, Persona.compile d = .ok q := by
  obtain ⟨result, hresult, hdocument⟩ := exists_load hshows fs p
  rw [loaded, hresult] at hd
  obtain ⟨document, hread⟩ := hdocument d hd
  obtain ⟨q, hq, -⟩ := Persona.compile_eq_ok hread
  exact ⟨q, hq⟩

end Formats

namespace Registry
variable {r r' r'' : Registry} {d : Definition} {ds ds' : List Definition} {id : String}

/-! ### Registering -/

/-- The registry `r'` holds the personas of the definitions `ds`, and otherwise what `r` holds. -/
structure Adds (r : Registry) (ds : List Definition) (r' : Registry) : Prop where
  added : ∀ d ∈ ds, ∃ p, Persona.compile d = .ok p ∧ r'.get? d.persona = some p
  kept : ∀ id, (∀ d ∈ ds, d.persona ≠ id) → r'.get? id = r.get? id

theorem Adds.nil (r : Registry) : r.Adds [] r where
  added _ hd := nomatch hd
  kept _ _ := rfl

theorem Adds.append (h : r.Adds ds r') (h' : r'.Adds ds' r'') (hapart : ∀ d ∈ ds, ∀ d' ∈ ds', d'.persona ≠ d.persona) :
    r.Adds (ds ++ ds') r'' where
  added d hd := by
    rcases List.mem_append.mp hd with hd | hd
    · obtain ⟨p, hp, hget⟩ := h.added d hd
      exact ⟨p, hp, (h'.kept _ (hapart d hd)).trans hget⟩
    · exact h'.added d hd
  kept id hid := by
    obtain ⟨hds, hds'⟩ := List.forall_mem_append.mp hid
    rw [h'.kept id hds', h.kept id hds]

theorem Adds.get?_ne_none (h : r.Adds [d] r') : r'.get? d.persona ≠ none := by
  obtain ⟨q, -, hq⟩ := h.added d (List.mem_singleton.mpr rfl)
  rw [hq]
  exact Option.some_ne_none q

theorem Adds.get?_eq_of_ne (h : r.Adds [d] r') (hne : d.persona ≠ id) : r'.get? id = r.get? id :=
  h.kept id fun _ hx => List.mem_singleton.mp hx ▸ hne

theorem register_eq_ok {p : Persona} (hfree : r.get? d.persona = none) (hp : Persona.compile d = .ok p) :
    ∃ r', r.register d = .ok (r', p) ∧ r.Adds [d] r' := by
  have hcontains : r.personas.contains d.persona = false := by
    rw [SortedMap.contains, ← get?, hfree]
    rfl
  refine ⟨⟨r.personas.insert d.persona p⟩, ?_, ⟨?_, ?_⟩⟩
  · rw [register, hcontains, hp]
    rfl
  · intro x hx
    obtain rfl := List.mem_singleton.mp hx
    exact ⟨p, hp, by rw [get?, SortedMap.get?_insert, if_pos Std.ReflOrd.compare_self]⟩
  · intro id hid
    have hne : compare id d.persona ≠ .eq := fun heq =>
      hid d (List.mem_singleton.mpr rfl) (Std.LawfulEqOrd.eq_of_compare heq).symm
    rw [get?, get?, SortedMap.get?_insert, if_neg hne]

theorem register_eq_error (htaken : r.get? d.persona ≠ none) :
    r.register d = .error (.duplicatePersona d.persona) := by
  have hcontains : r.personas.contains d.persona = true := Option.isSome_iff_ne_none.mpr htaken
  rw [register, hcontains]
  rfl

/-! ### Loading files -/

section Outcomes
variable (load : Path → Except ManifestError Definition) (r : Registry)

/-- The files hold the definitions of personas that are different from each other and not registered. -/
structure Fresh (files : List Path) (ds : List Definition) : Prop where
  loads : files.map load = ds.map .ok
  nodup : (ds.map (·.persona)).Nodup
  free : ∀ d ∈ ds, r.get? d.persona = none

/-- Why a file is refused that comes after those of the definitions `ds`. -/
inductive Refused (ds : List Definition) (p : Path) : RegistryError → Prop
  | unreadable {cause : ManifestError} (h : load p = .error cause) : Refused ds p (.manifest p cause)
  | taken {d : Definition} (h : load p = .ok d)
      (htaken : r.get? d.persona ≠ none ∨ ∃ d' ∈ ds, d'.persona = d.persona) :
      Refused ds p (.duplicatePersona d.persona)

/-- The files before the first that is refused hold the definitions `ds`; the error tells why that one is refused. -/
def Stops (files : List Path) (ds : List Definition) (e : RegistryError) : Prop :=
  ∃ before p after, files = before ++ p :: after ∧ Fresh load r before ds ∧ Refused load r ds p e

/-- What comes of loading files: either all of them are registered, and then `done` is answered, or those before the
    first that is refused. -/
inductive Outcome {α : Type} (files : List Path) (done : α) : Registry → Except RegistryError α → Prop
  | loaded {ds : List Definition} {r' : Registry} (hfresh : Fresh load r files ds) (hadds : r.Adds ds r') :
      Outcome files done r' (.ok done)
  | stopped {ds : List Definition} {e : RegistryError} {r' : Registry} (hstops : Stops load r files ds e)
      (hadds : r.Adds ds r') : Outcome files done r' (.error e)

end Outcomes

section Outcomes
variable {load : Path → Except ManifestError Definition} {files before before' after after' : List Path} {p : Path}
  {e e' : RegistryError} {α : Type} {done : α} {result : Except RegistryError α}

theorem Fresh.nil : Fresh load r [] [] := ⟨rfl, List.nodup_nil, fun _ hd => nomatch hd⟩

theorem Fresh.persona_ne (h : Fresh load r' files ds) (hadds : r.Adds [d] r') : ∀ x ∈ ds, x.persona ≠ d.persona :=
  fun x hx heq => hadds.get?_ne_none (heq ▸ h.free x hx)

theorem Fresh.cons (h : Fresh load r' files ds) (hd : load p = .ok d) (hfree : r.get? d.persona = none)
    (hadds : r.Adds [d] r') : Fresh load r (p :: files) (d :: ds) where
  loads := by rw [List.map_cons, List.map_cons, hd, h.loads]
  nodup := by
    rw [List.map_cons, List.nodup_cons]
    refine ⟨fun hmem => ?_, h.nodup⟩
    obtain ⟨x, hx, heq⟩ := List.mem_map.mp hmem
    exact h.persona_ne hadds x hx heq
  free := List.forall_mem_cons.mpr ⟨hfree, fun x hx =>
    (hadds.get?_eq_of_ne (h.persona_ne hadds x hx).symm).symm.trans (h.free x hx)⟩

theorem Refused.cons (h : Refused load r' ds p e) (hadds : r.Adds [d] r') : Refused load r (d :: ds) p e := by
  cases h with
  | unreadable hcause => exact .unreadable hcause
  | @taken x hx htaken =>
    refine .taken hx ?_
    by_cases hsame : d.persona = x.persona
    · exact Or.inr ⟨d, List.mem_cons_self .., hsame⟩
    · rcases htaken with hearlier | ⟨d', hd', heq⟩
      · exact Or.inl (hadds.get?_eq_of_ne hsame ▸ hearlier)
      · exact Or.inr ⟨d', List.mem_cons_of_mem _ hd', heq⟩

theorem Outcome.cons {r₁ : Registry} (h : Outcome load r₁ files done r' result) (hd : load p = .ok d)
    (hfree : r.get? d.persona = none) (hadds : r.Adds [d] r₁) : Outcome load r (p :: files) done r' result := by
  have happend : ∀ {files ds}, Fresh load r₁ files ds → r₁.Adds ds r' → r.Adds (d :: ds) r' := fun hfresh h' =>
    hadds.append h' fun _ hx => List.mem_singleton.mp hx ▸ hfresh.persona_ne hadds
  cases h with
  | loaded hfresh h' => exact .loaded (hfresh.cons hd hfree hadds) (happend hfresh h')
  | stopped hstops h' =>
    obtain ⟨before, x, after, rfl, hfresh, hrefused⟩ := hstops
    exact .stopped ⟨p :: before, x, after, rfl, hfresh.cons hd hfree hadds, hrefused.cons hadds⟩ (happend hfresh h')

/-- One file is registered or refused. -/
theorem loadFiles_cons (hshows : FileSystem.Shows a isFile read list) (r : Registry) (p : Path) (files : List Path) :
    (∃ d r₁, fs.loaded a p = .ok d ∧ r.get? d.persona = none ∧ r.Adds [d] r₁ ∧
      (loadFiles fs r (p :: files) : StateM σ _) a = (loadFiles fs r₁ files : StateM σ _) a) ∨
    ∃ e, Refused (fs.loaded a) r [] p e ∧ (loadFiles fs r (p :: files) : StateM σ _) a = ((r, .error e), a) := by
  rw [loadFiles, bind_of_eq (Formats.load_eq hshows fs p)]
  cases hload : fs.loaded a p with
  | error cause => exact Or.inr ⟨_, .unreadable hload, rfl⟩
  | ok d =>
    by_cases hfree : r.get? d.persona = none
    · -- Compiling cannot fail here, so a persona that is free is registered.
      obtain ⟨q, hq⟩ := Formats.exists_compile hshows hload
      obtain ⟨r₁, hregister, hadds⟩ := register_eq_ok hfree hq
      refine Or.inl ⟨d, r₁, rfl, hfree, hadds, ?_⟩
      simp only [hregister]
    · refine Or.inr ⟨_, .taken hload (Or.inl hfree), ?_⟩
      simp only [register_eq_error hfree]
      rfl

theorem loadFiles_outcome (hshows : FileSystem.Shows a isFile read list) (fs : Formats) :
    ∀ (files : List Path) (r : Registry), ∃ r' result, (loadFiles fs r files : StateM σ _) a = ((r', result), a) ∧
      Outcome (fs.loaded a) r files () r' result
  | [], r => ⟨r, .ok (), rfl, .loaded .nil (.nil r)⟩
  | p :: files, r => by
    rcases loadFiles_cons hshows r p files with ⟨d, r₁, hd, hfree, hadds, hrun⟩ | ⟨e, hrefused, hrun⟩
    · obtain ⟨r', result, hrest, hresult⟩ := loadFiles_outcome hshows fs files r₁
      exact ⟨r', result, hrun.trans hrest, hresult.cons hd hfree hadds⟩
    · exact ⟨r, .error e, hrun, .stopped ⟨[], p, files, rfl, .nil, hrefused⟩ (.nil r)⟩

/-! ### What the outcome tells -/

theorem Outcome.map {β : Type} (h : Outcome load r files done r' result) (f : α → β) :
    Outcome load r files (f done) r' (result.map f) := by
  cases h with
  | loaded hfresh hadds => exact .loaded hfresh hadds
  | stopped hstops hadds => exact .stopped hstops hadds

theorem Fresh.unique (h : Fresh load r files ds) (h' : files.map load = ds'.map .ok) : ds = ds' :=
  List.map_injective_iff.mpr (fun _ _ heq => Except.ok.inj heq) (h.loads.symm.trans h')

theorem Fresh.not_refused (h : Fresh load r (before ++ p :: after) ds) (h' : Fresh load r before ds') :
    ¬Refused load r ds' p e := by
  have hloads := h.loads
  rw [List.map_append, List.map_cons] at hloads
  obtain ⟨first, more, rfl, hfirst, hmore⟩ := List.map_eq_append_iff.mp hloads.symm
  obtain ⟨x, rest, rfl, hx, -⟩ := List.map_eq_cons_iff.mp hmore
  -- The files before hold the same definitions for both.
  obtain rfl := h'.unique hfirst.symm
  intro hrefused
  cases hrefused with
  | unreadable hcause => exact nomatch hx.trans hcause
  | taken hd htaken =>
    obtain rfl := Except.ok.inj (hx.trans hd)
    rcases htaken with hearlier | ⟨d', hd', heq⟩
    · exact hearlier (h.free x (List.mem_append_right _ (List.mem_cons_self ..)))
    · have hnodup := h.nodup
      rw [List.map_append, List.map_cons] at hnodup
      exact (List.nodup_append.mp hnodup).2.2 _ (List.mem_map_of_mem hd') _ (List.mem_cons_self ..) heq

theorem Refused.unique (h : Refused load r ds p e) (h' : Refused load r ds p e') : e = e' := by
  cases h with
  | unreadable hcause =>
    cases h' with
    | unreadable hcause' => rw [Except.error.inj (hcause.symm.trans hcause')]
    | taken hd' _ => exact nomatch hcause.symm.trans hd'
  | taken hd _ =>
    cases h' with
    | unreadable hcause' => exact nomatch hd.symm.trans hcause'
    | taken hd' _ => rw [Except.ok.inj (hd.symm.trans hd')]

theorem Stops.not_fresh (h : Stops load r files ds e) : ¬Fresh load r files ds' := by
  obtain ⟨before, p, after, rfl, hfresh, hrefused⟩ := h
  exact fun hall => hall.not_refused hfresh hrefused

/-- Files that are all registered end before one that is refused. -/
theorem Fresh.length_le (h : Fresh load r before' ds') (hfresh : Fresh load r before ds)
    (hrefused : Refused load r ds p e) (hfiles : before ++ p :: after = before' ++ after') :
    before'.length ≤ before.length := by
  rcases List.append_eq_append_iff.mp hfiles with ⟨more, rfl, hmore⟩ | ⟨more, rfl, -⟩
  · cases more with
    | nil => simp
    | cons x more =>
      obtain ⟨rfl, -⟩ := List.cons.inj hmore
      exact absurd hrefused (h.not_refused hfresh)
  · simp

theorem Stops.unique (h : Stops load r files ds e) (h' : Stops load r files ds' e') : ds = ds' ∧ e = e' := by
  obtain ⟨before, p, after, rfl, hfresh, hrefused⟩ := h
  obtain ⟨before', p', after', hfiles, hfresh', hrefused'⟩ := h'
  have hlength : before.length = before'.length :=
    Nat.le_antisymm (hfresh.length_le hfresh' hrefused' hfiles.symm) (hfresh'.length_le hfresh hrefused hfiles)
  obtain ⟨rfl, hrest⟩ := List.append_inj hfiles hlength
  obtain ⟨rfl, -⟩ := List.cons.inj hrest
  obtain rfl := hfresh.unique hfresh'.loads
  exact ⟨rfl, hrefused.unique hrefused'⟩

theorem Outcome.eq_ok_iff (h : Outcome load r files done r' result) :
    result = .ok done ↔ ∃ ds, Fresh load r files ds := by
  cases h with
  | loaded hfresh _ => exact iff_of_true rfl ⟨_, hfresh⟩
  | stopped hstops _ => exact iff_of_false (fun h => nomatch h) fun ⟨_, hfresh⟩ => hstops.not_fresh hfresh

theorem Outcome.eq_error_iff (h : Outcome load r files done r' result) :
    result = .error e ↔ ∃ ds, Stops load r files ds e := by
  cases h with
  | loaded hfresh _ => exact iff_of_false (fun h => nomatch h) fun ⟨_, hstops⟩ => hstops.not_fresh hfresh
  | stopped hstops _ =>
    refine ⟨fun h => ⟨_, Except.error.inj h ▸ hstops⟩, ?_⟩
    rintro ⟨ds', hstops'⟩
    rw [(hstops.unique hstops').2]

theorem Fresh.get?_eq_some (h : Fresh load r files ds) (hadds : r.Adds ds r') {q : Persona} (hq : r.get? id = some q) :
    r'.get? id = some q := by
  refine (hadds.kept id fun d hd heq => ?_).trans hq
  have hfree := h.free d hd
  rw [heq, hq] at hfree
  exact Option.some_ne_none q hfree

theorem Outcome.get?_eq_some (h : Outcome load r files done r' result) {q : Persona} (hq : r.get? id = some q) :
    r'.get? id = some q := by
  cases h with
  | loaded hfresh hadds => exact hfresh.get?_eq_some hadds hq
  | stopped hstops hadds =>
    obtain ⟨_, _, _, -, hfresh, -⟩ := hstops
    exact hfresh.get?_eq_some hadds hq

end Outcomes

/-! ### Directories -/

/-- The regular files in a directory that have a known format, in the order of paths. -/
structure Listed (fs : Formats) (isFile : Path → Bool) (dir : Path) (names : List String) (files : List Path) :
    Prop where
  perm : files.Perm ((names.map dir.child).filter fun p => isFile p && (fs.forPath? p).isSome)
  sorted : files.Pairwise fun p q => (compare p q).isLE

theorem child_inj_of_isLE {dir : Path} {m n : String} (hm : Path.IsName m) (hn : Path.IsName n)
    (hle : (compare (dir.child m) (dir.child n)).isLE) (hge : (compare (dir.child n) (dir.child m)).isLE) :
    dir.child m = dir.child n := by
  have hcomponents := Path.compare_eq_iff.mp (Std.OrientedCmp.isLE_antisymm hle hge)
  rw [Path.components_child dir hm, Path.components_child dir hn] at hcomponents
  simp only [List.append_cancel_left_eq, List.cons.injEq, and_true, Path.Component.name.injEq] at hcomponents
  rw [hcomponents]

theorem Listed.unique {dir : Path} {names : List String} {files files' : List Path}
    (hnames : ∀ n ∈ names, Path.IsName n) (h : Listed fs isFile dir names files)
    (h' : Listed fs isFile dir names files') : files' = files := by
  refine (h'.perm.trans h.perm.symm).eq_of_pairwise (fun p q hp hq hle hge => ?_) h'.sorted h.sorted
  obtain ⟨m, hm, rfl⟩ := List.mem_map.mp (List.mem_filter.mp (h'.perm.mem_iff.mp hp)).1
  obtain ⟨n, hn, rfl⟩ := List.mem_map.mp (List.mem_filter.mp (h.perm.mem_iff.mp hq)).1
  exact child_inj_of_isLE (hnames m hm) (hnames n hn) hle hge

theorem manifestFiles_eq (hshows : FileSystem.Shows a isFile read list) (fs : Formats) (dir : Path) :
    (∀ cause, list dir = .error cause → (manifestFiles fs dir : StateM σ _) a = (.error cause, a)) ∧
    ∀ names, list dir = .ok names → ∃ files, Listed fs isFile dir names files ∧
      (manifestFiles fs dir : StateM σ _) a = (.ok files, a) := by
  rw [manifestFiles, bind_of_eq (hshows.listDirectory_eq dir)]
  refine ⟨fun cause hlist => by rw [hlist]; rfl, fun names hlist => ?_⟩
  rw [hlist]
  dsimp only
  rw [bind_of_eq (filterM_of_eq hshows.isFile_eq _)]
  refine ⟨_, ⟨?_, ?_⟩, rfl⟩
  · refine (List.mergeSort_perm _ _).trans ?_
    rw [List.filter_filter]
    simp only [Bool.and_comm]
    exact .refl _
  · have htotal : ∀ p q : Path, ((compare p q).isLE || (compare q p).isLE) = true := fun p q => by
      have hswap : compare q p = (compare p q).swap := Std.OrientedCmp.eq_swap
      rw [hswap]
      cases compare p q <;> rfl
    exact List.pairwise_mergeSort (fun _ _ _ => Std.TransCmp.isLE_trans) htotal _

/-- A directory that cannot be listed changes nothing. Of one that can, all manifests are registered if they can be
    loaded and their personas are different and new; else the manifests before the first of which this is not true
    are registered, and the error tells what it is refused for. No persona that was registered is lost. -/
theorem loadDirectory_outcome (hshows : FileSystem.Shows a isFile read list) (fs : Formats) (r : Registry)
    (dir : Path) :
    (∀ cause, list dir = .error cause →
      (loadDirectory fs r dir : StateM σ _) a = ((r, .error (.io dir cause)), a)) ∧
    ∀ names, list dir = .ok names → ∃ files r' result, Listed fs isFile dir names files ∧
      ((∀ n ∈ names, Path.IsName n) → ∀ files', Listed fs isFile dir names files' → files' = files) ∧
      (loadDirectory fs r dir : StateM σ _) a = ((r', result), a) ∧
      Outcome (fs.loaded a) r files files.length r' result ∧
      (result = .ok files.length ↔ ∃ ds, Fresh (fs.loaded a) r files ds) ∧
      (∀ e, result = .error e ↔ ∃ ds, Stops (fs.loaded a) r files ds e) ∧
      ∀ id q, r.get? id = some q → r'.get? id = some q := by
  obtain ⟨herror, hok⟩ := manifestFiles_eq hshows fs dir
  refine ⟨fun cause hlist => ?_, fun names hlist => ?_⟩
  · rw [loadDirectory, bind_of_eq (herror cause hlist)]
    rfl
  obtain ⟨files, hfiles, hmanifests⟩ := hok names hlist
  obtain ⟨r', result, hrun, houtcome⟩ := loadFiles_outcome hshows fs files r
  have hcounted := houtcome.map fun _ => files.length
  refine ⟨files, r', _, hfiles, fun hnames files' h => hfiles.unique hnames h, ?_, hcounted, hcounted.eq_ok_iff,
    fun _ => hcounted.eq_error_iff, fun _ _ => hcounted.get?_eq_some⟩
  rw [loadDirectory, bind_of_eq hmanifests]
  dsimp only
  rw [bind_of_eq hrun]
  rfl

/-- A directory with one manifest in two files. -/
def doubled (manifest : ByteArray) : Tree where
  entries.entries := [(["m"], .directory), (["m", "a.json"], .file manifest), (["m", "b.json"], .file manifest),
    (["m", "notes.txt"], .file .empty)]
  entries.sorted := by
    have hkeys : [["m"], ["m", "a.json"], ["m", "b.json"], ["m", "notes.txt"]].Pairwise (compare · · = .lt) := by decide
    exact List.Pairwise.of_map Prod.fst (fun _ _ h => h) hkeys

theorem manifest_forked : Format.json.manifest Manifest.forked.compact = .ok .forked := by
  have hexact : Manifest.forked.Exact := by decide
  have hdepth : Manifest.forked.depth ≤ Json.maxDepth := by decide
  have hparse : Json.parse? Manifest.forked.compact = some Manifest.forked.canonical := by
    rw [Json.parse?_compact hexact, Json.accepted, if_pos hdepth]
  rw [Format.manifest, Format.decode, hparse]
  cbv

theorem listed_doubled (manifest : ByteArray) : Listed .standard (doubled manifest).holdsFile ⟨"m"⟩
    ["a.json", "b.json", "notes.txt"] [⟨"m/a.json"⟩, ⟨"m/b.json"⟩] where
  perm := .of_eq rfl
  sorted := by decide

/-- The first file is registered; the second is refused, since the persona of the first is in it again. -/
theorem loadDirectory_doubled : ∃ t : Tree, FileSystem.Shows t t.holdsFile t.read t.list ∧
    t.list ⟨"m"⟩ = .ok ["a.json", "b.json", "notes.txt"] ∧
    (∀ n ∈ ["a.json", "b.json", "notes.txt"], Path.IsName n) ∧
    Listed .standard t.holdsFile ⟨"m"⟩ ["a.json", "b.json", "notes.txt"] [⟨"m/a.json"⟩, ⟨"m/b.json"⟩] ∧
    ∃ r' p, (loadDirectory .standard .empty ⟨"m"⟩ : StateM Tree _) t =
        ((r', .error (.duplicatePersona "forked")), t) ∧
      Persona.compile .forked = .ok p ∧ r'.get? "forked" = some p := by
  let t := doubled Manifest.forked.compact.toUTF8
  have hlist : t.list ⟨"m"⟩ = .ok ["a.json", "b.json", "notes.txt"] := rfl
  have hnames : ∀ n ∈ ["a.json", "b.json", "notes.txt"], Path.IsName n := by
    simp only [List.forall_mem_cons, List.not_mem_nil, IsEmpty.forall_iff, implies_true, and_true]
    exact ⟨⟨by decide, by decide, by decide, by decide⟩, ⟨by decide, by decide, by decide, by decide⟩,
      ⟨by decide, by decide, by decide, by decide⟩⟩
  have hfirst : Formats.standard.loaded t ⟨"m/a.json"⟩ = .ok .forked :=
    (Formats.loaded_of_text t.showsFiles rfl rfl).trans manifest_forked
  have hsecond : Formats.standard.loaded t ⟨"m/b.json"⟩ = .ok .forked :=
    (Formats.loaded_of_text t.showsFiles rfl rfl).trans manifest_forked
  have hstops : Stops (Formats.standard.loaded t) .empty [⟨"m/a.json"⟩, ⟨"m/b.json"⟩] [.forked]
      (.duplicatePersona "forked") :=
    ⟨[⟨"m/a.json"⟩], ⟨"m/b.json"⟩, [], rfl,
      ⟨by rw [List.map_singleton, hfirst]; rfl, List.nodup_singleton _, fun d _ => rfl⟩,
      .taken hsecond (Or.inr ⟨.forked, List.mem_singleton.mpr rfl, rfl⟩)⟩
  obtain ⟨-, h⟩ := loadDirectory_outcome t.showsFiles .standard .empty ⟨"m"⟩
  obtain ⟨files, r', result, -, hunique, hrun, houtcome, -, herror, -⟩ := h _ hlist
  obtain rfl := hunique hnames _ (listed_doubled _)
  obtain rfl := (herror _).mpr ⟨_, hstops⟩
  cases houtcome with
  | stopped hstops' hadds =>
    obtain ⟨rfl, -⟩ := hstops.unique hstops'
    obtain ⟨p, hp, hget⟩ := hadds.added .forked (List.mem_singleton.mpr rfl)
    exact ⟨t, t.showsFiles, hlist, hnames, listed_doubled _, r', p, hrun, hp, hget⟩

end Registry
end StageLineage
