import Mathlib.Data.List.Induction
import StageLineage.Proofs.Path.Ancestors
import StageLineage.Proofs.Store.Memory

/-! Calls that change a store in memory. What directories are known after some calls, and hence what may be written,
    depends on which directories were ensured and on nothing else: going up to the first known directory comes to the
    same as going up to the end, because all directories above a known one are known. -/

namespace StageLineage

/-- A call that changes a store. -/
inductive StoreCall where
  | ensureDirectory (dir : Path)
  | write (file : Path) (bytes : ByteArray)

def StoreCall.perform : StoreCall → StateM MemoryStore (Except StoreError Unit)
  | ensureDirectory dir => SessionStore.ensureDirectory dir
  | write file bytes => SessionStore.write file bytes

namespace MemoryStore
variable {calls more : List StoreCall} {s s' : MemoryStore} {known : SortedMap Path Unit} {p q dir : Path}
  {bytes : ByteArray}

/-- The store after some calls on an empty one. -/
def afterCalls (calls : List StoreCall) : MemoryStore := calls.foldl (fun s c => (c.perform.run s).2) empty

theorem afterCalls_concat (calls : List StoreCall) (c : StoreCall) :
    afterCalls (calls ++ [c]) = (c.perform.run (afterCalls calls)).2 := by
  rw [afterCalls, List.foldl_append]
  rfl

/-- Some call ensured a directory, or one below it. -/
def Ensured (calls : List StoreCall) (dir : Path) : Prop :=
  ∃ p, .ensureDirectory p ∈ calls ∧ ∃ q ∈ p.ancestors, compare q dir = .eq

/-- The directory in which a path is, if it has one, is the working directory or was ensured. -/
def HasDirectory (calls : List StoreCall) (p : Path) : Prop :=
  ∀ dir, p.parent? = some dir → dir.isEmpty = true ∨ Ensured calls dir

/-! ### Ensured directories -/

theorem Ensured.mono (h : Ensured calls dir) : Ensured (calls ++ more) dir := by
  obtain ⟨p, hp, hdir⟩ := h
  exact ⟨p, List.mem_append_left _ hp, hdir⟩

theorem Ensured.congr (h : Ensured calls p) (heq : compare p q = .eq) : Ensured calls q := by
  obtain ⟨r, hr, above, habove, hp⟩ := h
  exact ⟨r, hr, above, habove, Std.TransCmp.eq_trans hp heq⟩

theorem ensured_concat_iff {c : StoreCall} : Ensured (calls ++ [c]) dir ↔
    Ensured calls dir ∨ ∃ p, c = .ensureDirectory p ∧ ∃ q ∈ p.ancestors, compare q dir = .eq := by
  simp only [Ensured, List.mem_append, List.mem_singleton, or_and_right, exists_or, eq_comm]

theorem ensured_iff (hdir : dir.isEmpty = false) :
    Ensured calls dir ↔ ∃ p, .ensureDirectory p ∈ calls ∧ p.startsWith dir = true :=
  exists_congr fun _ => and_congr_right fun _ => Path.exists_ancestor_iff hdir

theorem hasDirectory_iff : HasDirectory calls p ↔ ∀ dir, p.directory? = some dir → Ensured calls dir := by
  constructor
  · intro h dir hdir
    obtain ⟨hparent, hempty⟩ := Path.directory?_eq_some_iff.mp hdir
    exact (h dir hparent).resolve_left (by simp [hempty])
  · intro h dir hparent
    cases hempty : dir.isEmpty with
    | true => exact Or.inl rfl
    | false => exact Or.inr (h dir (Path.directory?_eq_some_iff.mpr ⟨hparent, hempty⟩))

theorem HasDirectory.mono (h : HasDirectory calls p) : HasDirectory (calls ++ more) p := fun dir hdir =>
  (h dir hdir).imp_right Ensured.mono

theorem HasDirectory.congr (h : HasDirectory calls p) (heq : compare q p = .eq) : HasDirectory calls q := by
  rw [hasDirectory_iff] at h ⊢
  intro dir hdir
  obtain ⟨dir', hdir', hsame⟩ := Path.exists_directory?_of_compare heq hdir
  exact (h dir' hdir').congr hsame

/-! ### Going up to the first known directory -/

/-- Makes all of some paths known. -/
def insertAll (known : SortedMap Path Unit) (dirs : List Path) : SortedMap Path Unit :=
  dirs.foldl (fun known p => known.insert p ()) known

theorem contains_insertAll {dirs : List Path} :
    (insertAll known dirs).contains p = true ↔ known.contains p = true ∨ ∃ q ∈ dirs, compare q p = .eq := by
  induction dirs generalizing known with
  | nil => simp [insertAll]
  | cons q dirs ih =>
    rw [insertAll, List.foldl_cons, ← insertAll, ih, SortedMap.contains_insert]
    simp only [Bool.or_eq_true, beq_iff_eq, List.exists_mem_cons_iff]
    rw [Std.OrientedCmp.eq_comm (a := p)]
    tauto

theorem insertAll_of_contains {dirs : List Path} (h : ∀ p ∈ dirs, known.contains p = true) :
    insertAll known dirs = known := by
  induction dirs with
  | nil => rfl
  | cons p dirs ih =>
    obtain ⟨hp, hdirs⟩ := List.forall_mem_cons.mp h
    rw [insertAll, List.foldl_cons, SortedMap.insert_of_get? (Option.isSome_iff_exists.mp hp).choose_spec]
    exact ih hdirs

/-- Above a known path all paths are known, so that nothing is lost when going up ends there. -/
theorem addDirectories_eq_insertAll {dirs : List Path}
    (h : dirs.Pairwise fun q r => compare q r ≠ .eq ∧ (known.contains q = true → known.contains r = true)) :
    addDirectories known dirs = insertAll known dirs := by
  induction dirs generalizing known with
  | nil => rfl
  | cons p dirs ih =>
    obtain ⟨hp, hdirs⟩ := List.pairwise_cons.mp h
    rw [addDirectories]
    split
    · next hknown =>
      exact (insertAll_of_contains (List.forall_mem_cons.mpr ⟨hknown, fun q hq => (hp q hq).2 hknown⟩)).symm
    · refine ih (hdirs.imp_of_mem fun {q r} hq hr hqr => ⟨hqr.1, ?_⟩)
      rw [contains_insert_of_ne fun heq => (hp q hq).1 (Std.OrientedCmp.eq_symm heq),
        contains_insert_of_ne fun heq => (hp r hr).1 (Std.OrientedCmp.eq_symm heq)]
      exact hqr.2

/-! ### What a store shows of the calls -/

/-- A store shows of some calls which directories were ensured, and only holds files in these. -/
structure Reflects (calls : List StoreCall) (s : MemoryStore) : Prop where
  contains_iff : ∀ dir, s.directories.contains dir = true ↔ dir.isEmpty = false ∧ Ensured calls dir
  hasDirectory : ∀ p, s.fileExists p = true → HasDirectory calls p

namespace Reflects

theorem contains_of_startsWith (h : Reflects calls s) (hp : s.directories.contains p = true) (hdir : dir.isEmpty = false)
    (hstarts : p.startsWith dir = true) : s.directories.contains dir = true := by
  obtain ⟨hempty, hensured⟩ := (h.contains_iff p).mp hp
  obtain ⟨q, hq, hbegins⟩ := (ensured_iff hempty).mp hensured
  rw [Path.startsWith_iff] at hbegins hstarts
  exact (h.contains_iff dir).mpr ⟨hdir, (ensured_iff hdir).mpr ⟨q, hq, Path.startsWith_iff.mpr (hstarts.trans hbegins)⟩⟩

theorem ensureDirectory_eq (h : Reflects calls s) (p : Path) :
    s.ensureDirectory p = ⟨insertAll s.directories (p.ancestors.filter (!·.isEmpty)), s.files⟩ := by
  rw [ensureDirectory, addDirectories_eq_insertAll]
  refine (Path.pairwise_ancestors p).imp_of_mem fun {q r} _ hr hqr => ⟨fun heq => ?_, fun hq => ?_⟩
  · exact hqr.2 (Path.compare_eq_iff.mp heq).symm
  · exact h.contains_of_startsWith hq (by simpa using (List.mem_filter.mp hr).2) (Path.startsWith_iff.mpr hqr.1)

theorem write_eq_ok (h : Reflects calls s) (hp : HasDirectory calls p) (bytes : ByteArray) :
    s.write p bytes = .ok ⟨s.directories, s.files.insert p bytes⟩ := by
  rw [write]
  cases hdir : p.directory? with
  | none => rfl
  | some dir =>
    have hempty := (Path.components_directory? hdir).2
    have hknown := (h.contains_iff dir).mpr ⟨hempty, hasDirectory_iff.mp hp dir hdir⟩
    simp [hknown]

theorem write_eq_error (h : Reflects calls s) (hp : ¬HasDirectory calls p) (bytes : ByteArray) :
    ∃ dir, p.parent? = some dir ∧ s.write p bytes = .error (.missingDirectory dir) := by
  obtain ⟨dir, hdir, hensured⟩ : ∃ dir, p.directory? = some dir ∧ ¬Ensured calls dir := by
    simpa [hasDirectory_iff] using hp
  have hunknown : ¬s.directories.contains dir = true := fun hknown => hensured ((h.contains_iff dir).mp hknown).2
  refine ⟨dir, (Path.directory?_eq_some_iff.mp hdir).1, ?_⟩
  simp [write, hdir, hunknown]

theorem run_write (h : Reflects calls s) (hp : HasDirectory calls p) (bytes : ByteArray) :
    (StoreCall.write p bytes).perform.run s = (.ok (), ⟨s.directories, s.files.insert p bytes⟩) :=
  run_write_of_ok (h.write_eq_ok hp bytes)

theorem run_refused (h : Reflects calls s) (hp : ¬HasDirectory calls p) (bytes : ByteArray) :
    ∃ dir, p.parent? = some dir ∧
      (StoreCall.write p bytes).perform.run s = (.error (.missingDirectory dir), s) := by
  obtain ⟨dir, hdir, hwrite⟩ := h.write_eq_error hp bytes
  exact ⟨dir, hdir, run_write_of_error hwrite⟩

theorem hasDirectory_of_run_write (h : Reflects calls s)
    (hrun : ((StoreCall.write p bytes).perform.run s).1 = .ok ()) : HasDirectory calls p := by
  by_contra hp
  obtain ⟨dir, -, hrefused⟩ := h.run_refused hp bytes
  rw [hrefused] at hrun
  cases hrun

theorem eq_of_run_write (h : Reflects calls s) (hrun : (StoreCall.write p bytes).perform.run s = (.ok (), s')) :
    s' = ⟨s.directories, s.files.insert p bytes⟩ := by
  have hp := h.hasDirectory_of_run_write (congrArg Prod.fst hrun)
  exact (Prod.mk.inj (hrun.symm.trans (h.run_write hp bytes))).2

/-! ### One more call -/

theorem ensured (h : Reflects calls s) (p : Path) : Reflects (calls ++ [.ensureDirectory p]) (s.ensureDirectory p) where
  contains_iff dir := by
    rw [h.ensureDirectory_eq, contains_insertAll, h.contains_iff, Path.exists_filter_ancestors_iff, ← and_or_left,
      ensured_concat_iff]
    simp
  hasDirectory q hq := by
    rw [h.ensureDirectory_eq] at hq
    exact (h.hasDirectory q hq).mono

theorem refused (h : Reflects calls s) (p : Path) (bytes : ByteArray) : Reflects (calls ++ [.write p bytes]) s where
  contains_iff dir := by
    rw [h.contains_iff, ensured_concat_iff]
    simp
  hasDirectory q hq := (h.hasDirectory q hq).mono

theorem written (h : Reflects calls s) (hp : HasDirectory calls p) (bytes : ByteArray) :
    Reflects (calls ++ [.write p bytes]) ⟨s.directories, s.files.insert p bytes⟩ where
  contains_iff := (h.refused p bytes).contains_iff
  hasDirectory q hq := by
    rw [fileExists, SortedMap.contains_insert, Bool.or_eq_true, beq_iff_eq] at hq
    rcases hq with heq | hq
    · exact (hp.congr heq).mono
    · exact (h.hasDirectory q hq).mono

theorem perform (h : Reflects calls s) (c : StoreCall) : Reflects (calls ++ [c]) (c.perform.run s).2 := by
  cases c with
  | ensureDirectory p => exact h.ensured p
  | write p bytes =>
    by_cases hp : HasDirectory calls p
    · rw [h.run_write hp]
      exact h.written hp bytes
    · obtain ⟨dir, -, hrun⟩ := h.run_refused hp bytes
      rw [hrun]
      exact h.refused p bytes

end Reflects

theorem reflects_afterCalls (calls : List StoreCall) : Reflects calls (afterCalls calls) := by
  induction calls using List.reverseRecOn with
  | nil => exact ⟨fun dir => by simp [afterCalls, empty, Ensured, SortedMap.contains], fun p hp => nomatch hp⟩
  | append_singleton calls c ih =>
    rw [afterCalls_concat]
    exact ih.perform c

/-! ### How a store answers -/

/-- What a store answers after some calls. -/
structure Lawful (calls : List StoreCall) (s : MemoryStore) : Prop where
  contains_iff : ∀ dir, s.directories.contains dir = true ↔ dir.isEmpty = false ∧ Ensured calls dir
  contains_ancestor : ∀ dir, s.directories.contains dir = true → ∀ above ∈ dir.ancestors, above.isEmpty = false →
    s.directories.contains above = true
  /-- Ensuring a directory, which ends at the first one that is known, makes all known that are above it. -/
  run_ensureDirectory : ∀ dir, (StoreCall.ensureDirectory dir).perform.run s =
    (.ok (), ⟨insertAll s.directories (dir.ancestors.filter (!·.isEmpty)), s.files⟩)
  hasDirectory : ∀ p, s.fileExists p = true → HasDirectory calls p
  write_iff : ∀ p bytes, ((StoreCall.write p bytes).perform.run s).1 = .ok () ↔ HasDirectory calls p
  refused : ∀ p bytes, ¬HasDirectory calls p → ∃ dir, p.parent? = some dir ∧
    (StoreCall.write p bytes).perform.run s = (.error (.missingDirectory dir), s)
  /-- A file that was written is read under every spelling of its path. -/
  written : ∀ p bytes s', (StoreCall.write p bytes).perform.run s = (.ok (), s') → ∀ q, compare q p = .eq →
    s'.read? q = some bytes ∧ s'.fileExists q = true
  others : ∀ p bytes s', (StoreCall.write p bytes).perform.run s = (.ok (), s') → ∀ q, compare q p ≠ .eq →
    s'.read? q = s.read? q ∧ s'.fileExists q = s.fileExists q

/-- Whatever calls came before, a store knows the ensured directories and all above them, holds files only in these,
    and a write into one of them changes what is read of the written path and of no other. -/
theorem lawful_afterCalls (calls : List StoreCall) : Lawful calls (afterCalls calls) where
  contains_iff := (reflects_afterCalls calls).contains_iff
  contains_ancestor dir hdir above habove hempty := by
    have hstarts := (Path.exists_ancestor_iff hempty).mp ⟨above, habove, Std.ReflCmp.compare_self⟩
    exact (reflects_afterCalls calls).contains_of_startsWith hdir hempty hstarts
  run_ensureDirectory dir := congrArg (Prod.mk _) ((reflects_afterCalls calls).ensureDirectory_eq dir)
  hasDirectory := (reflects_afterCalls calls).hasDirectory
  write_iff p bytes := by
    refine ⟨(reflects_afterCalls calls).hasDirectory_of_run_write, fun hp => ?_⟩
    rw [(reflects_afterCalls calls).run_write hp]
  refused p bytes hp := (reflects_afterCalls calls).run_refused hp bytes
  written p bytes s' hrun q heq := by
    obtain rfl := (reflects_afterCalls calls).eq_of_run_write hrun
    exact ⟨by rw [read?, SortedMap.get?_insert, if_pos heq], by simp [fileExists, SortedMap.contains_insert, heq]⟩
  others p bytes s' hrun q hne := by
    obtain rfl := (reflects_afterCalls calls).eq_of_run_write hrun
    exact ⟨by rw [read?, SortedMap.get?_insert, if_neg hne, read?],
      by simp [fileExists, SortedMap.contains_insert, hne]⟩

/-- Calls that spell their paths in several ways. The first write is refused, as a leading `.` makes another path. -/
def spelledCalls : List StoreCall :=
  [.ensureDirectory ⟨"a//b/."⟩, .write ⟨"./a/f"⟩ .empty, .write ⟨"a/f"⟩ "one".toUTF8, .write ⟨"a/./b/f"⟩ "two".toUTF8]

theorem lawful_spelled :
    (afterCalls spelledCalls).directories.contains ⟨"a/b"⟩ = true ∧
    (afterCalls spelledCalls).directories.contains ⟨"a"⟩ = true ∧
    (afterCalls spelledCalls).fileExists ⟨"a/b//f"⟩ = true ∧ HasDirectory spelledCalls ⟨"a/b//f"⟩ ∧
    ¬HasDirectory spelledCalls ⟨"./a/f"⟩ ∧
    (∃ dir, (StoreCall.write ⟨"./a/f"⟩ .empty).perform.run (afterCalls spelledCalls) =
      (.error (.missingDirectory dir), afterCalls spelledCalls)) ∧
    ∃ s', (StoreCall.write ⟨"a/b/f/"⟩ .empty).perform.run (afterCalls spelledCalls) = (.ok (), s') ∧
      (s'.read? ⟨"a//b/f"⟩ = some .empty ∧ s'.fileExists ⟨"a//b/f"⟩ = true) ∧
      s'.read? ⟨"a/f"⟩ = (afterCalls spelledCalls).read? ⟨"a/f"⟩ ∧
      s'.fileExists ⟨"a/f"⟩ = (afterCalls spelledCalls).fileExists ⟨"a/f"⟩ := by
  have h := lawful_afterCalls spelledCalls
  have hdirectory : (afterCalls spelledCalls).directories.contains ⟨"a/b"⟩ = true := by decide
  have hfile : (afterCalls spelledCalls).fileExists ⟨"a/b//f"⟩ = true := by decide
  have hrefused : ¬HasDirectory spelledCalls ⟨"./a/f"⟩ := by
    rw [← h.write_iff _ .empty]
    decide
  obtain ⟨dir, -, hrun⟩ := h.refused _ .empty hrefused
  have hwrite : ((StoreCall.write ⟨"a/b/f/"⟩ .empty).perform.run (afterCalls spelledCalls)).1 = .ok () := by decide
  refine ⟨hdirectory, h.contains_ancestor _ hdirectory _ (by decide) rfl, hfile, h.hasDirectory _ hfile, hrefused,
    ⟨dir, hrun⟩, _, Prod.ext hwrite rfl, ?_, ?_⟩
  · exact h.written _ _ _ (Prod.ext hwrite rfl) _ (by decide)
  · exact h.others _ _ _ (Prod.ext hwrite rfl) _ (by decide)

end MemoryStore
end StageLineage
