import StageLineage.Proofs.LineagePath
import StageLineage.Proofs.SortedMap
import StageLineage.Store.Memory

/-! Files of a store in memory. Once the directory of an envelope was made, its file can be written, and
    the write changes that file alone. Two directories below one path may be made in either order. -/

namespace StageLineage.MemoryStore

/-! ### Writing -/

theorem run_write_of_ok {s s' : MemoryStore} {p : Path} {bytes : ByteArray} (h : s.write p bytes = .ok s') :
    (SessionStore.write p bytes : StateM MemoryStore _) s = (.ok (), s') := by
  dsimp only [SessionStore.write]
  rw [h]

theorem run_write_of_error {s : MemoryStore} {p : Path} {bytes : ByteArray} {e : StoreError}
    (h : s.write p bytes = .error e) : (SessionStore.write p bytes : StateM MemoryStore _) s = (.error e, s) := by
  dsimp only [SessionStore.write]
  rw [h]

/-! ### Making directories -/

theorem contains_addDirectories {known : SortedMap Path Unit} {p : Path} (h : known.contains p = true) :
    ∀ dirs, (addDirectories known dirs).contains p = true
  | [] => h
  | q :: above => by
    rw [addDirectories]
    split
    · exact h
    · refine contains_addDirectories ?_ above
      rw [SortedMap.contains_insert]
      simp [h]

theorem directories_ensureDirectory (store : MemoryStore) {p : Path} (hp : p.isEmpty = false) :
    (store.ensureDirectory p).directories = addDirectories store.directories (p :: p.parents.filter (!·.isEmpty)) := by
  rw [ensureDirectory, Path.ancestors, List.filter_cons_of_pos (by simp [hp])]

theorem contains_ensureDirectory (store : MemoryStore) {p : Path} (hp : p.isEmpty = false) :
    (store.ensureDirectory p).directories.contains p = true := by
  rw [directories_ensureDirectory store hp, addDirectories]
  split
  · assumption
  · refine contains_addDirectories ?_ _
    rw [SortedMap.contains_insert]
    simp [Std.ReflCmp.compare_self]

theorem directories_ensureDirectory_of_contains (store : MemoryStore) {p : Path} (hp : p.isEmpty = false)
    (h : store.directories.contains p = true) : (store.ensureDirectory p).directories = store.directories := by
  rw [directories_ensureDirectory store hp, addDirectories, if_pos h]

/-! ### Two directories -/

/-- No path of one list is a path of the other. -/
def Apart (ps qs : List Path) : Prop := ∀ p ∈ ps, ∀ q ∈ qs, compare p q ≠ .eq

theorem Apart.symm {ps qs : List Path} (h : Apart ps qs) : Apart qs ps := fun q hq p hp heq =>
  h p hp q hq (Std.OrientedCmp.eq_symm heq)

theorem contains_insert_of_ne {known : SortedMap Path Unit} {p q : Path} (h : compare p q ≠ .eq) :
    (known.insert q ()).contains p = known.contains p := by
  rw [SortedMap.contains_insert, beq_eq_false_iff_ne.mpr h, Bool.false_or]

theorem contains_addDirectories_of_ne {p : Path} :
    ∀ {dirs : List Path} {known : SortedMap Path Unit}, (∀ q ∈ dirs, compare p q ≠ .eq) →
      (addDirectories known dirs).contains p = known.contains p
  | [], _, _ => rfl
  | q :: above, known, h => by
    obtain ⟨hq, habove⟩ := List.forall_mem_cons.mp h
    rw [addDirectories]
    split
    · rfl
    · rw [contains_addDirectories_of_ne habove, contains_insert_of_ne hq]

theorem any_contains_addDirectories {ps dirs : List Path} {known : SortedMap Path Unit} (h : Apart ps dirs) :
    ps.any (addDirectories known dirs).contains = ps.any known.contains := by
  rw [Bool.eq_iff_iff, List.any_eq_true, List.any_eq_true]
  refine exists_congr fun p => and_congr_right fun hp => ?_
  rw [contains_addDirectories_of_ne (h p hp)]

theorem addDirectories_insert {p : Path} :
    ∀ {dirs : List Path} {known : SortedMap Path Unit}, (∀ q ∈ dirs, compare p q ≠ .eq) →
      addDirectories (known.insert p ()) dirs = (addDirectories known dirs).insert p ()
  | [], _, _ => rfl
  | q :: above, known, h => by
    obtain ⟨hq, habove⟩ := List.forall_mem_cons.mp h
    rw [addDirectories, addDirectories, contains_insert_of_ne fun heq => hq (Std.OrientedCmp.eq_symm heq)]
    split
    · rfl
    · rw [SortedMap.insert_comm known hq, addDirectories_insert habove]

theorem addDirectories_comm_of_apart {qs : List Path} :
    ∀ {ps : List Path} (known : SortedMap Path Unit), Apart ps qs →
      addDirectories (addDirectories known ps) qs = addDirectories (addDirectories known qs) ps
  | [], _, _ => rfl
  | p :: ps, known, h => by
    obtain ⟨hp, hps⟩ := List.forall_mem_cons.mp h
    rw [addDirectories, addDirectories, contains_addDirectories_of_ne hp]
    split
    · rfl
    · rw [addDirectories_comm_of_apart _ hps, addDirectories_insert hp]

theorem addDirectories_self (known : SortedMap Path Unit) :
    ∀ dirs, addDirectories (addDirectories known dirs) dirs = addDirectories known dirs
  | [] => rfl
  | p :: above => by
    have hp : (addDirectories known (p :: above)).contains p = true := by
      rw [addDirectories]
      split
      · assumption
      · refine contains_addDirectories ?_ above
        rw [SortedMap.contains_insert]
        simp [Std.ReflCmp.compare_self]
    rw [addDirectories, if_pos hp]

/-- The directories above some new ones are only reached if none of the new ones is known. -/
theorem addDirectories_append {outer : List Path} :
    ∀ {inner : List Path} {known : SortedMap Path Unit}, (inner.Pairwise fun p q => compare p q ≠ .eq) →
      addDirectories known (inner ++ outer) =
        if inner.any known.contains then addDirectories known inner
        else addDirectories (addDirectories known inner) outer
  | [], _, _ => by simp [addDirectories]
  | p :: inner, known, h => by
    obtain ⟨hp, hinner⟩ := List.pairwise_cons.mp h
    have hsame : inner.any (known.insert p ()).contains = inner.any known.contains := by
      rw [Bool.eq_iff_iff, List.any_eq_true, List.any_eq_true]
      refine exists_congr fun x => and_congr_right fun hx => ?_
      rw [contains_insert_of_ne fun heq => hp x hx (Std.OrientedCmp.eq_symm heq)]
    rw [List.cons_append, addDirectories, addDirectories, List.any_cons]
    by_cases hknown : known.contains p = true
    · simp [hknown]
    · simp only [hknown, Bool.false_or]
      rw [addDirectories_append hinner, hsame]
      rfl

/-- Two ways up that meet may be gone in either order. -/
theorem addDirectories_fork {known : SortedMap Path Unit} {ps qs outer : List Path}
    (hps : ps.Pairwise fun p q => compare p q ≠ .eq) (hqs : qs.Pairwise fun p q => compare p q ≠ .eq)
    (hapart : Apart ps qs) (hpouter : Apart ps outer) (hqouter : Apart qs outer) :
    addDirectories (addDirectories known (ps ++ outer)) (qs ++ outer) =
      addDirectories (addDirectories known (qs ++ outer)) (ps ++ outer) := by
  rw [addDirectories_append hps, addDirectories_append hqs, addDirectories_append hps, addDirectories_append hqs]
  have hpknown : ps.any (addDirectories known qs).contains = ps.any known.contains := any_contains_addDirectories hapart
  have hqknown : qs.any (addDirectories known ps).contains = qs.any known.contains :=
    any_contains_addDirectories hapart.symm
  have hpouter' := fun known => addDirectories_comm_of_apart known hpouter
  have hqouter' := fun known => addDirectories_comm_of_apart known hqouter
  have hcomm := addDirectories_comm_of_apart known hapart
  -- A way up that ends at a known path does not go on to what both have above them.
  cases hp : ps.any known.contains with
  | true =>
    cases hq : qs.any known.contains with
    | true => simp [hpknown, hqknown, hp, hq, hcomm]
    | false =>
      simp only [any_contains_addDirectories hpouter, hpknown, hqknown, hp, hq, Bool.false_eq_true, if_true, if_false]
      rw [hcomm, hpouter']
  | false =>
    cases hq : qs.any known.contains with
    | true =>
      simp only [any_contains_addDirectories hqouter, hpknown, hqknown, hp, hq, Bool.false_eq_true, if_true, if_false]
      rw [← hcomm, hqouter']
    | false =>
      simp only [any_contains_addDirectories hqouter, any_contains_addDirectories hpouter, hpknown, hqknown, hp, hq,
        Bool.false_eq_true, if_false]
      rw [← hqouter', addDirectories_self, ← hpouter', addDirectories_self, hcomm]

/-- Two directories below one path may be made in either order. -/
theorem directories_ensureDirectory_comm (store : MemoryStore) (root : Path) {names more : List String}
    (hne : names ≠ []) (hmore : more ≠ []) (hn : ∀ n ∈ names, Path.IsName n) (hm : ∀ n ∈ more, Path.IsName n) :
    ((store.ensureDirectory (root.descend names)).ensureDirectory (root.descend more)).directories =
      ((store.ensureDirectory (root.descend more)).ensureDirectory (root.descend names)).directories := by
  obtain ⟨common, ns, ms, rfl, rfl, hfork⟩ := Path.exists_fork names more
  have hns : ∀ n ∈ ns, Path.IsName n := fun n h => hn n (List.mem_append_right _ h)
  have hms : ∀ n ∈ ms, Path.IsName n := fun n h => hm n (List.mem_append_right _ h)
  have hcommon : ∀ n ∈ common, Path.IsName n := fun n h => hn n (List.mem_append_left _ h)
  simp only [ensureDirectory, Path.ancestors_descend root hne hn, Path.ancestors_descend root hmore hm,
    Path.below_append, List.append_assoc, ← Path.trail_descend root hcommon]
  exact addDirectories_fork (Path.pairwise_below hns) (Path.pairwise_below hms)
    (fun p hp q hq => Path.compare_below_of_fork hns hms hfork hp hq)
    (fun p hp q hq => Path.compare_below_trail hns hp hq) fun p hp q hq => Path.compare_below_trail hms hp hq

/-! ### The files of envelopes -/

theorem directory?_artifactPath {p : StagePath} (root : Path) (hdir : p.dir.Named) (hstage : Path.IsName p.stage) :
    (root.join p.artifactPath).directory? = some (root.join p.metaDir) := by
  rw [StagePath.join_artifactPath_eq_child root hdir hstage, StagePath.join_metaDir_eq_child root hdir, Path.directory?,
    Path.parent?_child_child _ StagePath.isName_metaName (StagePath.isName_artifactFile hstage)]
  simp [Path.isEmpty_child _ StagePath.isName_metaName]

/-- The directories of two envelopes may be made in either order. -/
theorem directories_metaDir_comm (store : MemoryStore) {p q : StagePath} (root : Path) (hp : p.dir.Named)
    (hq : q.dir.Named) :
    ((store.ensureDirectory (root.join p.metaDir)).ensureDirectory (root.join q.metaDir)).directories =
      ((store.ensureDirectory (root.join q.metaDir)).ensureDirectory (root.join p.metaDir)).directories := by
  rw [StagePath.join_metaDir root hp, StagePath.join_metaDir root hq]
  exact directories_ensureDirectory_comm store root (by simp) (by simp) (StagePath.isName_of_mem_metaDir hp)
    (StagePath.isName_of_mem_metaDir hq)

/-- An envelope can be written into the directory that was made for it. -/
theorem write_artifactPath (store : MemoryStore) {p : StagePath} (root : Path) (hdir : p.dir.Named)
    (hstage : Path.IsName p.stage) (bytes : ByteArray) :
    (store.ensureDirectory (root.join p.metaDir)).write (root.join p.artifactPath) bytes =
      .ok ⟨(store.ensureDirectory (root.join p.metaDir)).directories,
        store.files.insert (root.join p.artifactPath) bytes⟩ := by
  have hempty : (root.join p.metaDir).isEmpty = false := by
    rw [StagePath.join_metaDir_eq_child root hdir]
    exact Path.isEmpty_child _ StagePath.isName_metaName
  simp [write, directory?_artifactPath root hdir hstage, contains_ensureDirectory store hempty]
  rfl

/-- A store that holds one file without content. -/
def holding (dir : Path) (name : String) : MemoryStore :=
  { empty.ensureDirectory dir with files := SortedMap.empty.insert (dir.child name) .empty }

theorem fileExists_holding (dir : Path) (name : String) : (holding dir name).fileExists (dir.child name) = true := by
  simp [fileExists, holding, SortedMap.contains_insert]

end StageLineage.MemoryStore
