import StageLineage.Proofs.Session.Memory

/-! Which files and directories of different stages may meet. Two stages never share a file or a directory of
    envelopes, in the default layout or in any two lineages. A file of one stage lies where another stage needs
    a directory only if the stages go on, below the first one, with a stage `meta` and with a directory that is
    named like the file. -/

namespace StageLineage

namespace Path

theorem map_name_inj {names more : List String} : names.map Component.name = more.map .name ↔ names = more :=
  List.map_inj_right fun _ _ h => Component.name.inj h

theorem map_name_prefix_iff {names more : List String} :
    names.map Component.name <+: more.map .name ↔ names <+: more := by
  refine ⟨fun h => ?_, fun h => h.map _⟩
  obtain ⟨first, hfirst, heq⟩ := List.prefix_map_iff.mp h
  rwa [map_name_inj.mp heq]

end Path

namespace Segment

/-- Only a stage has the directory name of the directories of envelopes. -/
theorem eq_stage_of_dirName_eq_metaName {s : Segment} (h : s.dirName = StagePath.metaName) :
    s = .stage StagePath.metaName := by
  cases s with
  | stage id => exact congrArg stage h
  | join ids =>
    have hlist := congrArg String.toList h
    rw [toList_dirName_join] at hlist
    simp [StagePath.metaName] at hlist

end Segment

namespace StagePath
variable {p q : StagePath}

/-- The envelope file lies below a root, two names further than the directory of the stage. -/
def LiesBelow (root : Path) (q : StagePath) : Prop :=
  ∃ names : List String, (root.join q.artifactPath).components = root.components ++ names.map .name ∧
    names.length = q.dir.length + 2 ∧ ∀ n ∈ names, Path.IsName n

theorem components_join_metaDir (root : Path) (hdir : q.dir.Named) :
    (root.join q.metaDir).components = root.components ++ (q.dir.names ++ [metaName]).map .name := by
  rw [join_metaDir root hdir, Path.components_descend root (isName_of_mem_metaDir hdir)]

theorem liesBelow (root : Path) (hdir : q.dir.Named) (hstage : Path.IsName q.stage) : q.LiesBelow root :=
  ⟨q.dir.names ++ [metaName, q.artifactFile], components_join_artifactPath root hdir hstage,
    by simp [LineagePath.names, LineagePath.length], isName_of_mem_artifact hdir hstage⟩

theorem components_artifactPath (hdir : q.dir.Named) (hstage : Path.IsName q.stage) :
    q.artifactPath.components = (q.dir.names ++ [metaName, q.artifactFile]).map .name := by
  rw [artifactPath_eq, Path.components_descend _ (isName_of_mem_artifact hdir hstage)]
  rfl

theorem artifactFile_ne_metaName (q : StagePath) : q.artifactFile ≠ metaName := by
  intro h
  have hlast := congrArg List.getLast? (congrArg String.toList h)
  simp [artifactFile, metaName] at hlast

/-- The file of another stage can only be passed before the last directory of a stage. -/
theorem prefix_artifact_iff (hne : p.stage ≠ q.stage) :
    p.dir.names ++ [metaName, p.artifactFile] <+: q.dir.names ++ [metaName, q.artifactFile] ↔
      p.dir.names ++ [metaName, p.artifactFile] <+: q.dir.names := by
  refine ⟨fun h => ?_, fun h => h.trans (List.prefix_append ..)⟩
  have hassoc : ∀ r : StagePath,
      r.dir.names ++ [metaName, r.artifactFile] = (r.dir.names ++ [metaName]) ++ [r.artifactFile] := by simp
  rw [hassoc q, List.prefix_concat_iff, hassoc p] at h
  rcases h with h | h
  · have hfile := List.singleton_inj.mp (List.append_inj' h rfl).2
    exact absurd (artifactFile_inj.mp hfile) hne
  rw [List.prefix_concat_iff] at h
  rcases h with h | h
  · exact absurd (List.singleton_inj.mp (List.append_inj' h rfl).2) p.artifactFile_ne_metaName
  · rwa [hassoc p]

end StagePath

/-- What goes through a directory `meta` goes through a stage of that name. -/
theorem Nests.meta_above {d : Definition} {taking : String → List String} {dir : String → LineagePath}
    (wf : d.WellFormed) (h : Nests d taking dir) {names : List String} {file id : String} (hid : id ∈ d.ids)
    (hbegins : names ++ [StagePath.metaName, file] <+: (dir id).names) :
    d.Above StagePath.metaName id ∧ (dir StagePath.metaName).names = names ++ [StagePath.metaName] := by
  obtain ⟨segments, hsegments, hnames⟩ := List.prefix_map_iff.mp hbegins
  obtain ⟨before, after, rfl, hbefore, hafter⟩ := List.map_eq_append_iff.mp hnames.symm
  obtain ⟨s, rest, rfl, hs, -⟩ := List.map_eq_cons_iff.mp hafter
  obtain rfl := Segment.eq_stage_of_dirName_eq_metaName hs
  have hmeta : (LineagePath.child ⟨before⟩ (.stage StagePath.metaName)).segments <+: (dir id).segments :=
    List.IsPrefix.trans ⟨rest, by simp [LineagePath.child]⟩ hsegments
  obtain ⟨-, hdir, habove⟩ := h.eq_dir_of_prefix wf id hid hmeta
  have hdirnames : (dir StagePath.metaName).names = names ++ [StagePath.metaName] := by
    rw [hdir, LineagePath.names_child, ← hbefore]
    rfl
  refine ⟨habove.resolve_left ?_, hdirnames⟩
  rintro rfl
  have hlength := hbegins.length_le
  rw [hdirnames] at hlength
  simp at hlength

namespace Topology
variable {p : Persona}

theorem path?_eq (hp : p.IsRead) {id : String} (hid : id ∈ p.definition.ids) :
    p.topology.path? id = some ⟨id, p.topology.dir id⟩ :=
  path?_eq_some hp.wellFormed hp.describes hid

/-- The file of a stage never is the file of another stage, and it lies on the way to it only if the directory of
    that stage goes through it. Then it goes through a stage `meta` that stands right below the first stage. -/
theorem artifactPath_prefix_iff (hp : p.IsRead) {id id' : String} (hid : id ∈ p.definition.ids)
    (hid' : id' ∈ p.definition.ids) (hne : id ≠ id') :
    ∃ q q', p.topology.path? id = some q ∧ p.topology.path? id' = some q' ∧
      q.artifactPath.components ≠ q'.artifactPath.components ∧
      (q.artifactPath.components <+: q'.artifactPath.components ↔
        q.dir.names ++ [StagePath.metaName, q.artifactFile] <+: q'.dir.names) ∧
      (q.artifactPath.components <+: q'.artifactPath.components →
        StagePath.metaName ∈ p.definition.ancestors id' ∧
          (p.topology.dir StagePath.metaName).names = q.dir.names ++ [StagePath.metaName]) := by
  have hwf := hp.wellFormed
  have hnests := nests hwf hp.resolve_eq
  have hcomponents : ∀ x ∈ p.definition.ids, (StagePath.mk x (p.topology.dir x)).artifactPath.components = _ :=
    fun x hx => StagePath.components_artifactPath (hnests.named hwf x hx) (hwf.isName hx)
  have hbegins := StagePath.prefix_artifact_iff (p := ⟨id, p.topology.dir id⟩) (q := ⟨id', p.topology.dir id'⟩) hne
  refine ⟨_, _, path?_eq hp hid, path?_eq hp hid', ?_, ?_, ?_⟩ <;>
    rw [hcomponents id hid, hcomponents id' hid']
  · intro h
    have hnames := (List.append_inj' (Path.map_name_inj.mp h) rfl).1
    exact hnests.names_ne hnests hid hid' hne hnames
  · rw [Path.map_name_prefix_iff, hbegins]
  · rw [Path.map_name_prefix_iff, hbegins, hwf.mem_ancestors_iff]
    exact hnests.meta_above hwf hid'

end Topology

/-! ### A file where a directory is needed -/

/-- A manifest in which a stage stands in the directory of the envelope of another stage, under the name of that
    envelope. -/
def Manifest.buried : Json :=
  .object [("name", .string "Buried"), ("persona", .string "buried"),
    ("stages", .array [plainEntry "a" [] false, plainEntry "meta" ["a"] false, plainEntry "a.json" ["meta"] false])]

/-- The definition that `Manifest.buried` describes. -/
def Definition.buried : Definition where
  header := ⟨"Buried", "buried", "", none, "1.0.0", false, []⟩
  stages := [.plain "a" [] false, .plain "meta" ["a"] false, .plain "a.json" ["meta"] false]
  order := ["a", "meta", "a.json"]

theorem Manifest.ofDocument_buried : ofDocument buried = .ok .buried := by
  have hchecked : checked buried = .ok (Definition.buried.header, Definition.buried.stages) := rfl
  exact ofDocument_eq_ok hchecked (by cbv)

def Persona.buried : Persona where
  definition := .buried
  topology := ⟨[⟨.stage "a", [], false, ⟨"a", ⟨[.stage "a"]⟩⟩⟩,
    ⟨.stage "meta", ["a"], false, ⟨"meta", ⟨[.stage "a", .stage "meta"]⟩⟩⟩,
    ⟨.stage "a.json", ["meta"], false, ⟨"a.json", ⟨[.stage "a", .stage "meta", .stage "a.json"]⟩⟩⟩]⟩

theorem Persona.isRead_buried : Persona.buried.IsRead :=
  ⟨Manifest.buried, .buried, Manifest.ofDocument_buried, by rfl⟩

/-- The file of the stage `a` lies where the stage `a.json` needs a directory. -/
theorem Topology.artifactPath_buried : ∃ q q',
    Persona.buried.topology.path? "a" = some q ∧ Persona.buried.topology.path? "a.json" = some q' ∧
      q.artifactPath.components ≠ q'.artifactPath.components ∧
      q.artifactPath.components <+: q'.artifactPath.components ∧
      StagePath.metaName ∈ Persona.buried.definition.ancestors "a.json" ∧
      (Persona.buried.topology.dir StagePath.metaName).names = q.dir.names ++ [StagePath.metaName] := by
  have ha : "a" ∈ Persona.buried.definition.ids := by decide
  have hjson : "a.json" ∈ Persona.buried.definition.ids := by decide
  obtain ⟨q, q', hq, hq', hne, hiff, hmeta⟩ :=
    artifactPath_prefix_iff Persona.isRead_buried ha hjson (by decide)
  have hdir : q.dir.names ++ [StagePath.metaName, q.artifactFile] <+: q'.dir.names := by
    cases hq
    cases hq'
    exact ⟨[], by decide⟩
  exact ⟨q, q', hq, hq', hne, hiff.mpr hdir, hmeta (hiff.mpr hdir)⟩

namespace Lineage

/-- In any two states of a store, different stages have different files in different directories, and each file
    lies below the root of the session, as do those of the default layout. -/
theorem files_apart {p : Persona} (hp : p.IsRead) {σ : Type} (has : σ → Path → Bool) (root : Path) (a b : σ) :
    ∃ l l', (scan (asking has) p.topology root).run a = (.ok l, a) ∧
      (scan (asking has) p.topology root).run b = (.ok l', b) ∧
      (∀ id ∈ p.definition.ids, ∀ id' ∈ p.definition.ids, id ≠ id' → ∃ file file' dir dir',
        l.artifactPath? id = some file ∧ l'.artifactPath? id' = some file' ∧
          l.metaDir? id = some dir ∧ l'.metaDir? id' = some dir' ∧
          file.components ≠ file'.components ∧ dir.components ≠ dir'.components) ∧
      ∀ id ∈ p.definition.ids, (∃ q, l.path? id = some q ∧ q.LiesBelow root) ∧
        ∃ q, p.topology.path? id = some q ∧ q.LiesBelow root := by
  have hwf := hp.wellFormed
  obtain ⟨l, hscan, hl⟩ := exists_scan hwf hp.describes has root a
  obtain ⟨l', hscan', hl'⟩ := exists_scan hwf hp.describes has root b
  have hnamed := (hl.nests hwf).named hwf
  have hnamed' := (hl'.nests hwf).named hwf
  have hdefault := (Topology.nests hwf hp.resolve_eq).named hwf
  refine ⟨l, l', hscan, hscan', fun id hid id' hid' hne => ?_, fun id hid => ⟨?_, ?_⟩⟩
  · have hname := hwf.isName hid
    have hname' := hwf.isName hid'
    have hnames := (hl.nests hwf).names_ne (hl'.nests hwf) hid hid' hne
    refine ⟨_, _, _, _, by rw [artifactPath?, hl.path?_eq hwf hid]; rfl,
      by rw [artifactPath?, hl'.path?_eq hwf hid']; rfl, by rw [metaDir?, hl.path?_eq hwf hid]; rfl,
      by rw [metaDir?, hl'.path?_eq hwf hid']; rfl, ?_, ?_⟩
    · rw [hl.root_eq, hl'.root_eq, StagePath.components_join_artifactPath root (hnamed id hid) hname,
        StagePath.components_join_artifactPath root (hnamed' id' hid') hname', Ne, List.append_cancel_left_eq,
        Path.map_name_inj]
      exact fun h => hnames (List.append_inj' h rfl).1
    · rw [hl.root_eq, hl'.root_eq, StagePath.components_join_metaDir root (hnamed id hid),
        StagePath.components_join_metaDir root (hnamed' id' hid'), Ne, List.append_cancel_left_eq, Path.map_name_inj]
      exact fun h => hnames (List.append_cancel_right h)
  · exact ⟨_, hl.path?_eq hwf hid, StagePath.liesBelow root (hnamed id hid) (hwf.isName hid)⟩
  · exact ⟨_, Topology.path?_eq hp hid, StagePath.liesBelow root (hdefault id hid) (hwf.isName hid)⟩

/-- The stages of which one stands in the directory of the envelope of the other still have files of their own. -/
theorem apart_buried : ∃ l l' : Lineage,
    (scan (asking MemoryStore.fileExists) Persona.buried.topology ⟨"r"⟩).run .empty = (.ok l, .empty) ∧
      (scan (asking MemoryStore.fileExists) Persona.buried.topology ⟨"r"⟩).run (.holding ⟨"r/a/meta"⟩ "a.json") =
        (.ok l', .holding ⟨"r/a/meta"⟩ "a.json") ∧
      (∃ file file' dir dir', l.artifactPath? "a" = some file ∧ l'.artifactPath? "a.json" = some file' ∧
        l.metaDir? "a" = some dir ∧ l'.metaDir? "a.json" = some dir' ∧
        file.components ≠ file'.components ∧ dir.components ≠ dir'.components) ∧
      ∃ q, l.path? "a.json" = some q ∧ q.LiesBelow ⟨"r"⟩ := by
  obtain ⟨l, l', hscan, hscan', hapart, hbelow⟩ :=
    files_apart Persona.isRead_buried MemoryStore.fileExists ⟨"r"⟩ .empty (.holding ⟨"r/a/meta"⟩ "a.json")
  exact ⟨l, l', hscan, hscan', hapart "a" (by decide) "a.json" (by decide) (by decide),
    (hbelow "a.json" (by decide)).1⟩

end Lineage
end StageLineage
