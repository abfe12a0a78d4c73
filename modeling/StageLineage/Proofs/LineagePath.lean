import StageLineage.LineagePath
import StageLineage.Proofs.Segment

/-! The files of lineage paths. The envelope of a stage lies below the session root by the names of the
    segments, and two envelope files are the same only if the names and the stages are. -/

namespace StageLineage
namespace LineagePath

def names (p : LineagePath) : List String := p.segments.map (·.dirName)

/-- Every segment of a path is the name of a directory. -/
def Named (p : LineagePath) : Prop := ∀ n ∈ p.names, Path.IsName n

@[simp] theorem names_child (p : LineagePath) (s : Segment) : (p.child s).names = p.names ++ [s.dirName] := by
  simp [names, LineagePath.child]

theorem named_root : root.Named := fun _ hn => nomatch hn

theorem Named.child {p : LineagePath} (hp : p.Named) {s : Segment} (hs : Path.IsName s.dirName) : (p.child s).Named := by
  intro n hn
  rw [names_child, List.mem_append, List.mem_singleton] at hn
  rcases hn with hn | rfl
  · exact hp n hn
  · exact hs

theorem commonSegments_prefix_left (as bs : List Segment) : commonSegments as bs <+: as := by
  fun_induction commonSegments as bs with
  | case1 as b bs ih => exact (List.prefix_cons_inj b).mpr ih
  | case2 => exact List.nil_prefix
  | case3 => exact List.nil_prefix

/-- The common part of two paths has exactly the beginnings that both have. -/
theorem prefix_commonSegments_iff {xs as bs : List Segment} :
    xs <+: commonSegments as bs ↔ xs <+: as ∧ xs <+: bs := by
  fun_induction commonSegments as bs generalizing xs with
  | case1 as b bs ih =>
    cases xs with
    | nil => simp
    | cons x xs =>
      simp only [List.cons_prefix_cons, ih]
      exact ⟨fun ⟨hx, has, hbs⟩ => ⟨⟨hx, has⟩, hx, hbs⟩, fun ⟨⟨hx, has⟩, _, hbs⟩ => ⟨hx, has, hbs⟩⟩
  | case2 a as b bs hne =>
    cases xs with
    | nil => simp
    | cons x xs =>
      simp only [List.cons_prefix_cons, List.prefix_nil, reduceCtorEq, false_iff, not_and]
      rintro ⟨rfl, -⟩ hab
      exact absurd hab hne
  | case3 as bs hcons =>
    rw [List.prefix_nil]
    refine ⟨fun h => by simp [h], fun ⟨has, hbs⟩ => ?_⟩
    cases as with
    | nil => exact List.prefix_nil.mp has
    | cons a as =>
      cases bs with
      | nil => exact List.prefix_nil.mp hbs
      | cons b bs => exact absurd rfl (hcons a as b bs rfl)

theorem eq_of_prefix_iff {p q : LineagePath} (h : ∀ xs, xs <+: p.segments ↔ xs <+: q.segments) : p = q := by
  obtain ⟨as⟩ := p
  obtain ⟨bs⟩ := q
  have hab := (h as).mp List.prefix_rfl
  have hba := (h bs).mpr List.prefix_rfl
  exact congrArg LineagePath.mk (hab.eq_of_length_le hba.length_le)

theorem Named.common {p : LineagePath} (hp : p.Named) (q : LineagePath) : (p.common q).Named := by
  intro n hn
  obtain ⟨s, hs, rfl⟩ := List.mem_map.mp hn
  exact hp _ (List.mem_map_of_mem ((commonSegments_prefix_left _ _).subset hs))

theorem relativePath_eq (p : LineagePath) : p.relativePath = Path.empty.descend p.names := by
  rw [relativePath, Path.descend, names, List.foldl_map]

end LineagePath

namespace StagePath
variable {p q : StagePath}

theorem isName_artifactFile (h : Path.IsName p.stage) : Path.IsName p.artifactFile where
  ne_empty := by simp [artifactFile]
  ne_here := by
    intro heq
    have := congrArg List.length heq
    simp [artifactFile] at this
  ne_up := by
    intro heq
    have := congrArg List.length heq
    simp [artifactFile] at this
  no_separator := by
    simpa [artifactFile] using h.no_separator

theorem artifactFile_inj : p.artifactFile = q.artifactFile ↔ p.stage = q.stage := by
  constructor
  · intro h
    have h := congrArg String.toList h
    simp only [artifactFile, String.toList_append] at h
    exact String.toList_inj.mp (List.append_cancel_right h)
  · intro h
    rw [artifactFile, h, artifactFile]

theorem isName_metaName : Path.IsName metaName where
  ne_empty := by decide
  ne_here := by decide
  ne_up := by decide
  no_separator := by decide

theorem metaDir_eq (p : StagePath) : p.metaDir = Path.empty.descend (p.dir.names ++ [metaName]) := by
  rw [metaDir, LineagePath.relativePath_eq, Path.descend_append]
  rfl

theorem artifactPath_eq (p : StagePath) :
    p.artifactPath = Path.empty.descend (p.dir.names ++ [metaName, p.artifactFile]) := by
  rw [artifactPath, metaDir, LineagePath.relativePath_eq, Path.descend_append]
  rfl

theorem isName_of_mem_artifact (hdir : p.dir.Named) (hstage : Path.IsName p.stage) :
    ∀ n ∈ p.dir.names ++ [metaName, p.artifactFile], Path.IsName n := by
  intro n hn
  simp only [List.mem_append, List.mem_cons, List.not_mem_nil, or_false] at hn
  rcases hn with hn | rfl | rfl
  · exact hdir n hn
  · exact isName_metaName
  · exact isName_artifactFile hstage

theorem join_artifactPath (root : Path) (hdir : p.dir.Named) (hstage : Path.IsName p.stage) :
    root.join p.artifactPath = root.descend (p.dir.names ++ [metaName, p.artifactFile]) := by
  rw [artifactPath_eq, Path.join_descend root (by simp) (isName_of_mem_artifact hdir hstage)]

theorem components_join_artifactPath (root : Path) (hdir : p.dir.Named) (hstage : Path.IsName p.stage) :
    (root.join p.artifactPath).components =
      root.components ++ (p.dir.names ++ [metaName, p.artifactFile]).map .name := by
  rw [join_artifactPath root hdir hstage, Path.components_descend root (isName_of_mem_artifact hdir hstage)]

/-- Envelope files lie below the root. -/
theorem startsWith_join_artifactPath (root : Path) (hdir : p.dir.Named) (hstage : Path.IsName p.stage) :
    (root.join p.artifactPath).startsWith root = true := by
  rw [Path.startsWith_iff, components_join_artifactPath root hdir hstage]
  exact List.prefix_append ..

theorem join_artifactPath_eq_child (root : Path) (hdir : p.dir.Named) (hstage : Path.IsName p.stage) :
    root.join p.artifactPath = ((root.descend p.dir.names).child metaName).child p.artifactFile := by
  rw [join_artifactPath root hdir hstage, Path.descend_append]
  rfl

theorem isName_of_mem_metaDir (hdir : p.dir.Named) : ∀ n ∈ p.dir.names ++ [metaName], Path.IsName n := by
  intro n hn
  rcases List.mem_append.mp hn with hn | hn
  · exact hdir n hn
  · exact List.mem_singleton.mp hn ▸ isName_metaName

theorem join_metaDir (root : Path) (hdir : p.dir.Named) :
    root.join p.metaDir = root.descend (p.dir.names ++ [metaName]) := by
  rw [metaDir_eq, Path.join_descend root (by simp) (isName_of_mem_metaDir hdir)]

theorem join_metaDir_eq_child (root : Path) (hdir : p.dir.Named) :
    root.join p.metaDir = (root.descend p.dir.names).child metaName := by
  rw [join_metaDir root hdir, Path.descend_append]
  rfl

/-- Two envelopes lie in one file only if their directories have the same names and their stages are the same. -/
theorem compare_artifactPath_iff (root : Path) (hp : p.dir.Named) (hpstage : Path.IsName p.stage) (hq : q.dir.Named)
    (hqstage : Path.IsName q.stage) :
    compare (root.join p.artifactPath) (root.join q.artifactPath) = .eq ↔
      p.dir.names = q.dir.names ∧ p.stage = q.stage := by
  rw [join_artifactPath root hp hpstage, join_artifactPath root hq hqstage,
    Path.compare_descend_eq_iff (isName_of_mem_artifact hp hpstage) (isName_of_mem_artifact hq hqstage)]
  constructor
  · intro h
    obtain ⟨hnames, hlast⟩ := List.append_inj' h rfl
    simp only [List.cons.injEq, true_and, and_true] at hlast
    exact ⟨hnames, artifactFile_inj.mp hlast⟩
  · rintro ⟨hnames, hstage⟩
    rw [hnames, artifactFile_inj.mpr hstage]

end StagePath
end StageLineage
