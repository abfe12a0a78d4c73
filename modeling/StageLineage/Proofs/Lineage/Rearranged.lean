import StageLineage.Proofs.Lineage
import StageLineage.Proofs.Manifest.Rearranged
import StageLineage.Proofs.Store.Memory

/-! Layouts and lineages of manifests that list the same stages in another order. The order of the stages decides
    in which order they are placed, and the order of the parents in which they are joined, but where a stage
    stands depends on neither. -/

namespace StageLineage

namespace Definition.Alike
variable {d d' : Definition} {l l' : Lineage} {id : String}

theorem distinct_perm (h : d.Alike d') (id : String) :
    (Stage.distinct (d.parents id)).Perm (Stage.distinct (d'.parents id)) := by
  refine (List.perm_ext_iff_of_nodup (Stage.nodup_distinct _) (Stage.nodup_distinct _)).mpr fun p => ?_
  rw [Stage.mem_distinct_iff, Stage.mem_distinct_iff, h.mem_parents_iff]

theorem unskipped_perm (h : d.Alike d') (hpresent : ∀ p ∈ d.parents id, l.isPresent p = l'.isPresent p) :
    (l.unskipped d id).Perm (l'.unskipped d' id) := by
  have hsame : ∀ p ∈ Stage.distinct (d.parents id),
      (!d.isOptional p || l.isPresent p) = (!d'.isOptional p || l'.isPresent p) := fun p hp => by
    rw [h.isOptional_eq, hpresent p (Stage.mem_distinct_iff.mp hp)]
  rw [Lineage.unskipped, List.filter_congr hsame]
  exact (h.distinct_perm id).filter _

/-- The same parents take part if the same parents are present. -/
theorem effective_perm (h : d.Alike d') (hpresent : ∀ p ∈ d.parents id, l.isPresent p = l'.isPresent p) :
    (l.effective d id).Perm (l'.effective d' id) := by
  have hunskipped := h.unskipped_perm hpresent
  rw [Lineage.effective_eq, Lineage.effective_eq, hunskipped.isEmpty_eq]
  split
  · exact h.distinct_perm id
  · exact hunskipped

end Definition.Alike

/-- If the same parents take part once all parents stand in the same places, all stages stand in the same places. -/
theorem Nests.dir_eq_of_alike {d d' : Definition} {taking taking' : String → List String}
    {dir dir' : String → LineagePath} (wf : d.WellFormed) (hd : d.Alike d') (h : Nests d taking dir)
    (h' : Nests d' taking' dir')
    (hperm : ∀ id ∈ d.ids, (∀ p ∈ d.parents id, dir p = dir' p) → (taking id).Perm (taking' id)) :
    ∀ id ∈ d.ids, dir id = dir' id := by
  refine wf.parents_induction fun id hid ih => ?_
  have hparents : (taking id).map (fun p => (p, dir p)) = (taking id).map fun p => (p, dir' p) :=
    List.map_congr_left fun p hp => by rw [ih p (h.mem_parents id p hp)]
  have habove := Topology.above_eq_of_perm ((hperm id hid ih).map fun p => (p, dir' p))
  rw [h.dir_eq id hid, h'.dir_eq id (hd.ids_perm.mem_iff.mp hid), hparents, habove]

/-- The default layout depends on the graph alone. -/
theorem Topology.dir_eq_of_alike {d d' : Definition} {t t' : Topology} (wf : d.WellFormed) (wf' : d'.WellFormed)
    (hd : d.Alike d') (ht : resolve d = .ok t) (ht' : resolve d' = .ok t') : ∀ id ∈ d.ids, t.dir id = t'.dir id :=
  (nests wf ht).dir_eq_of_alike wf hd (nests wf' ht') fun id _ _ => hd.distinct_perm id

namespace Lineage
variable {d d' : Definition} {root : Path} {f : Path → Bool} {l l' : Lineage}

theorem isPresent_eq_of_dir_eq (wf : d.WellFormed) (wf' : d'.WellFormed) (hd : d.Alike d')
    (h : Realizes d root f d.order l) (h' : Realizes d' root f d'.order l') {id : String} (hid : id ∈ d.ids)
    (hdir : l.dir id = l'.dir id) : l.isPresent id = l'.isPresent id := by
  have hid' := hd.ids_perm.mem_iff.mp hid
  rw [h.present_eq id (wf.mem_order_iff.mpr hid), h'.present_eq id (wf'.mem_order_iff.mpr hid'), file, file, hdir,
    h.root_eq, h'.root_eq]

/-- The lineage of some files depends on the graph alone. -/
theorem dir_eq_of_alike (wf : d.WellFormed) (wf' : d'.WellFormed) (hd : d.Alike d')
    (h : Realizes d root f d.order l) (h' : Realizes d' root f d'.order l') : ∀ id ∈ d.ids, l.dir id = l'.dir id :=
  (h.nests wf).dir_eq_of_alike wf hd (h'.nests wf') fun _ _ hparents => hd.effective_perm fun p hp =>
    isPresent_eq_of_dir_eq wf wf' hd h h' (wf.mem_of_parents hp) (hparents p hp)

end Lineage

namespace Manifest

/-- Documents that list the same stages and pass the other checks both have a cycle, or describe definitions that
    are alike. -/
theorem Rearranged.cycle_or_alike {document document' : Json} {c c' : Header × List Stage}
    (h : Rearranged document document') (hc : checked document = .ok c) (hc' : checked document' = .ok c') :
    (∃ x x', ofDocument document = .error (.cycle x) ∧ ofDocument document' = .error (.cycle x')) ∨
      ∃ d d', ofDocument document = .ok d ∧ ofDocument document' = .ok d' ∧ d.Alike d' := by
  have hstages := h.stages hc hc'
  have hacyclic := StageGraph.acyclic_iff_of_rearranged hstages
  rcases ofDocument_of_checked hc with ⟨hgraph, order, hok⟩ | ⟨hgraph, x, herror⟩
  · rcases ofDocument_of_checked hc' with ⟨-, order', hok'⟩ | ⟨hgraph', -⟩
    · exact Or.inr ⟨_, _, hok, hok', Definition.alike_of_rearranged (wellFormed_of_ofDocument hok') hstages⟩
    · exact absurd (hacyclic.mp hgraph) hgraph'
  · rcases ofDocument_of_checked hc' with ⟨hgraph', -⟩ | ⟨-, x', herror'⟩
    · exact absurd (hacyclic.mpr hgraph') hgraph
    · exact Or.inl ⟨x, x', herror, herror'⟩

/-- Manifests that list the same stages are both refused for a cycle, or they have the same default layout and, for
    the same store and session, the same lineage. -/
theorem layout_rearranged {document document' : Json} {c c' : Header × List Stage} (h : Rearranged document document')
    (hc : checked document = .ok c) (hc' : checked document' = .ok c') :
    (∃ x x', ofDocument document = .error (.cycle x) ∧ ofDocument document' = .error (.cycle x')) ∨
      ∃ d d' t t', ofDocument document = .ok d ∧ ofDocument document' = .ok d' ∧ Topology.resolve d = .ok t ∧
        Topology.resolve d' = .ok t' ∧ d.ids.Perm d'.ids ∧
        (∀ id ∈ d.ids, ∃ q, t.path? id = some q ∧ t'.path? id = some q) ∧
        ∀ {σ : Type} (has : σ → Path → Bool) (root : Path) (s : σ), ∃ l l',
          (Lineage.scan (Lineage.asking has) t root).run s = (.ok l, s) ∧
          (Lineage.scan (Lineage.asking has) t' root).run s = (.ok l', s) ∧
          ∀ id ∈ d.ids, ∃ q, l.path? id = some q ∧ l'.path? id = some q ∧ l.isPresent id = l'.isPresent id := by
  refine (h.cycle_or_alike hc hc').imp_right fun ⟨d, d', hd, hd', halike⟩ => ?_
  have wf := wellFormed_of_ofDocument hd
  have wf' := wellFormed_of_ofDocument hd'
  obtain ⟨t, ht, hdescribes⟩ := Topology.resolve_eq_ok wf
  obtain ⟨t', ht', hdescribes'⟩ := Topology.resolve_eq_ok wf'
  have hids : ∀ id ∈ d.ids, id ∈ d'.ids := fun id => halike.ids_perm.mem_iff.mp
  refine ⟨d, d', t, t', hd, hd', ht, ht', halike.ids_perm, fun id hid => ?_, fun has root s => ?_⟩
  · refine ⟨_, Topology.path?_eq_some wf hdescribes hid, ?_⟩
    rw [Topology.path?_eq_some wf' hdescribes' (hids id hid), Topology.dir_eq_of_alike wf wf' halike ht ht' id hid]
  · obtain ⟨l, hscan, hl⟩ := Lineage.exists_scan wf hdescribes has root s
    obtain ⟨l', hscan', hl'⟩ := Lineage.exists_scan wf' hdescribes' has root s
    refine ⟨l, l', hscan, hscan', fun id hid => ?_⟩
    have hdir := Lineage.dir_eq_of_alike wf wf' halike hl hl' id hid
    refine ⟨_, hl.path?_eq wf hid, ?_, Lineage.isPresent_eq_of_dir_eq wf wf' halike hl hl' hid hdir⟩
    rw [hl'.path?_eq wf' (hids id hid), hdir]

/-! ### A manifest in another order -/

theorem sameEntry_plainEntry (id : String) {previous previous' : List String} (optional : Bool)
    (h : ∀ p, p ∈ previous ↔ p ∈ previous') :
    SameEntry (plainEntry id previous optional) (plainEntry id previous' optional) := by
  refine .object (fun key hkey => ?_) ?_
  · have hprevious : ("previous" == key) = false := by simpa using hkey.symm
    simp only [Json.field?, List.find?_cons, hprevious]
  · have hempty : previous = [] ↔ previous' = [] := by simp only [List.eq_nil_iff_forall_not_mem, h]
    by_cases hnil : previous = []
    · rw [hnil, hempty.mp hnil]
      exact .absent
    · rw [if_neg hnil, if_neg (mt hempty.mpr hnil)]
      exact .listed fun p => by simp only [List.mem_map, h]

/-- The stages of `Manifest.forked` from the last to the first, with their parents in another order. -/
def shuffled : Json :=
  .object [("name", .string "Shuffled"), ("persona", .string "shuffled"),
    ("stages", .array [plainEntry "s" ["x", "a", "x"] false, plainEntry "a" ["o", "x"] false,
      plainEntry "o" ["x"] true, plainEntry "x" [] false])]

theorem rearranged_shuffled : Rearranged forked shuffled := by
  refine .object rfl rfl (List.reverse_perm _).symm (.cons ?_ (.cons ?_ (.cons ?_ (.cons ?_ .nil))))
  · exact sameEntry_plainEntry "s" false (by grind)
  · exact sameEntry_plainEntry "a" false (by grind)
  · exact sameEntry_plainEntry "o" true fun _ => Iff.rfl
  · exact sameEntry_plainEntry "x" false fun _ => Iff.rfl

/-- The stages of the two manifests stand in the same places, whatever is in the store. -/
theorem layout_shuffled : ∃ d t t', ofDocument forked = .ok .forked ∧ ofDocument shuffled = .ok d ∧
    Topology.resolve .forked = .ok t ∧ Topology.resolve d = .ok t' ∧
    (∃ q, t.path? "s" = some q ∧ t'.path? "s" = some q) ∧
    ∀ store : MemoryStore, ∃ l l',
      (Lineage.scan (Lineage.asking MemoryStore.fileExists) t ⟨"r"⟩).run store = (.ok l, store) ∧
      (Lineage.scan (Lineage.asking MemoryStore.fileExists) t' ⟨"r"⟩).run store = (.ok l', store) ∧
      ∃ q, l.path? "s" = some q ∧ l'.path? "s" = some q ∧ l.isPresent "s" = l'.isPresent "s" := by
  have hchecked : checked shuffled = .ok (⟨"Shuffled", "shuffled", "", none, "1.0.0", false, []⟩,
      [.plain "s" ["x", "a", "x"] false, .plain "a" ["o", "x"] false, .plain "o" ["x"] true, .plain "x" [] false]) := by
    rfl
  rcases layout_rearranged rearranged_shuffled (checked_of_ofDocument ofDocument_forked).1 hchecked with
    ⟨x, -, hcycle, -⟩ | ⟨d, d', t, t', hd, hd', ht, ht', -, hdefault, hscan⟩
  · exact nomatch hcycle.symm.trans ofDocument_forked
  · obtain rfl : d = .forked := Except.ok.inj (hd.symm.trans ofDocument_forked)
    have hs : "s" ∈ Definition.forked.ids := by decide
    refine ⟨d', t, t', hd, hd', ht, ht', hdefault "s" hs, fun store => ?_⟩
    obtain ⟨l, l', hl, hl', hstages⟩ := hscan MemoryStore.fileExists ⟨"r"⟩ store
    exact ⟨l, l', hl, hl', hstages "s" hs⟩

end Manifest
end StageLineage
