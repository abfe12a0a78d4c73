import Mathlib.Order.Bounds.Basic
import Mathlib.Order.Lattice
import StageLineage.Proofs.LineagePath

/-! The order of lineage paths in which a path is below those that go on from it. The common part of two paths is their
    meet. -/

namespace StageLineage.LineagePath
variable {p q : LineagePath}

theorem isPrefixOf_iff : p.isPrefixOf q = true ↔ p.segments <+: q.segments := List.isPrefixOf_iff_prefix

theorem isPrefixOf_antisymm (hpq : p.isPrefixOf q = true) (hqp : q.isPrefixOf p = true) : p = q := by
  rw [isPrefixOf_iff] at hpq hqp
  exact eq_of_prefix_iff fun _ => ⟨fun h => h.trans hpq, fun h => h.trans hqp⟩

theorem isAncestorOf_iff : p.isAncestorOf q = true ↔ p.isPrefixOf q = true ∧ ¬q.isPrefixOf p = true := by
  rw [isAncestorOf, Bool.and_eq_true, decide_eq_true_iff, and_comm]
  refine and_congr_right fun hpq => ⟨fun hlt hqp => ?_, fun hqp => ?_⟩
  · rw [isPrefixOf_antisymm hpq hqp] at hlt
    exact Nat.lt_irrefl _ hlt
  · rw [isPrefixOf_iff] at hpq hqp
    refine Nat.lt_of_le_of_ne hpq.length_le fun hlength => hqp ?_
    exact hpq.eq_of_length hlength ▸ List.prefix_rfl

instance : PartialOrder LineagePath where
  le p q := p.isPrefixOf q = true
  lt p q := p.isAncestorOf q = true
  le_refl _ := isPrefixOf_iff.mpr List.prefix_rfl
  le_trans _ _ _ hpq hqr := isPrefixOf_iff.mpr ((isPrefixOf_iff.mp hpq).trans (isPrefixOf_iff.mp hqr))
  le_antisymm _ _ := isPrefixOf_antisymm
  lt_iff_le_not_ge _ _ := isAncestorOf_iff

theorem le_iff : p ≤ q ↔ p.segments <+: q.segments := isPrefixOf_iff

instance : SemilatticeInf LineagePath where
  inf := common
  inf_le_left _ _ := le_iff.mpr (prefix_commonSegments_iff.mp List.prefix_rfl).1
  inf_le_right _ _ := le_iff.mpr (prefix_commonSegments_iff.mp List.prefix_rfl).2
  le_inf _ _ _ hp hq := le_iff.mpr (prefix_commonSegments_iff.mpr ⟨le_iff.mp hp, le_iff.mp hq⟩)

/-- The common part of two paths begins with what both begin with. -/
theorem le_common_iff {r : LineagePath} : r ≤ p.common q ↔ r ≤ p ∧ r ≤ q := le_inf_iff

end StageLineage.LineagePath
