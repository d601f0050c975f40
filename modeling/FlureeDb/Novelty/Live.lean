import FlureeDb.Lib.LiveLog
import FlureeDb.Novelty.History

/-!
Novelty that is loaded at once. What is stored of a fact is told by the operations given: the
load keeps the asserts that do not repeat one.
-/

namespace FlureeDb.Novelty

open FlureeDb.Core Lib List

variable {V : Type} [ObjectValue V] (sort : Bool → UnstableSort)

/-- If there is a flake of the fact, all flakes of its identity are. -/
def OneFact (v : Flake V) (flakes : List (Flake V)) : Prop :=
  ∀ f ∈ flakes, ∀ f' ∈ flakes, v.eq f = true → keyCmp v f' = .eq → v.eq f' = true

variable {v : Flake V} {flakes : List (Flake V)}

theorem OneFact.single_or (h : OneFact v flakes) :
    Single v flakes ∨ ∀ f ∈ flakes, ¬ v.eq f = true := by
  by_cases hany : ∃ f ∈ flakes, v.eq f = true
  · obtain ⟨f, hf, heq⟩ := hany
    exact .inl fun f' hf' => h f hf f' hf' heq
  · exact .inr fun f hf heq => hany ⟨f, hf, heq⟩

variable {g : GraphId}

section

variable {n : Novelty V} {t : ℤ} {reverseGraph : Sid → Option GraphId}
  {batches : List (List (Flake V) × ℤ)}
  (h : (new t).bulkApplyCommits sort reverseGraph batches = .ok n)

include h

theorem mem_opsEq_bulkApplyCommits (hfact : OneFact v (bulkBatch reverseGraph batches g))
    (op : ℤ × Bool) :
    op ∈ opsEq v (n.stored g) ↔ op ∈ OpLog.kept (opsEq v (bulkBatch reverseGraph batches g)) := by
  have hsub : ∀ f ∈ n.stored g, f ∈ bulkBatch reverseGraph batches g := fun f hf =>
    mem_stored_bulkApplyCommits sort h hf
  obtain hsingle | hnone := hfact.single_or
  · have hsingle' : Single v (n.stored g) := fun f hf => hsingle f (hsub f hf)
    rw [opsEq_eq_opsOf hsingle, opsEq_eq_opsOf hsingle']
    by_cases hg : bulkBatch reverseGraph batches g = []
    · unfold stored
      rw [(bulkApplyCommits_untouched sort h hg).1, hg]
      rfl
    · rw [(bulkApplyCommits_touched sort h hg v).1]
      exact OpLog.mem_walk_iff_kept (bulkOps_sorted sort v _ _) fun op => mem_bulkOps sort v [] _ op
  · rw [opsEq_eq_nil hnone, opsEq_eq_nil fun f hf => hnone f (hsub f hf)]
    rfl

end

end FlureeDb.Novelty
