import FlureeDb.Core.FlakeValue

/-!
The metadata of a flake: a language tag and a list index, both optional.
-/

namespace FlureeDb.Core

structure FlakeMeta where
  lang : Option String
  i : Option ℤ
  deriving DecidableEq

/-- The list index decides; the language counts only where neither side has an
index. -/
def FlakeMeta.cmp (a b : FlakeMeta) : Ordering :=
  match a.i, b.i with
  | some i, some j => compare i j
  | some _, none => .gt
  | none, some _ => .lt
  | none, none =>
    match a.lang, b.lang with
    | some l, some l' => compare l l'
    | some _, none => .gt
    | none, some _ => .lt
    | none, none => .eq

theorem FlakeMeta.cmp_eq_iff (a b : FlakeMeta) :
    a.cmp b = .eq ↔ a.i = b.i ∧ (a.i = none → a.lang = b.lang) := by
  obtain ⟨lang, i⟩ := a
  obtain ⟨lang', i'⟩ := b
  cases i <;> cases i' <;> cases lang <;> cases lang' <;>
    simp [cmp]

end FlureeDb.Core
