import Mathlib.Data.List.Perm.Basic

/-!
Items in places. A token is an item together with the place it is in; a list
of tokens is a book of who has what. Moving tokens keeps the items, so that an
item is never lost or doubled, and the lemmas here say what a move does to the
tokens found in a place.
-/

namespace FlureeDb.Lib

open List

structure Token (A P : Type*) where
  item : A
  place : P

namespace Token

variable {A P B : Type*}

/-- The token moved to the place that `dest` assigns to its item. -/
def move (dest : A → P) (token : Token A P) : Token A P := ⟨token.item, dest token.item⟩

def moveAll (p : Token A P → Bool) (dest : A → P) (tokens : List (Token A P)) : List (Token A P) :=
  tokens.map fun token => if p token then token.move dest else token

def moveFirst (p : Token A P → Bool) (dest : A → P) : List (Token A P) → List (Token A P)
  | [] => []
  | token :: tokens =>
    if p token then token.move dest :: tokens else token :: moveFirst p dest tokens

section

variable (p : Token A P → Bool) (dest : A → P) (tokens : List (Token A P))

theorem moveAll_cons (token : Token A P) : moveAll p dest (token :: tokens) =
    (if p token then token.move dest else token) :: moveAll p dest tokens := rfl

theorem items_moveAll : (moveAll p dest tokens).map item = tokens.map item := by
  rw [moveAll, map_map]
  apply map_congr_left
  intro token _
  dsimp only [Function.comp]
  split <;> rfl

theorem items_moveFirst : (moveFirst p dest tokens).map item = tokens.map item := by
  induction tokens with
  | nil => rfl
  | cons token tokens ih =>
    unfold moveFirst
    split
    · rfl
    · rw [map_cons, map_cons, ih]

end

/-- What satisfies `q` after everything that satisfied `p` has left for a place
where `q` fails. -/
theorem filter_moveAll {p q : Token A P → Bool} {dest : A → P}
    (hq : ∀ token, p token = true → q (token.move dest) = false) (tokens : List (Token A P)) :
    (moveAll p dest tokens).filter q = tokens.filter fun token => !p token && q token := by
  induction tokens with
  | nil => rfl
  | cons token tokens ih =>
    rw [moveAll_cons]
    cases hp : p token with
    | true => simp [hp, hq token, ih]
    | false => simp [hp, filter_cons, ih]

theorem moveFirst_eq {p : Token A P → Bool} (dest : A → P) {tokens rest : List (Token A P)}
    {token : Token A P} (h : tokens.filter p = token :: rest) :
    ∃ pre post, tokens = pre ++ token :: post ∧ pre.filter p = [] ∧ post.filter p = rest ∧
      p token = true ∧ moveFirst p dest tokens = pre ++ token.move dest :: post := by
  induction tokens with
  | nil => cases h
  | cons first tokens ih =>
    cases hp : p first with
    | true =>
      rw [filter_cons_of_pos hp, cons.injEq] at h
      obtain ⟨rfl, hrest⟩ := h
      refine ⟨[], tokens, rfl, rfl, hrest, hp, ?_⟩
      simp [moveFirst, hp]
    | false =>
      rw [filter_cons_of_neg (by simp [hp])] at h
      obtain ⟨pre, post, rfl, hpre, hpost, htoken, hmoved⟩ := ih h
      refine ⟨first :: pre, post, rfl, ?_, hpost, htoken, ?_⟩
      · rw [filter_cons_of_neg (by simp [hp]), hpre]
      · simp [moveFirst, hp, hmoved]

/-- Everything that satisfies `p` starts to report: what was reported before
and the new reports, in some order. -/
theorem filterMap_moveAll_perm (p : Token A P → Bool) (dest : A → P)
    (report : Token A P → Option B) (value : A → B)
    (hbefore : ∀ token, p token = true → report token = none)
    (hafter : ∀ token, p token = true → report (token.move dest) = some (value token.item))
    (tokens : List (Token A P)) :
    ((moveAll p dest tokens).filterMap report).Perm
      (tokens.filterMap report ++ (tokens.filter p).map fun token => value token.item) := by
  induction tokens with
  | nil => exact .nil
  | cons token tokens ih =>
    rw [moveAll_cons]
    cases hp : p token with
    | true =>
      rw [if_pos rfl, filterMap_cons_some (hafter token hp),
        filterMap_cons_none (hbefore token hp), filter_cons_of_pos hp]
      exact (ih.cons _).trans perm_middle.symm
    | false =>
      rw [filter_cons_of_neg (by simp [hp])]
      simp only [Bool.false_eq_true, if_false]
      cases hreport : report token with
      | none =>
        rw [filterMap_cons_none hreport, filterMap_cons_none hreport]
        exact ih
      | some b =>
        rw [filterMap_cons_some hreport, filterMap_cons_some hreport]
        exact ih.cons b

end Token

end FlureeDb.Lib
