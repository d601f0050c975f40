import Mathlib.Data.List.Induction

/-!
Runs of a deterministic machine: a state, an input, and what the machine
answers and becomes. A run is recorded step by step, so that a property can
speak of what a step saw as well as of where the run ended. The rules at
the end are the only inductions over runs that the rest of a development
needs: what every reached state satisfies, and what relates a state to the
steps that led to it.
-/

namespace FlureeDb.Lib

open List

/-- One recorded step: the state it read, the input, the answer and the state
it left. -/
structure Step (S I R : Type*) where
  before : S
  input : I
  response : R
  after : S

namespace Run

variable {S I R : Type*} (step : S → I → S × R)

variable (s : S)

/-- The step a machine takes on an input. -/
def stepOf (i : I) : Step S I R :=
  ⟨s, i, (step s i).2, (step s i).1⟩

def final (s : S) : List I → S
  | [] => s
  | i :: is => final (step s i).1 is

def trace (s : S) : List I → List (Step S I R)
  | [] => []
  | i :: is => stepOf step s i :: trace (step s i).1 is

@[simp] theorem final_nil : final step s [] = s := rfl

@[simp] theorem final_cons (i : I) (is : List I) :
    final step s (i :: is) = final step (step s i).1 is := rfl

@[simp] theorem trace_nil : trace step s [] = [] := rfl

@[simp] theorem trace_cons (i : I) (is : List I) :
    trace step s (i :: is) = stepOf step s i :: trace step (step s i).1 is := rfl

theorem final_append (is js : List I) :
    final step s (is ++ js) = final step (final step s is) js := by
  induction is generalizing s with
  | nil => rfl
  | cons i is ih => exact ih (step s i).1

theorem trace_append (is js : List I) :
    trace step s (is ++ js) = trace step s is ++ trace step (final step s is) js := by
  induction is generalizing s with
  | nil => rfl
  | cons i is ih => simp [ih]

/-- A step of a run is the step taken after some prefix of it. -/
theorem mem_trace_iff {s : S} {is : List I} {st : Step S I R} :
    st ∈ trace step s is ↔
      ∃ pre i post, is = pre ++ i :: post ∧ st = stepOf step (final step s pre) i := by
  constructor
  · intro h
    induction is generalizing s with
    | nil => cases h
    | cons i is ih =>
      rcases mem_cons.mp h with rfl | htail
      · exact ⟨[], i, is, rfl, rfl⟩
      · obtain ⟨pre, j, post, rfl, rfl⟩ := ih htail
        exact ⟨i :: pre, j, post, rfl, rfl⟩
  · rintro ⟨pre, i, post, rfl, rfl⟩
    rw [trace_append]
    exact mem_append_right _ (mem_cons_self ..)

/-- **The invariant rule.** What holds at the start and survives every step
that meets `C` holds at the end of a run all of whose steps meet `C`. -/
theorem final_of_invariant {P : S → Prop} {C : S → I → Prop}
    (hstep : ∀ s i, P s → C s i → P (step s i).1) {s : S} {is : List I} (hs : P s)
    (hC : ∀ st ∈ trace step s is, C st.before st.input) : P (final step s is) := by
  induction is generalizing s with
  | nil => exact hs
  | cons i is ih =>
    have hi : C s i := hC (stepOf step s i) (mem_cons_self ..)
    apply ih (hstep s i hs hi)
    intro st hst
    exact hC st (mem_cons_of_mem _ hst)

end Run

/-- A fold that works off components one by one, each of them once. -/
theorem foldl_component {S ι β : Type*} [DecidableEq ι] (step : S → ι → S) (get : S → ι → β)
    (f : ι → β → β) (hself : ∀ s i, get (step s i) i = f i (get s i))
    (hother : ∀ s i j, j ≠ i → get (step s i) j = get s j) (l : List ι) (hl : l.Nodup) (s : S)
    (j : ι) : get (l.foldl step s) j = if j ∈ l then f j (get s j) else get s j := by
  induction l generalizing s with
  | nil => rfl
  | cons i l ih =>
    obtain ⟨hi, hl⟩ := nodup_cons.mp hl
    rw [foldl_cons, ih hl]
    by_cases hji : j = i
    · subst hji
      rw [if_neg hi, if_pos mem_cons_self, hself]
    · rw [hother s i j hji]
      simp only [mem_cons, hji, false_or]

/-- What no step changes, no series of steps changes. -/
theorem foldl_field {S ι β : Type*} (field : S → β) {step : S → ι → S}
    (h : ∀ s i, field (step s i) = field s) (l : List ι) (s : S) :
    field (l.foldl step s) = field s :=
  foldlRecOn (motive := fun s' => field s' = field s) l step rfl fun s hs i _ => (h s i).trans hs

/-- The states that steps lead to, where a step may fail and each one that is taken is
allowed. -/
inductive Reach {S I E : Type*} (step : S → I → Except E S) (allowed : S → I → S → Prop)
    (start : S) : S → Prop
  | start : Reach step allowed start start
  | step {s s' : S} {i : I} (reached : Reach step allowed start s) (taken : step s i = .ok s')
      (ok : allowed s i s') : Reach step allowed start s'

end FlureeDb.Lib
