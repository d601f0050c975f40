import Mathlib.Algebra.GroupWithZero.Nat
import Mathlib.Data.List.Basic

/-!
MINUS. Of the rows of its block, those that bind every shared variable are kept as a set of keys
and the others in a list. An input row with all variables bound is looked up in the set, any other
is compared with each key.
-/

namespace FlureeDb.Query

open List

variable {V T K : Type}

/-- A matchable binding is a term in one of its encodings. -/
inductive Binding (T : Type)
  | matchable (term : T)
  | unbound
  | poisoned

/-- The bindings of a row of a batch, with none for a variable that has no column. -/
abbrev Row (V T : Type) := V → Option (Binding T)

abbrev Batch (V T : Type) := List (Row V T)

/-- The normalized term that a row has for a variable. -/
def keyBinding (normalizeForKey : T → K) (row : Row V T) (var : V) : Option K :=
  match row var with
  | some (.matchable b) => some (normalizeForKey b)
  | _ => none

def checkedAdd (count n : ℕ) : Except String ℕ :=
  if count + n < 2 ^ 64 then .ok (count + n) else .error "COUNT(*) overflow in MINUS drain_count"

structure MinusOperator (V T K : Type) where
  sharedVars : List V
  normalizeForKey : T → K

/-- What is kept of the block. -/
structure MinusIndex (K : Type) where
  minusHash : List (List K) := []
  minusWildcards : List (List (Option K)) := []

variable [DecidableEq K]

def wildcardMatches (hasSharedBound : Bool) : List (Option K) → List (Option K) → Bool
  | some i :: input, some m :: minusRow => i == m && wildcardMatches true input minusRow
  | _ :: input, _ :: minusRow => wildcardMatches hasSharedBound input minusRow
  | _, _ => hasSharedBound

def matchesPartial (hasSharedBound : Bool) : List (Option K) → List K → Bool
  | some i :: input, m :: minusBindings => i == m && matchesPartial true input minusBindings
  | none :: input, _ :: minusBindings => matchesPartial hasSharedBound input minusBindings
  | _, _ => hasSharedBound

namespace MinusOperator

variable (op : MinusOperator V T K)

/-- The shared variables of a row, with none for a wildcard. -/
def keyBindings (row : Row V T) : List (Option K) :=
  op.sharedVars.map (keyBinding op.normalizeForKey row)

def addRow (index : MinusIndex K) (row : Row V T) : MinusIndex K :=
  if (op.keyBindings row).any Option.isNone then
    { index with minusWildcards := index.minusWildcards ++ [op.keyBindings row] }
  else { index with minusHash := index.minusHash.insert ((op.keyBindings row).filterMap id) }

def buildHashIndex (batches : List (Batch V T)) : MinusIndex K :=
  batches.foldl (fun index batch => batch.foldl op.addRow index) {}

/-- Runs the block if there are shared variables. -/
def opened (batches : List (Batch V T)) : MinusIndex K :=
  if op.sharedVars.isEmpty then {}
  else op.buildHashIndex (batches.filter fun batch => !batch.isEmpty)

variable (index : MinusIndex K)

def inputRowEliminated (row : Row V T) : Bool :=
  (if (op.keyBindings row).any Option.isNone then
      index.minusHash.any fun entry => matchesPartial false (op.keyBindings row) entry
    else index.minusHash.contains ((op.keyBindings row).filterMap id)) ||
  index.minusWildcards.any fun wcRow => wildcardMatches false (op.keyBindings row) wcRow

/-- There are no shared variables, or the block has no rows. -/
def removesNothing : Bool :=
  op.sharedVars.isEmpty || index.minusHash.isEmpty && index.minusWildcards.isEmpty

/-- The next batch and what is left of the input. -/
def nextBatch : List (Batch V T) → Option (Batch V T) × List (Batch V T)
  | [] => (none, [])
  | batch :: child =>
    if batch.isEmpty then nextBatch child
    else if op.removesNothing index then (some batch, child)
    else
      let kept := batch.filter fun row => !op.inputRowEliminated index row
      if kept.isEmpty then nextBatch child else (some kept, child)

def countRow (count : ℕ) (row : Row V T) : Except String ℕ :=
  if op.inputRowEliminated index row then .ok count else checkedAdd count 1

def countBatch (count : ℕ) (batch : Batch V T) : Except String ℕ :=
  if op.removesNothing index then checkedAdd count batch.length
  else batch.foldlM (op.countRow index) count

variable (child : List (Batch V T))

def drainCount : Except String ℕ :=
  child.foldlM (op.countBatch index) 0

/-! ### The rows that are emitted -/

def keeps (row : Row V T) : Bool := op.removesNothing index || !op.inputRowEliminated index row

/-- The rows kept of an input are those of a batch and those kept of what is left. -/
def Emits : Option (Batch V T) × List (Batch V T) → Prop
  | (none, _) => child.flatten.filter (op.keeps index) = []
  | (some batch, rest) => rest.length < child.length ∧
      child.flatten.filter (op.keeps index) = batch ++ rest.flatten.filter (op.keeps index)

variable {op index} in
theorem Emits.cons {child : List (Batch V T)} {batch : Batch V T}
    (hnone : batch.filter (op.keeps index) = []) :
    ∀ {next}, op.Emits index child next → op.Emits index (batch :: child) next
  | (none, _), h => by simpa [Emits, hnone] using h
  | (some _, _), h => ⟨Nat.lt_succ_of_lt h.1, by simpa [hnone] using h.2⟩

theorem nextBatch_emits : op.Emits index child (op.nextBatch index child) := by
  have hkeeps : op.keeps index = fun row =>
    op.removesNothing index || !op.inputRowEliminated index row := rfl
  fun_induction nextBatch op index child with
  | case1 => rfl
  | case2 batch child hempty ih => exact ih.cons (by simp_all)
  | case3 batch child hempty hall => simp [Emits, hkeeps, hall]
  | case4 batch child hempty hall kept hkept ih => exact ih.cons (by simp_all [kept])
  | case5 batch child hempty hall kept => simp [Emits, hkeeps, hall, kept]

/-- The batches of an input, until there is none. -/
def emitted (child : List (Batch V T)) : List (Batch V T) :=
  match _h : op.nextBatch index child with
  | (none, _) => []
  | (some batch, rest) => batch :: emitted rest
termination_by child.length
decreasing_by
  have hemits := op.nextBatch_emits index child
  rw [_h] at hemits
  exact hemits.1

theorem emitted_flatten :
    (op.emitted index child).flatten = child.flatten.filter (op.keeps index) := by
  fun_induction emitted op index child with
  | case1 child rest h =>
    have hemits := op.nextBatch_emits index child
    rw [h] at hemits
    exact hemits.symm
  | case2 child batch rest h ih =>
    have hemits := op.nextBatch_emits index child
    rw [h] at hemits
    rw [flatten_cons, ih, hemits.2]

/-- Rows that are counted in parts are counted together. -/
theorem foldlM_checkedAdd {α : Type} {f : ℕ → α → Except String ℕ} {rows : α → ℕ}
    (hf : ∀ count < 2 ^ 64, ∀ a, f count a = checkedAdd count (rows a)) {count : ℕ}
    (hcount : count < 2 ^ 64) (l : List α) :
    l.foldlM f count = checkedAdd count (l.map rows).sum := by
  induction l generalizing count with
  | nil => exact (if_pos hcount).symm
  | cons a l ih =>
    rw [foldlM_cons, hf count hcount, map_cons, sum_cons]
    by_cases h : count + rows a < 2 ^ 64
    · rw [checkedAdd, if_pos h, checkedAdd, ← Nat.add_assoc]
      exact ih h
    · rw [checkedAdd, if_neg h, checkedAdd, if_neg (by omega)]
      rfl

theorem countBatch_eq (count : ℕ) (hcount : count < 2 ^ 64) (batch : Batch V T) :
    op.countBatch index count batch =
      checkedAdd count (batch.filter (op.keeps index)).length := by
  unfold countBatch
  split
  · next hall => rw [filter_eq_self.mpr fun row _ => by simp [keeps, hall]]
  · next hall =>
    have hrow : ∀ count < 2 ^ 64, ∀ row,
        op.countRow index count row = checkedAdd count (op.keeps index row).toNat := by
      intro count hcount row
      cases h : op.inputRowEliminated index row with
      | true =>
        have hout : op.keeps index row = false := by simp [keeps, hall, h]
        rw [countRow, if_pos h, hout]
        exact (if_pos hcount).symm
      | false => simp [countRow, keeps, h]
    rw [foldlM_checkedAdd hrow hcount]
    congr 1
    induction batch with
    | nil => rfl
    | cons row batch ih =>
      cases h : op.keeps index row <;> simp [h, ih, Nat.add_comm]

theorem drainCount_eq :
    op.drainCount index child = checkedAdd 0 (op.emitted index child).flatten.length := by
  rw [drainCount, foldlM_checkedAdd (op.countBatch_eq index) (by decide), emitted_flatten,
    filter_flatten, length_flatten, map_map]
  rfl

/-! ### The rows that are eliminated -/

omit [DecidableEq K] in
theorem map_some_filterMap {key : List (Option K)} (h : ¬key.any Option.isNone = true) :
    (key.filterMap id).map some = key := by
  induction key with
  | nil => rfl
  | cons k key ih => cases k <;> simp_all

/-- The keys of the rows of the block. -/
def entries (index : MinusIndex K) : List (List (Option K)) :=
  index.minusHash.map (map some) ++ index.minusWildcards

theorem mem_entries_addRow (row : Row V T) (key : List (Option K)) :
    key ∈ entries (op.addRow index row) ↔ key ∈ entries index ∨ key = op.keyBindings row := by
  unfold addRow
  split
  · simp [entries, or_assoc]
  · next h =>
    simp only [entries, mem_append, mem_map, mem_insert_iff, or_and_right, exists_or,
      exists_eq_left, map_some_filterMap h]
    rw [or_assoc, or_comm, eq_comm]

theorem mem_entries_buildHashIndex (batches : List (Batch V T)) (key : List (Option K)) :
    key ∈ entries (op.buildHashIndex batches) ↔
      ∃ row ∈ batches.flatten, key = op.keyBindings row := by
  have hfold : ∀ (rows : Batch V T) (index : MinusIndex K),
      key ∈ entries (rows.foldl op.addRow index) ↔
        key ∈ entries index ∨ ∃ row ∈ rows, key = op.keyBindings row := by
    intro rows
    induction rows with
    | nil => simp
    | cons row rows ih => simp [ih, mem_entries_addRow, or_assoc]
  rw [buildHashIndex, ← foldl_flatten, hfold]
  simp [entries]

theorem wildcardMatches_iff (f g : V → Option K) (vars : List V) (hasSharedBound : Bool) :
    wildcardMatches hasSharedBound (vars.map f) (vars.map g) = true ↔
      (∀ v ∈ vars, ∀ i ∈ f v, ∀ m ∈ g v, i = m) ∧
        (hasSharedBound = true ∨ ∃ v ∈ vars, f v ≠ none ∧ g v ≠ none) := by
  induction vars generalizing hasSharedBound with
  | nil => simp [wildcardMatches]
  | cons v vars ih =>
    cases hf : f v <;> cases hg : g v <;> simp [wildcardMatches, hf, hg, ih]

theorem wildcardMatches_some {a b : List K} (hlen : a.length = b.length) (hasSharedBound : Bool) :
    wildcardMatches hasSharedBound (a.map some) (b.map some) = true ↔
      a = b ∧ (hasSharedBound = true ∨ a ≠ []) := by
  induction a generalizing b hasSharedBound with
  | nil => simp [wildcardMatches, length_eq_zero_iff.mp hlen.symm]
  | cons x a ih =>
    obtain ⟨y, b, rfl⟩ := exists_cons_of_length_eq_add_one hlen.symm
    simp [wildcardMatches, ih (Nat.succ.inj hlen)]

theorem matchesPartial_eq (input : List (Option K)) (entry : List K) (hasSharedBound : Bool) :
    matchesPartial hasSharedBound input entry =
      wildcardMatches hasSharedBound input (entry.map some) := by
  induction input generalizing entry hasSharedBound with
  | nil => cases entry <;> rfl
  | cons i input ih =>
    cases entry with
    | nil => cases i <;> rfl
    | cons => cases i <;> simp [matchesPartial, wildcardMatches, ih]

theorem inputRowEliminated_iff (hvars : op.sharedVars ≠ [])
    (hlen : ∀ entry ∈ index.minusHash, op.sharedVars.length = entry.length) (row : Row V T) :
    op.inputRowEliminated index row = true ↔
      ∃ key ∈ entries index, wildcardMatches false (op.keyBindings row) key = true := by
  simp only [inputRowEliminated, Bool.or_eq_true, entries, mem_append, or_and_right,
    exists_or, mem_map, exists_exists_and_eq_and]
  refine or_congr ?_ any_eq_true
  split
  · simp [matchesPartial_eq]
  · next h =>
    have hkey := map_some_filterMap h
    generalize (op.keyBindings row).filterMap id = probe at *
    have hprobe : probe.length = op.sharedVars.length := by
      rw [← length_map, hkey, keyBindings, length_map]
    have hne : probe ≠ [] := fun h => hvars (length_eq_zero_iff.mp (by rw [← hprobe, h]; rfl))
    rw [contains_iff_mem, ← hkey]
    constructor
    · exact fun hmem => ⟨probe, hmem, (wildcardMatches_some rfl _).mpr ⟨rfl, .inr hne⟩⟩
    · rintro ⟨entry, hmem, hmatch⟩
      obtain ⟨rfl, -⟩ := (wildcardMatches_some (hprobe.trans (hlen entry hmem)) _).mp hmatch
      exact hmem

end MinusOperator

/-- Exactly the rows are emitted that no row of the block agrees with on every shared variable
both bind, with one they both bind. Their number is counted. -/
theorem minus_removes_compatible (op : MinusOperator V T K) (minus child : List (Batch V T)) :
    let term := keyBinding op.normalizeForKey
    (∃ keeps : Row V T → Bool,
      (∀ row, keeps row = true ↔ ¬∃ m ∈ minus.flatten,
        (∀ v ∈ op.sharedVars, ∀ i ∈ term row v, ∀ j ∈ term m v, i = j) ∧
          ∃ v ∈ op.sharedVars, term row v ≠ none ∧ term m v ≠ none) ∧
      (op.emitted (op.opened minus) child).flatten = child.flatten.filter keeps) ∧
    op.drainCount (op.opened minus) child =
      checkedAdd 0 (op.emitted (op.opened minus) child).flatten.length := by
  intro term
  refine ⟨⟨op.keeps (op.opened minus), fun row => ?_, op.emitted_flatten _ child⟩,
    op.drainCount_eq _ child⟩
  by_cases hvars : op.sharedVars = []
  · simp [MinusOperator.keeps, MinusOperator.removesNothing, hvars]
  · have hopen : op.opened minus = op.buildHashIndex (minus.filter fun batch => !batch.isEmpty) :=
      if_neg (by simpa using hvars)
    have hentries := op.mem_entries_buildHashIndex (minus.filter fun batch => !batch.isEmpty)
    rw [← hopen, flatten_filter_not_isEmpty] at hentries
    have hlen : ∀ entry ∈ (op.opened minus).minusHash, op.sharedVars.length = entry.length := by
      intro entry hentry
      obtain ⟨m, -, hm⟩ := (hentries (entry.map some)).mp
        (mem_append_left _ (mem_map_of_mem hentry))
      simpa [MinusOperator.keyBindings] using (congrArg length hm).symm
    have hkeeps : op.keeps (op.opened minus) row = !op.inputRowEliminated (op.opened minus) row := by
      cases hnone : op.removesNothing (op.opened minus) with
      | false => simp [MinusOperator.keeps, hnone]
      | true =>
        have hnil : (op.opened minus).minusHash = [] ∧ (op.opened minus).minusWildcards = [] := by
          simpa [MinusOperator.removesNothing, hvars] using hnone
        simp [MinusOperator.keeps, MinusOperator.inputRowEliminated, hnil]
    rw [hkeeps, Bool.not_eq_true', ← Bool.not_eq_true, op.inputRowEliminated_iff _ hvars hlen]
    simp [hentries, MinusOperator.keyBindings, MinusOperator.wildcardMatches_iff, term]

/-- Without shared variables every row is emitted, and the number of too many is an error. -/
theorem too_many_rows_are_not_counted :
    ∃ (op : MinusOperator ℕ ℕ ℕ) (minus child : List (Batch ℕ ℕ)),
      (∀ batch ∈ child, batch.length = 2 ^ 63) ∧
      (op.emitted (op.opened minus) child).flatten.length = 2 ^ 64 ∧
        op.drainCount (op.opened minus) child = .error "COUNT(*) overflow in MINUS drain_count" := by
  obtain ⟨n, hn⟩ : ∃ n, n = 2 ^ 63 := ⟨_, rfl⟩
  obtain ⟨op, hop⟩ : ∃ op : MinusOperator ℕ ℕ ℕ, op = ⟨[], id⟩ := ⟨_, rfl⟩
  have hrows : (op.emitted (op.opened []) (replicate 2 (replicate n fun _ => none))).flatten.length =
      2 * n := by
    rw [MinusOperator.emitted_flatten, hop]
    simp [MinusOperator.keeps, MinusOperator.removesNothing, Nat.two_mul]
  have htotal : 2 * n = 2 ^ 64 := by omega
  refine ⟨op, [], replicate 2 (replicate n fun _ => none), ?_, hrows.trans htotal, ?_⟩
  · intro batch hbatch
    rw [eq_of_mem_replicate hbatch, length_replicate]
    exact hn
  · rw [MinusOperator.drainCount_eq, hrows]
    exact if_neg (by rw [htotal]; exact Nat.lt_irrefl _)

end FlureeDb.Query
