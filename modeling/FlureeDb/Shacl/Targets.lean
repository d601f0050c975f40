import FlureeDb.Core.FlakeValue
import FlureeDb.Lib.Worklist

/-!
Which shapes are applied to a node. The validation of a graph goes from a shape to its focus
nodes, by the indexed subclasses of a target class and the subclass facts of the graph. The
validation of a node looks its shapes up in an index, which has only the indexed subclasses. The
constraints of a shape are a parameter.
-/

namespace FlureeDb.Shacl

open FlureeDb.Core Lib List

variable {L R : Type} [DecidableEq L]

inductive Term (L : Type)
  | ref (sid : Sid)
  | literal (lit : L)
  deriving DecidableEq

namespace Term

def asRef : Term L → Option Sid
  | .ref sid => some sid
  | .literal _ => none

def asLiteral : Term L → Option L
  | .ref _ => none
  | .literal lit => some lit

omit [DecidableEq L] in
theorem asRef_eq_some {term : Term L} {sid : Sid} : term.asRef = some sid ↔ term = .ref sid := by
  cases term <;> simp [asRef]

end Term

structure Fact (L : Type) where
  s : Sid
  p : Sid
  o : Term L

inductive TargetType (L : Type)
  | class (cls : Sid)
  | node (nodes : List Sid)
  | literalNode (lits : List L)
  | subjectsOf (pred : Sid)
  | objectsOf (pred : Sid)
  | implicitClass (cls : Sid)

structure CompiledShape (L : Type) where
  id : Sid
  targets : List (TargetType L)
  deactivated : Bool

/-- The shapes come from a map by their ids. -/
structure ShaclEngine (L : Type) where
  shapes : List (CompiledShape L)
  hierarchy : Option SchemaHierarchy
  distinct : (shapes.map CompiledShape.id).Nodup

def subClassOf : Sid := ⟨4, "subClassOf"⟩

def withSubclasses (h : Option SchemaHierarchy) (cls : Sid) : List Sid :=
  cls :: h.elim [] fun h => h.subclassesOf cls

def withSubproperties (h : Option SchemaHierarchy) (p : Sid) : List Sid :=
  p :: h.elim [] fun h => h.subpropertiesOf p

section

variable {α κ : Type} [DecidableEq κ] (key : α → κ)

def retainFirst (seen : List κ) : List α → List α
  | [] => []
  | a :: l => if key a ∈ seen then retainFirst seen l else a :: retainFirst (key a :: seen) l

variable {key} {a : α} {l : List α}

theorem mem_retainFirst (hl : ∀ a ∈ l, ∀ b ∈ l, key a = key b → a = b) (seen : List κ) :
    a ∈ retainFirst key seen l ↔ a ∈ l ∧ key a ∉ seen := by
  induction l generalizing seen with
  | nil => simp [retainFirst]
  | cons b l ih =>
    have htail := ih fun x hx y hy => hl x (mem_cons_of_mem b hx) y (mem_cons_of_mem b hy)
    rw [retainFirst]
    split
    · grind
    · grind

theorem nodup_retainFirst (l : List α) (seen : List κ) :
    (retainFirst key seen l).Nodup ∧ ∀ a ∈ retainFirst key seen l, key a ∉ seen := by
  induction l generalizing seen with
  | nil => simp [retainFirst]
  | cons a l ih =>
    rw [retainFirst]
    split
    · exact ih seen
    · grind

theorem mem_retainFirst_id {x : κ} {l : List κ} : x ∈ retainFirst id [] l ↔ x ∈ l := by
  refine (mem_retainFirst (fun _ _ _ _ heq => heq) []).trans ?_
  exact and_iff_left not_mem_nil

end

/-! ### The index -/

def classKeys (h : Option SchemaHierarchy) : TargetType L → List Sid
  | .class cls | .implicitClass cls => withSubclasses h cls
  | _ => []

def nodeKeys : TargetType L → List Sid
  | .node nodes => nodes
  | _ => []

def subjectsOfKeys : TargetType L → List Sid
  | .subjectsOf pred => [pred]
  | _ => []

def objectsOfKeys : TargetType L → List Sid
  | .objectsOf pred => [pred]
  | _ => []

def indexBy (keys : TargetType L → List Sid) (shapes : List (CompiledShape L)) :
    List (Sid × CompiledShape L) :=
  shapes.flatMap fun s => (s.targets.flatMap keys).map fun key => (key, s)

def shapesFor (index : List (Sid × CompiledShape L)) (key : Sid) : List (CompiledShape L) :=
  (index.filter fun e => e.1 = key).map Prod.snd

omit [DecidableEq L] in
theorem mem_shapesFor {keys : TargetType L → List Sid} {shapes : List (CompiledShape L)}
    {key : Sid} {s : CompiledShape L} :
    s ∈ shapesFor (indexBy keys shapes) key ↔ s ∈ shapes ∧ ∃ t ∈ s.targets, key ∈ keys t := by
  simp only [shapesFor, indexBy, mem_map, mem_filter, mem_flatMap, decide_eq_true_eq]
  constructor
  · rintro ⟨_, ⟨⟨s', hs', key', ⟨t, ht, hkey⟩, rfl⟩, rfl⟩, rfl⟩
    exact ⟨hs', t, ht, hkey⟩
  · rintro ⟨hs, t, ht, hkey⟩
    exact ⟨(key, s), ⟨⟨s, hs, key, ⟨t, ht, hkey⟩, rfl⟩, rfl⟩, rfl⟩

def nodeTypes (facts : List (Fact L)) (node : Sid) : List Sid :=
  (facts.filter fun f => f.s = node ∧ f.p = rdfType).filterMap fun f => f.o.asRef

/-- The shapes of the keys of an index for which one of the predicates is probed. -/
def probedShapes (h : Option SchemaHierarchy) (index : List (Sid × CompiledShape L))
    (probe : Sid → Bool) : List (CompiledShape L) :=
  (index.map Prod.fst).eraseDups.flatMap fun pred =>
    if (withSubproperties h pred).any probe then shapesFor index pred else []

namespace ShaclEngine

variable (e : ShaclEngine L) (facts : List (Fact L))

def applicableShapes (node : Sid) (types : List Sid) : List (CompiledShape L) :=
  shapesFor (indexBy nodeKeys e.shapes) node ++
  types.flatMap (shapesFor (indexBy (classKeys e.hierarchy) e.shapes)) ++
  probedShapes e.hierarchy (indexBy subjectsOfKeys e.shapes)
    (fun q => facts.any fun f => f.s = node ∧ f.p = q) ++
  probedShapes e.hierarchy (indexBy objectsOfKeys e.shapes)
    (fun q => facts.any fun f => f.p = q ∧ f.o = .ref node)

def appliedShapes (node : Sid) (types : List Sid) : List (CompiledShape L) :=
  (retainFirst CompiledShape.id [] (e.applicableShapes facts node types)).filter fun s => !s.deactivated

def validateNode (validateShape : Term L → CompiledShape L → List R) (node : Sid)
    (types : List Sid) : List R :=
  (e.appliedShapes facts node types).flatMap (validateShape (.ref node))

end ShaclEngine

/-! ### Validation of a graph -/

variable (h : Option SchemaHierarchy) (facts : List (Fact L))

/-- The subclasses of a class by the facts of the graph. -/
def liveSubclasses (cls : Sid) : List Sid :=
  (facts.filter fun f => f.p = subClassOf ∧ f.o = .ref cls).map Fact.s

def classesToQuery (cls : Sid) : List Sid :=
  Queue.run (liveSubclasses facts) ((withSubclasses h cls).length + facts.length) []
    (withSubclasses h cls)

/-- The focus nodes of a target, whose class stands for the classes given. -/
def targetFocus (classes : Sid → List Sid) : TargetType L → List Sid
  | .class cls | .implicitClass cls =>
    (classes cls).flatMap fun c => (facts.filter fun f => f.p = rdfType ∧ f.o = .ref c).map Fact.s
  | .node nodes => nodes
  | .literalNode _ => []
  | .subjectsOf pred =>
    (withSubproperties h pred).flatMap fun q => (facts.filter fun f => f.p = q).map Fact.s
  | .objectsOf pred =>
    (withSubproperties h pred).flatMap fun q =>
      (facts.filter fun f => f.p = q).filterMap fun f => f.o.asRef

def getFocusNodes (s : CompiledShape L) : List Sid :=
  retainFirst id [] (s.targets.flatMap (targetFocus h facts (classesToQuery h facts)))

def targetLiterals : TargetType L → List L
  | .literalNode lits => lits
  | .objectsOf pred =>
    (withSubproperties h pred).flatMap fun q =>
      (facts.filter fun f => f.p = q).filterMap fun f => f.o.asLiteral
  | _ => []

def literalTargets (s : CompiledShape L) : List L :=
  retainFirst id [] (s.targets.flatMap (targetLiterals h facts))

/-- What a shape reports for each of its focus nodes. -/
def ShaclEngine.validateAll (e : ShaclEngine L)
    (validateShape : Term L → CompiledShape L → List R) : List (Term L × R) :=
  (e.shapes.filter fun s => !s.deactivated).flatMap fun s =>
    ((getFocusNodes e.hierarchy facts s).map Term.ref ++
      (literalTargets e.hierarchy facts s).map Term.literal).flatMap fun focus =>
        (validateShape focus s).map fun r => (focus, r)

variable {h facts} {node k : Sid} {s : CompiledShape L}

omit [DecidableEq L] in
theorem mem_nodeTypes : k ∈ nodeTypes facts node ↔
    ∃ f ∈ facts, f.s = node ∧ f.p = rdfType ∧ f.o = .ref k := by
  simp only [nodeTypes, mem_filterMap, mem_filter, decide_eq_true_eq, Term.asRef_eq_some, and_assoc]

theorem mem_classesToQuery {cls : Sid} : k ∈ classesToQuery h facts cls ↔
    ∃ c ∈ withSubclasses h cls, Reaches (liveSubclasses facts) c k := by
  have hids : ∀ c, ∀ d ∈ liveSubclasses facts c, d ∈ facts.map Fact.s := by
    intro c d hd
    obtain ⟨f, hf, rfl⟩ := mem_map.mp hd
    exact mem_map_of_mem (mem_filter.mp hf).1
  refine Queue.mem_run hids (fun x hx => absurd hx not_mem_nil) ?_
  refine Nat.add_le_add_left ((length_filter_le _ _).trans ?_) _
  rw [length_map]

theorem mem_targetFocus {t : TargetType L} :
    node ∈ targetFocus h facts (classesToQuery h facts) t ↔
      node ∈ targetFocus h facts (withSubclasses h) t ∨
        ∃ c ∈ classKeys h t, ∃ k ∈ nodeTypes facts node, Reaches (liveSubclasses facts) c k := by
  have hclass : ∀ cls, node ∈ targetFocus h facts (classesToQuery h facts) (.class cls) ↔
      ∃ c ∈ withSubclasses h cls, ∃ k ∈ nodeTypes facts node,
        Reaches (liveSubclasses facts) c k := by
    intro cls
    simp only [targetFocus, mem_flatMap, mem_classesToQuery, mem_map, mem_filter,
      decide_eq_true_eq, mem_nodeTypes]
    constructor
    · rintro ⟨k, ⟨c, hc, hk⟩, f, ⟨hf, hp, ho⟩, hs⟩
      exact ⟨c, hc, k, ⟨f, hf, hs, hp, ho⟩, hk⟩
    · rintro ⟨c, hc, k, ⟨f, hf, hs, hp, ho⟩, hk⟩
      exact ⟨k, ⟨c, hc, hk⟩, f, ⟨hf, hp, ho⟩, hs⟩
  have hindexed : ∀ cls, node ∈ targetFocus h facts (withSubclasses h) (.class cls) →
      node ∈ targetFocus h facts (classesToQuery h facts) (.class cls) := by
    intro cls hnode
    obtain ⟨c, hc, hnode⟩ := mem_flatMap.mp hnode
    exact mem_flatMap.mpr ⟨c, mem_classesToQuery.mpr ⟨c, hc, .refl _ c⟩, hnode⟩
  cases t with
  | «class» cls | implicitClass cls =>
    exact (hclass cls).trans (or_iff_right_of_imp fun h => (hclass cls).mp (hindexed cls h)).symm
  | node | literalNode | subjectsOf | objectsOf => simp [targetFocus, classKeys]

theorem mem_getFocusNodes : node ∈ getFocusNodes h facts s ↔
    ∃ t ∈ s.targets, node ∈ targetFocus h facts (classesToQuery h facts) t := by
  rw [getFocusNodes, mem_retainFirst_id, mem_flatMap]

omit [DecidableEq L] in
theorem mem_probedShapes {keys : TargetType L → List Sid} {shapes : List (CompiledShape L)}
    {probe : Sid → Bool} : s ∈ probedShapes h (indexBy keys shapes) probe ↔
      s ∈ shapes ∧ ∃ t ∈ s.targets, ∃ pred ∈ keys t, ∃ q ∈ withSubproperties h pred,
        probe q = true := by
  simp only [probedShapes, mem_flatMap, mem_eraseDups, mem_ite_nil_right, any_eq_true,
    mem_shapesFor]
  constructor
  · rintro ⟨pred, -, hprobe, hs, t, ht, hkey⟩
    exact ⟨hs, t, ht, pred, hkey, hprobe⟩
  · rintro ⟨hs, t, ht, pred, hkey, hprobe⟩
    have hin : pred ∈ (indexBy keys shapes).map Prod.fst := by
      obtain ⟨e, he, -⟩ := mem_map.mp (mem_shapesFor.mpr ⟨hs, t, ht, hkey⟩)
      obtain ⟨hin, heq⟩ := mem_filter.mp he
      exact mem_map.mpr ⟨e, hin, of_decide_eq_true heq⟩
    exact ⟨pred, hin, hprobe, hs, t, ht, hkey⟩

/-- With the indexed subclasses, the focus nodes of a target are found by its keys. -/
theorem mem_indexed {t : TargetType L} : node ∈ targetFocus h facts (withSubclasses h) t ↔
    ((node ∈ nodeKeys t ∨ ∃ c ∈ nodeTypes facts node, c ∈ classKeys h t) ∨
      ∃ pred ∈ subjectsOfKeys t, ∃ q ∈ withSubproperties h pred,
        ∃ f ∈ facts, f.s = node ∧ f.p = q) ∨
    ∃ pred ∈ objectsOfKeys t, ∃ q ∈ withSubproperties h pred,
      ∃ f ∈ facts, f.p = q ∧ f.o = .ref node := by
  cases t with
  | _ =>
    simp only [targetFocus, nodeKeys, classKeys, subjectsOfKeys, objectsOfKeys, mem_nodeTypes,
      mem_flatMap, mem_filterMap, Term.asRef_eq_some]
    grind

namespace ShaclEngine

variable (e : ShaclEngine L)

variable (facts node) in
/-- A target of the shape has the node, with the indexed subclasses only. -/
def Indexed (s : CompiledShape L) : Prop :=
  ∃ t ∈ s.targets, node ∈ targetFocus e.hierarchy facts (withSubclasses e.hierarchy) t

variable (facts node) in
/-- The shapes applied to a node are those of which it is a focus node. -/
def SameShapes : Prop :=
  ∀ s ∈ e.shapes, s.deactivated = false →
    (s ∈ e.appliedShapes facts node (nodeTypes facts node) ↔
      node ∈ getFocusNodes e.hierarchy facts s)

variable {e}

theorem mem_applicableShapes : s ∈ e.applicableShapes facts node (nodeTypes facts node) ↔
    s ∈ e.shapes ∧ e.Indexed facts node s := by
  simp only [Indexed, applicableShapes, mem_append, mem_flatMap, mem_shapesFor, mem_probedShapes,
    any_eq_true, decide_eq_true_eq, mem_indexed]
  constructor
  · rintro (((⟨hs, t, ht, hkey⟩ | ⟨c, hc, hs, t, ht, hkey⟩) | ⟨hs, t, ht, hprobe⟩) |
      ⟨hs, t, ht, hprobe⟩)
    · exact ⟨hs, t, ht, .inl (.inl (.inl hkey))⟩
    · exact ⟨hs, t, ht, .inl (.inl (.inr ⟨c, hc, hkey⟩))⟩
    · exact ⟨hs, t, ht, .inl (.inr hprobe)⟩
    · exact ⟨hs, t, ht, .inr hprobe⟩
  · rintro ⟨hs, t, ht, ((hkey | ⟨c, hc, hkey⟩) | hprobe) | hprobe⟩
    · exact .inl (.inl (.inl ⟨hs, t, ht, hkey⟩))
    · exact .inl (.inl (.inr ⟨c, hc, hs, t, ht, hkey⟩))
    · exact .inl (.inr ⟨hs, t, ht, hprobe⟩)
    · exact .inr ⟨hs, t, ht, hprobe⟩

theorem mem_appliedShapes : s ∈ e.appliedShapes facts node (nodeTypes facts node) ↔
    (s ∈ e.shapes ∧ s.deactivated = false) ∧ e.Indexed facts node s := by
  have hids : ∀ a ∈ e.applicableShapes facts node (nodeTypes facts node),
      ∀ b ∈ e.applicableShapes facts node (nodeTypes facts node), a.id = b.id → a = b :=
    fun a ha b hb hid => inj_on_of_nodup_map e.distinct (mem_applicableShapes.mp ha).1
      (mem_applicableShapes.mp hb).1 hid
  rw [appliedShapes, mem_filter, mem_retainFirst hids, mem_applicableShapes, Bool.not_eq_true']
  simp only [not_mem_nil, not_false_eq_true, and_true, and_right_comm]

omit [DecidableEq L] in
theorem map_filter_flatMap {α β : Type} [DecidableEq α] (g : α → List β) {l : List α}
    (hl : l.Nodup) (a : α) :
    ((l.flatMap fun x => (g x).map fun r => (x, r)).filter fun e => e.1 = a).map Prod.snd =
      if a ∈ l then g a else [] := by
  induction l with
  | nil => rfl
  | cons x l ih =>
    obtain ⟨hx, hl⟩ := nodup_cons.mp hl
    rw [flatMap_cons, filter_append, map_append, ih hl, filter_map, map_map]
    by_cases hxa : x = a
    · subst hxa
      simp [hx, Function.comp_def]
    · simp [hxa, Ne.symm hxa, Function.comp_def]

/-- What a graph's validation reports for a node comes from the shapes that have it as a focus
node. -/
theorem validateAll_node (validateShape : Term L → CompiledShape L → List R) (node : Sid) :
    ((e.validateAll facts validateShape).filter fun r => r.1 = .ref node).map Prod.snd =
      ((e.shapes.filter fun s => !s.deactivated).filter fun s =>
        node ∈ getFocusNodes e.hierarchy facts s).flatMap (validateShape (.ref node)) := by
  have hnodup : ∀ s, ((getFocusNodes e.hierarchy facts s).map Term.ref ++
      (literalTargets e.hierarchy facts s).map Term.literal).Nodup := by
    intro s
    refine nodup_append.mpr ⟨(nodup_retainFirst _ []).1.map fun _ _ => Term.ref.inj,
      (nodup_retainFirst _ []).1.map fun _ _ => Term.literal.inj, ?_⟩
    simp
  rw [validateAll]
  induction e.shapes.filter fun s => !s.deactivated with
  | nil => rfl
  | cons s shapes ih =>
    rw [flatMap_cons, filter_append, map_append, ih, map_filter_flatMap _ (hnodup s), filter_cons]
    simp only [mem_append, mem_map, Term.ref.injEq, exists_eq_right, reduceCtorEq, and_false,
      exists_false, or_false, decide_eq_true_eq]
    split <;> simp

theorem SameShapes.results (hsame : e.SameShapes facts node)
    (validateShape : Term L → CompiledShape L → List R) :
    (e.validateNode facts validateShape node (nodeTypes facts node)).Perm
      (((e.validateAll facts validateShape).filter fun r => r.1 = .ref node).map Prod.snd) := by
  rw [validateAll_node]
  refine Perm.flatMap_right _ ((perm_ext_iff_of_nodup ?_ ?_).mpr fun s => ?_)
  · exact (nodup_retainFirst _ []).1.filter _
  · exact ((Nodup.of_map _ e.distinct).filter _).filter _
  · simp only [mem_filter, Bool.not_eq_true', decide_eq_true_eq]
    constructor
    · intro hs
      obtain ⟨⟨hin, hactive⟩, -⟩ := mem_appliedShapes.mp hs
      exact ⟨⟨hin, hactive⟩, (hsame s hin hactive).mp hs⟩
    · rintro ⟨⟨hin, hactive⟩, hfocus⟩
      exact (hsame s hin hactive).mpr hfocus

/-- The shapes applied to a node are those of which it is a focus node, and it gets the same
results, if no target reaches a type of the node by facts of the graph only. -/
theorem node_validation_agrees_iff (e : ShaclEngine L) (facts : List (Fact L))
    (validateShape : Term L → CompiledShape L → List R) (node : Sid) :
    (e.SameShapes facts node ∧
      (e.validateNode facts validateShape node (nodeTypes facts node)).Perm
        (((e.validateAll facts validateShape).filter fun r => r.1 = .ref node).map Prod.snd)) ↔
    ∀ s ∈ e.shapes, s.deactivated = false → ∀ t ∈ s.targets, ∀ c ∈ classKeys e.hierarchy t,
      ∀ k ∈ nodeTypes facts node, Reaches (liveSubclasses facts) c k →
        e.Indexed facts node s := by
  refine (and_iff_left_of_imp fun hsame => hsame.results validateShape).trans ?_
  refine forall₂_congr fun s hs => forall_congr' fun hactive => ?_
  rw [mem_appliedShapes, and_iff_right ⟨hs, hactive⟩, mem_getFocusNodes]
  constructor
  · intro hsame t ht c hc k hk hreach
    exact hsame.mpr ⟨t, ht, mem_targetFocus.mpr (.inr ⟨c, hc, k, hk, hreach⟩)⟩
  · refine fun hindexed => ⟨?_, ?_⟩
    · rintro ⟨t, ht, htarget⟩
      exact ⟨t, ht, mem_targetFocus.mpr (.inl htarget)⟩
    · rintro ⟨t, ht, hfocus⟩
      obtain htarget | ⟨c, hc, k, hk, hreach⟩ := mem_targetFocus.mp hfocus
      · exact ⟨t, ht, htarget⟩
      · exact hindexed t ht c hc k hk hreach

/-- A shape for animals, without an index. That dogs are animals is a fact of the graph. -/
def animals : ShaclEngine Unit where
  shapes := [⟨⟨100, "AnimalShape"⟩, [.class ⟨100, "Animal"⟩], false⟩]
  hierarchy := none
  distinct := nodup_singleton _

def rexIsADog : List (Fact Unit) :=
  [⟨⟨100, "Dog"⟩, subClassOf, .ref ⟨100, "Animal"⟩⟩,
   ⟨⟨100, "rex"⟩, rdfType, .ref ⟨100, "Dog"⟩⟩]

theorem added_subclass_is_not_applied :
    nodeTypes rexIsADog ⟨100, "rex"⟩ = [⟨100, "Dog"⟩] ∧
    (animals.shapes.map (getFocusNodes animals.hierarchy rexIsADog)) = [[⟨100, "rex"⟩]] ∧
    animals.validateAll rexIsADog (fun _ s => [s.id]) =
      [(.ref ⟨100, "rex"⟩, ⟨100, "AnimalShape"⟩)] ∧
    animals.validateNode rexIsADog (fun _ s => [s.id]) ⟨100, "rex"⟩ [⟨100, "Dog"⟩] = [] := by
  decide

end ShaclEngine

end FlureeDb.Shacl
