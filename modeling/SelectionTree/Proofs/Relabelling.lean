import Mathlib.Data.List.Induction
import SelectionTree.Proofs.Answers
/-!
Attributes that merges do not read. A merge looks at the name, the alias and the type condition of a
node only, so the other attributes may be changed before a conversion or in its tree, with the same
result. In particular options add attributes to the nodes and do nothing else.
-/
set_option autoImplicit false

namespace SelectionTree

structure Relabelling where
  apply : Attributes → Attributes
  name (a : Attributes) : (apply a).name = a.name
  aliasName (a : Attributes) : (apply a).aliasName = a.aliasName
  condition (a : Attributes) : (apply a).condition = a.condition

theorem Relabelling.responseName (f : Relabelling) (a : Attributes) :
    (f.apply a).responseName = a.responseName := by
  rw [Attributes.responseName, f.aliasName, f.name, Attributes.responseName]

namespace Node

mutual

def relabel (f : Relabelling) : Node → Node
  | leaf a => leaf (f.apply a)
  | branch a children => branch (f.apply a) (relabelAll f children)

def relabelAll (f : Relabelling) : List Node → List Node
  | [] => []
  | n :: rest => n.relabel f :: relabelAll f rest

end

variable {f : Relabelling} {r : Registry} {parent : Composite} {path : String}

theorem relabelAll_eq (f : Relabelling) (ns : List Node) :
    relabelAll f ns = ns.map (relabel f) := by
  induction ns with
  | nil => rfl
  | cons n rest ih => rw [relabelAll, ih, List.map_cons]

theorem relabel_leaf (a : Attributes) : (leaf a).relabel f = leaf (f.apply a) := rfl

theorem relabel_branch (a : Attributes) (children : List Node) :
    (branch a children).relabel f = branch (f.apply a) (children.map (relabel f)) := by
  rw [relabel, relabelAll_eq]

theorem attributes_relabel (n : Node) : (n.relabel f).attributes = f.apply n.attributes := by
  cases n <;> rfl

@[simp] theorem responseName_relabel (n : Node) : (n.relabel f).responseName = n.responseName := by
  rw [responseName, attributes_relabel, f.responseName, responseName]

@[simp] theorem condition_relabel (n : Node) : (n.relabel f).condition = n.condition := by
  rw [condition, attributes_relabel, f.condition, condition]

@[simp] theorem key_relabel (n : Node) (parent : String) :
    (n.relabel f).key parent = n.key parent := by
  rw [key, attributes_relabel, Attributes.key, f.responseName, f.condition]
  rfl

end Node

def Relabelling.identity : Relabelling where
  apply a := a
  name _ := rfl
  aliasName _ := rfl
  condition _ := rfl

mutual

theorem Node.relabel_identity : (n : Node) → n.relabel .identity = n
  | .leaf _ => rfl
  | .branch a children => congrArg (branch a) (relabelAll_identity children)

theorem Node.relabelAll_identity : (ns : List Node) → relabelAll .identity ns = ns
  | [] => rfl
  | n :: rest => by rw [relabelAll, relabel_identity n, relabelAll_identity rest]

end

/-- Entries may be changed before an update or after it, if the test and the update allow it. -/
theorem upsert_map {ε α β : Type} {g : α → β} {test : α → Bool} {test' : β → Bool}
    {update : α → Except ε α} {update' : β → Except ε β} {new : α}
    (tests : ∀ x, test' (g x) = test x) (updates : ∀ x, update' (g x) = g <$> update x)
    (xs : List α) :
    upsert test' update' (g new) (xs.map g) = List.map g <$> upsert test update new xs := by
  induction xs with
  | nil => rfl
  | cons x xs ih =>
    rw [List.map_cons, upsert, upsert, tests]
    split
    · rw [updates, bind_map_left, map_bind]
      rfl
    · rw [ih, bind_map_left, map_bind]
      rfl

namespace Node

variable {f : Relabelling} {r : Registry} {parent : Composite} {path : String}

theorem put_relabel (n : Node) (ns : List Node) :
    put (n.relabel f) (ns.map (relabel f)) = (put n ns).map (relabel f) := by
  induction ns with
  | nil => rfl
  | cons x rest ih =>
    rw [List.map_cons, put, put, responseName_relabel, responseName_relabel, ih]
    split <;> rfl

theorem distinct_relabel (ns : List Node) :
    distinct (ns.map (relabel f)) = (distinct ns).map (relabel f) := by
  induction ns using List.reverseRecOn with
  | nil => rfl
  | append_singleton ns n ih =>
    calc
      distinct ((ns ++ [n]).map (relabel f))
          = put (n.relabel f) (distinct (ns.map (relabel f))) := by
        rw [List.map_append, distinct, List.foldl_append]
        rfl
      _ = (put n (distinct ns)).map (relabel f) := by rw [ih, put_relabel]
      _ = (distinct (ns ++ [n])).map (relabel f) := by
        rw [distinct, distinct, List.foldl_append]
        rfl

theorem typeBelow_apply (a : Attributes) :
    typeBelow r parent path (f.apply a) = typeBelow r parent path a := by
  rw [typeBelow, f.condition, f.name, f.responseName, typeBelow]

theorem combine_relabel {mergeChildren mergeChildren' : Composite → String → List Node →
      Except ConversionError (List Node)}
    (hmerge : ∀ type path children, mergeChildren' type path (children.map (relabel f))
      = List.map (relabel f) <$> mergeChildren type path children) (second first : Node) :
    combine r parent path mergeChildren' (second.relabel f) (first.relabel f)
      = relabel f <$> combine r parent path mergeChildren second first := by
  unfold combine
  rw [condition_relabel, condition_relabel]
  split
  · rfl
  · cases first with
    | leaf a => rfl
    | branch a children =>
      rw [relabel_branch]
      simp only [typeBelow_apply, f.responseName, distinct_relabel, hmerge, bind_map_left, map_bind]
      refine bind_congr fun type => bind_congr fun merged => ?_
      exact congrArg Except.ok (relabel_branch a merged).symm

mutual

theorem mergeLists_relabel {parent : Composite} {path : String} (first : List Node) :
    (second : List Node) →
      mergeLists r parent path (first.map (relabel f)) (second.map (relabel f))
        = List.map (relabel f) <$> mergeLists r parent path first second
  | [] => rfl
  | n :: rest => by
    rw [List.map_cons, mergeLists, mergeLists, mergeNode_relabel first n, bind_map_left, map_bind]
    exact bind_congr fun merged => mergeLists_relabel merged rest

theorem mergeNode_relabel {parent : Composite} {path : String} (first : List Node) :
    (n : Node) → mergeNode r parent path (first.map (relabel f)) (n.relabel f)
      = List.map (relabel f) <$> mergeNode r parent path first n
  | .leaf a => by
    rw [mergeNode, relabel_leaf, mergeNode, ← relabel_leaf]
    refine upsert_map (fun x => ?_) (fun x => ?_) first
    · rw [responseName_relabel, f.responseName]
    · exact combine_relabel (fun _ _ _ => rfl) (leaf a) x
  | .branch a children => by
    rw [mergeNode, relabel_branch, mergeNode, ← relabel_branch]
    refine upsert_map (fun x => ?_) (fun x => ?_) first
    · rw [responseName_relabel, f.responseName]
    · exact combine_relabel (fun _ _ firstChildren => mergeLists_relabel firstChildren children)
        (branch a children) x

end

theorem absorb_relabel (again first : Node) :
    (absorb r parent path (again.relabel f) (first.relabel f)).outcome
      = relabel f <$> (absorb r parent path again first).outcome := by
  cases again with
  | leaf b => rfl
  | branch b more =>
    cases first with
    | leaf a => rfl
    | branch a children =>
      simp only [relabel_branch, absorb, Run.outcome_bind, Run.outcome_ofExcept, Run.outcome_pure,
        typeBelow_apply, f.responseName, merge, distinct_relabel, mergeLists_relabel, bind_map_left,
        map_bind]
      refine bind_congr fun type => bind_congr fun merged => ?_
      exact congrArg Except.ok (relabel_branch a merged).symm

end Node

mutual

def Selection.rewrite (h : FieldHead → FieldHead) : Selection → Selection
  | .field head body => .field (h head) (rewriteAll h body)
  | .inline own body => .inline own (rewriteAll h body)
  | .spread name => .spread name

def Selection.rewriteAll (h : FieldHead → FieldHead) : List Selection → List Selection
  | [] => []
  | s :: rest => s.rewrite h :: rewriteAll h rest

end

def Operation.rewrite (h : FieldHead → FieldHead) (operation : Operation) : Operation where
  kind := operation.kind
  selections := Selection.rewriteAll h operation.selections

def Fragments.rewrite (h : FieldHead → FieldHead) (fragments : Fragments) : Fragments :=
  Dict.mapValues (fun fragment => { fragment with body := Selection.rewriteAll h fragment.body })
    fragments

def Tree.relabel (f : Relabelling) (tree : Tree) : Tree where
  kind := tree.kind
  roots := tree.roots.map (Node.relabel f)

theorem Tree.relabel_identity (tree : Tree) : tree.relabel .identity = tree := by
  rw [relabel, ← Node.relabelAll_eq, Node.relabelAll_identity]

mutual

theorem Selection.rewrite_id : (s : Selection) → s.rewrite id = s
  | .field head body => by rw [rewrite, rewriteAll_id body, id_eq]
  | .inline own body => by rw [rewrite, rewriteAll_id body]
  | .spread name => rfl

theorem Selection.rewriteAll_id : (selections : List Selection) →
    rewriteAll id selections = selections
  | [] => rfl
  | s :: rest => by rw [rewriteAll, rewrite_id s, rewriteAll_id rest]

end

theorem Fragments.rewrite_id (fragments : Fragments) : fragments.rewrite id = fragments := by
  simp only [rewrite, Dict.mapValues, Selection.rewriteAll_id]
  exact List.map_id fragments

theorem Operation.rewrite_id (operation : Operation) : operation.rewrite id = operation := by
  rw [rewrite, Selection.rewriteAll_id]

namespace Request

structure Mirrors (q q' : Request) (h : FieldHead → FieldHead) (f : Relabelling) : Prop where
  registry : q'.registry = q.registry
  fragments : q'.fragments = q.fragments.rewrite h
  attributes : ∀ place head, q'.attributes place (h head) = f.apply (q.attributes place head)

variable {q q' : Request} {h : FieldHead → FieldHead} {f : Relabelling} {place : Place}
  {chain : List String}

theorem Mirrors.name (m : q.Mirrors q' h f) (place : Place) (head : FieldHead) :
    (h head).name = head.name := by
  have same := congrArg Attributes.name (m.attributes place head)
  rwa [f.name] at same

theorem Mirrors.responseName (m : q.Mirrors q' h f) (place : Place) (head : FieldHead) :
    (h head).responseName = head.responseName := by
  have same := congrArg Attributes.responseName (m.attributes place head)
  rwa [f.responseName] at same

theorem Mirrors.opens (m : q.Mirrors q' h f) {chain' : List String} {s : Selection}
    {outer condition : Option String} {body : List Selection}
    (opened : q.Opens chain outer s condition chain' body) :
    q'.Opens chain outer (s.rewrite h) condition chain' (Selection.rewriteAll h body) := by
  cases opened with
  | inline own body => exact .inline own _
  | @spread name fragment new found =>
    have found' : Dict.find? name q'.fragments
        = some { fragment with body := Selection.rewriteAll h fragment.body } := by
      rw [m.fragments, Fragments.rewrite, Dict.find?_mapValues, found]
      rfl
    exact .spread new found'

theorem outcome_add_relabel (m : q.Mirrors q' h f) (level : List Node) (n : Node) :
    (q'.add place (level.map (Node.relabel f)) (n.relabel f)).outcome
      = List.map (Node.relabel f) <$> (q.add place level n).outcome := by
  rw [add, add, Node.outcome_addToLevel, Node.outcome_addToLevel, m.registry]
  refine upsert_map (fun x => ?_) (fun x => Node.absorb_relabel n x) level
  rw [Node.key_relabel, Node.key_relabel]

theorem outcome_addAll_relabel (m : q.Mirrors q' h f) (level ns : List Node) :
    (q'.addAll place (level.map (Node.relabel f)) (ns.map (Node.relabel f))).outcome
      = List.map (Node.relabel f) <$> (q.addAll place level ns).outcome := by
  induction ns generalizing level with
  | nil => rfl
  | cons n rest ih =>
    rw [List.map_cons, outcome_addAll_cons, outcome_addAll_cons, outcome_add_relabel m,
      bind_map_left, map_bind]
    exact bind_congr ih

theorem node_relabel (m : q.Mirrors q' h f) (place : Place) (head : FieldHead)
    {body : List Selection}
    (inside : ∀ inner, (q'.expand inner chain [] (Selection.rewriteAll h body)).outcome
      = List.map (Node.relabel f) <$> (q.expand inner chain [] body).outcome) :
    q'.node place chain (h head) (Selection.rewriteAll h body)
      = Node.relabel f <$> q.node place chain head body := by
  by_cases full : body = []
  · subst full
    rw [Selection.rewriteAll, node_nil, node_nil, m.attributes]
    rfl
  · have full' : Selection.rewriteAll h body ≠ [] := by
      cases body with
      | nil => exact absurd rfl full
      | cons s rest => simp [Selection.rewriteAll]
    have below : ∀ type, place.below (h head) type = place.below head type := fun type => by
      rw [Place.below, m.responseName place, Place.below]
    rw [node_of_full q' _ _ _ full', node_of_full q _ _ _ full, m.registry, m.name place,
      m.responseName place]
    cases q.registry.nested? place.parent place.condition head.name with
    | none => rfl
    | some type =>
      rw [Option.elim_some, Option.elim_some, below, inside, bind_map_left, map_bind, m.attributes]
      exact bind_congr fun nodes => congrArg Except.ok (Node.relabel_branch _ nodes).symm

/-- Rewritten selections are expanded into the nodes of the others with the attributes changed, or
fail with the same error. -/
theorem outcome_expand_relabel (m : q.Mirrors q' h f) (place : Place) (chain : List String)
    (level : List Node) (selections : List Selection) :
    (q'.expand place chain (level.map (Node.relabel f)) (Selection.rewriteAll h selections)).outcome
      = List.map (Node.relabel f) <$> (q.expand place chain level selections).outcome := by
  induction place, chain, selections using expand_induction q generalizing level with
  | nil place chain =>
    rw [Selection.rewriteAll, outcome_expand_nil, outcome_expand_nil]
    rfl
  | field place chain head body rest hbody hrest =>
    have here := node_relabel m place head fun inner => hbody inner []
    rw [Selection.rewriteAll, Selection.rewrite, outcome_expand_field, outcome_expand_field, here,
      bind_map_left, map_bind]
    refine bind_congr fun n => ?_
    rw [outcome_add_relabel m, bind_map_left, map_bind]
    exact bind_congr hrest
  | opens place chain s condition chain' body rest opened hbody hrest =>
    have inside := hbody []
    rw [Selection.rewriteAll, outcome_expand_opens q' (m.opens opened),
      outcome_expand_opens q opened, map_bind]
    rw [List.map_nil] at inside
    rw [inside, bind_map_left]
    refine bind_congr fun ns => ?_
    rw [outcome_addAll_relabel m, bind_map_left, map_bind]
    exact bind_congr hrest
  | cyclic place chain name rest old _ =>
    rw [Selection.rewriteAll, Selection.rewrite, outcome_expand_spread_of_mem q' _ _ _ _ old,
      outcome_expand_spread_of_mem q _ _ _ _ old]
    rfl
  | undefined place chain name rest new missing _ =>
    have missing' : Dict.find? name q'.fragments = none := by
      rw [m.fragments, Fragments.rewrite, Dict.find?_mapValues, missing]
      rfl
    rw [Selection.rewriteAll, Selection.rewrite,
      outcome_expand_spread_of_none q' _ _ _ _ new missing',
      outcome_expand_spread_of_none q _ _ _ _ new missing]
    rfl

/-- A rewritten operation is converted into the tree of the operation with the attributes changed,
or fails with the same error. -/
theorem outcome_convert_relabel (m : q.Mirrors q' h f) (operation : Operation) :
    (q'.convert (operation.rewrite h)).outcome
      = Tree.relabel f <$> (q.convert operation).outcome := by
  have kind : (operation.rewrite h).kind = operation.kind := rfl
  rw [outcome_convert_elim, outcome_convert_elim, m.registry, kind]
  cases q.registry.root? operation.kind with
  | none => rfl
  | some root =>
    have expanded := outcome_expand_relabel m ⟨root, "", none⟩ [] [] operation.selections
    rw [Option.elim_some, Option.elim_some, map_bind]
    refine (congrArg (· >>= _) expanded).trans ?_
    rw [bind_map_left]
    rfl

end Request

/-- The attributes that a node has whatever the options are. -/
def Relabelling.plain : Relabelling where
  apply a := { a with path := none, returnType := none }
  name _ := rfl
  aliasName _ := rfl
  condition _ := rfl

/-- Without paths and types, the tree of a conversion is that of the conversion with default
options. Whether a conversion fails, and with what error, does not depend on its options. -/
theorem Request.convert_plain (q : Request) (operation : Operation) :
    (q.convert operation).outcome.map (Tree.relabel .plain)
      = (Request.convert { q with options := {} } operation).outcome := by
  have mirrors : q.Mirrors { q with options := {} } id .plain := by
    refine ⟨rfl, (Fragments.rewrite_id _).symm, fun place head => ?_⟩
    rfl
  have converted := outcome_convert_relabel mirrors operation
  rw [Operation.rewrite_id] at converted
  exact converted.symm

end SelectionTree
