import SelectionTree.Proofs.Offences
/-!
Every node of a tree stands on the type that its fields are selected from. A node may have been made
in another list than the one it is found in, but merges only bring lists together whose fields have
the same slots on the way from the root, and those stand on one type.
-/
set_option autoImplicit false

namespace SelectionTree

abbrev Spot := Standing × String

def Spot.place (i : Spot) (a : Attributes) : Place := ⟨i.1.2, i.2, a.condition⟩

def Spot.below (r : Registry) (i : Spot) (a : Attributes) : Spot :=
  (i.1.below r a, joinPath i.2 a.responseName)

def placed (r : Registry) {visits : List Visit} (agree : SameNames visits)
    (said : Place → Attributes → Prop) : Tracking Spot where
  holds i a full := Met r visits i.1 a full ∧ said (i.place a) a
  below := Spot.below r
  below_eq ha hb name condition := by
    have standing := (standings r agree).below_eq ha.1 hb.1 name condition
    exact Prod.ext standing (congrArg (joinPath _) name)

namespace Request

variable {q : Request} {above : List Selected} {place : Place} {chain : List String}
  {nodes : List Node} {visits : List Visit} {said : Place → Attributes → Prop}

def pathOf (above : List Selected) : String :=
  above.foldl (fun path s => joinPath path s.responseName) ""

def spot (above : List Selected) (parent : Composite) : Spot :=
  (standing above parent, pathOf above)

theorem pathOf_snoc (above : List Selected) (s : Selected) :
    pathOf (above ++ [s]) = joinPath (pathOf above) s.responseName := by
  rw [pathOf, List.foldl_append]
  rfl

theorem path_of_mem_walk {selections : List Selection} {v : Visit}
    (here : place.path = pathOf above)
    (h : v ∈ (q.walk above place chain selections).visits) :
    v.here.place.path = pathOf v.above := by
  obtain ⟨-, -, path⟩ := holds_of_mem_walk (C := fun above place _ _ => place.path = pathOf above)
    (fun path _ _ => by rw [pathOf_snoc, ← path]; rfl) (fun path _ => path) (fun path => path)
    here h
  exact path

theorem follows_placed (agree : SameNames visits)
    (names : ∀ v ∈ visits, Undotted v.here.responseName) :
    (placed q.registry agree said).Follows q spot where
  keyed above parent := by
    intro a b x y ha hb keys
    have slots := (Attributes.key_eq_key (Met.undotted names ha.1) (Met.undotted names hb.1) _).mp
      keys
    exact Prod.ext ((follows_standings agree names).keyed above parent ha.1 hb.1 keys)
      (congrArg (joinPath (pathOf above)) (congrArg Prod.fst slots))
  below := by
    intro above place head body type here full nested
    exact Prod.ext ((follows_standings agree names).below here.1 full nested) (pathOf_snoc _ _)

/-- What is said of every field that a converted operation meets holds of the nodes of its tree, and
the levels of the tree have the properties that fresh levels have and merges keep. -/
theorem arranges_convert {s : Schema} {root : Composite} {operation : Operation} {tree : Tree}
    {P : Spot → List Node → Prop} (schema : q.registry = s.registry)
    (rooted : q.registry.root? operation.kind = some root)
    (names : ∀ v ∈ (q.tour root operation).visits, Undotted v.here.responseName)
    (agree : SameNames (q.tour root operation).visits)
    (speaks : ∀ place head, said place (q.attributes place head))
    (settles : (placed q.registry agree said).Settles P)
    (fresh : ∀ v ∈ (q.tour root operation).visits,
      Tracking.FreshAt P q spot (q.tour root operation).visits v)
    (ok : (q.convert operation).outcome = .ok tree) :
    (placed q.registry agree said).Arranges P (spot [] root) tree.roots := by
  have named : q.registry.Named := schema ▸ s.named_registry
  have known : q.registry.type? root.name = some root := by
    rw [schema] at rooted ⊢
    exact Schema.type?_root? rooted
  rw [q.outcome_convert rooted, bind_eq_ok] at ok
  obtain ⟨nodes, expanded, ok⟩ := ok
  cases ok
  refine Tracking.arranges_expand (follows_placed agree names) settles (List.Sublist.refl _)
    (fun v hv => ?_) Tracking.arranges_nil expanded
  obtain ⟨parent, nested⟩ := types_of_mem_walk named known (offence_walk_of_ok [] expanded) hv
  have path : v.here.place.path = pathOf v.above := path_of_mem_walk rfl hv
  refine ⟨⟨holdsAt_of_known agree hv parent nested, ?_⟩, fresh v hv⟩
  have here : (spot v.above v.here.place.parent).place (q.attributes v.here.place v.here.head)
      = v.here.place := by
    rw [Spot.place, spot, ← path]
    rfl
  rw [here]
  exact speaks _ _

end Request

/-- What a node says of the type of its field, which is selected from a type: the text of the
declared type if types are asked for, that of the meta field if it is not declared. -/
structure Attributes.Typed (q : Request) (type : Composite) (a : Attributes) : Prop where
  absent : q.options.returnTypes = false → a.returnType = none
  declared : q.options.returnTypes = true → ∀ owner declaration,
    q.registry.owner? type a.condition = some owner → owner.field? a.name = some declaration →
      a.returnType = some declaration.type.text
  undeclared : q.options.returnTypes = true →
    (∀ owner, q.registry.owner? type a.condition = some owner → owner.field? a.name = none) →
      a.returnType = if a.name = "__typename" then some "String!" else none

/-- A node that selects a field of a type, and whose children select fields of the type that the
field is declared with. -/
inductive Node.WellTyped (q : Request) : Composite → Node → Prop
  | leaf {type : Composite} {a : Attributes} (typed : a.Typed q type) : WellTyped q type (.leaf a)
  | branch {type owner inner : Composite} {declaration : FieldDeclaration} {a : Attributes}
      {children : List Node} (typed : a.Typed q type)
      (owned : q.registry.owner? type a.condition = some owner)
      (declared : owner.field? a.name = some declaration)
      (resolved : q.registry.type? declaration.type.base = some inner)
      (inside : ∀ n ∈ children, WellTyped q inner n) : WellTyped q type (.branch a children)

namespace Request

variable {q : Request}

theorem typed_attributes (q : Request) (place : Place) (head : FieldHead) :
    (q.attributes place head).Typed q place.parent where
  absent off := by simp [attributes, off]
  declared on owner declaration owned found := by
    have here : q.registry.declared? place.parent place.condition head.name
        = some declaration.type := by
      rw [Registry.declared?, show q.registry.owner? place.parent place.condition = some owner
        from owned, Option.bind_some, show owner.field? head.name = some declaration from found]
      rfl
    simp [attributes, on, returnType?, here]
  undeclared on missing := by
    have here : q.registry.declared? place.parent place.condition head.name = none := by
      rw [Registry.declared?, Option.bind_eq_none_iff]
      intro owner owned
      rw [show owner.field? head.name = none from missing owner owned, Option.map_none]
    simp only [attributes, on, if_true, returnType?, here]
    rfl

theorem wellTyped_of_tracked {visits : List Visit} {agree : SameNames visits}
    {said : Place → Attributes → Prop} (typed : ∀ place a, said place a → a.Typed q place.parent)
    {i : Spot} {n : Node} (h : n.Tracked (placed q.registry agree said) i) :
    n.WellTyped q i.1.2 := by
  induction h with
  | leaf here => exact .leaf (typed _ _ here.2)
  | @branch i a children here _ ih =>
    obtain ⟨inner, nested⟩ := here.1.nested rfl
    have below : (Spot.below q.registry i a).1.2 = inner := by
      simp only [Spot.below, Standing.below, nested, Option.getD_some]
    rw [Registry.nested?, Registry.declared?, Option.bind_eq_some_iff] at nested
    obtain ⟨type, declared, resolved⟩ := nested
    obtain ⟨owner, owned, declared⟩ := Option.bind_eq_some_iff.mp declared
    obtain ⟨declaration, found, rfl⟩ := Option.map_eq_some_iff.mp declared
    exact .branch (typed _ _ here.2) owned found resolved fun n hn => below ▸ ih n hn

/-- The tree of a converted operation is well typed from the root type down: nodes have children
only where their fields are declared with a composite type, to which these belong, and say of their
types what the schema declares. -/
theorem convert_well_typed {s : Schema} {root : Composite} {operation : Operation} {tree : Tree}
    (schema : q.registry = s.registry) (rooted : q.registry.root? operation.kind = some root)
    (names : ∀ v ∈ (q.tour root operation).visits, Undotted v.here.responseName)
    (agree : ∀ v ∈ (q.tour root operation).visits, ∀ w ∈ (q.tour root operation).visits,
      v.slots = w.slots → v.here.head.name = w.here.head.name)
    (ok : (q.convert operation).outcome = .ok tree) : ∀ n ∈ tree.roots, n.WellTyped q root := by
  have arranged : (placed q.registry agree fun place a => a.Typed q place.parent).Arranges
      (fun _ _ => True) (spot [] root) tree.roots :=
    arranges_convert schema rooted names agree (typed_attributes q)
      Tracking.settles_true (fun _ _ _ _ _ _ _ _ _ => trivial) ok
  intro n hn
  exact wellTyped_of_tracked (fun _ _ h => h) (arranged.all n hn)

end Request

def Films.typing : Request := { request with options := { returnTypes := true } }

def Films.introspecting : Operation where
  kind := .query
  selections :=
    [select "hero" [.inline (some "Droid") [select "friends" [select "name" []]]],
     select "hero" [select "__typename" [],
       .inline (some "Droid") [select "friends" [.spread "Names"]]]]

open Films in
theorem convert_well_typed_hero : ∃ tree, (typing.convert introspecting).outcome = .ok tree ∧
    ∀ n ∈ tree.roots, n.WellTyped typing root := by
  have rooted : typing.registry.root? introspecting.kind = some root := by cbv
  have names : ∀ v ∈ (typing.tour root introspecting).visits, Undotted v.here.responseName := by
    have checked : ((typing.tour root introspecting).visits.all fun v =>
        decide (Undotted v.here.responseName)) = true := by cbv
    simpa using checked
  have agree : SameNames (typing.tour root introspecting).visits := by
    have checked : ((typing.tour root introspecting).visits.all fun v =>
        (typing.tour root introspecting).visits.all fun w =>
          decide (v.slots = w.slots → v.here.head.name = w.here.head.name)) = true := by cbv
    simpa only [SameNames, List.all_eq_true, decide_eq_true_eq] using checked
  have converted : ∃ tree, (typing.convert introspecting).outcome = .ok tree := ⟨_, by cbv⟩
  obtain ⟨tree, ok⟩ := converted
  exact ⟨tree, ok, Request.convert_well_typed rfl rooted names agree ok⟩

end SelectionTree
