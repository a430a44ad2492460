import Mathlib.Data.List.Induction
import SelectionTree.Schema
import SelectionTree.Proofs.Answers
import SelectionTree.Proofs.Blending
import SelectionTree.Proofs.Level
import SelectionTree.Proofs.Names
/-!
The answers of a schema, read off its definitions. A type is what its definitions and extensions
say one after the other; a root type is what is said of it last. So definitions that are added later
take no answer back, and definitions that do not compete may come in any order.
-/
set_option autoImplicit false

namespace SelectionTree

namespace Definition

def isSchema : Definition → Bool
  | schema _ _ => true
  | type _ _ _ => false
  | directive _ => false

def part? (name : String) : Definition → Option (CompositeKind × List FieldDeclaration)
  | schema _ _ => none
  | type _ n body => if n = name then body.composite? else none
  | directive _ => none

def root? (kind : OperationKind) : Definition → Option String
  | schema _ roots => roots.get kind
  | type _ _ _ => none
  | directive _ => none

theorem root?_of_plain {d : Definition} (plain : d.isSchema = false) (kind : OperationKind) :
    d.root? kind = none := by
  cases d with
  | schema extension roots => cases plain
  | type extension name body => rfl
  | directive name => rfl

end Definition

theorem Roots.get_override (r s : Roots) (kind : OperationKind) :
    (r.override s).get kind = (s.get kind).or (r.get kind) := by
  cases kind <;> simp [override, get]

namespace Composite

theorem matches_append (c : Composite) (more : List FieldDeclaration) :
    c.Matches True { c with fields := c.fields ++ more } where
  name := rfl
  fields name := by
    rw [field?, field?, List.find?_append]
    cases c.fields.find? fun f => f.name = name with
    | none => exact .gap trivial _
    | some f => exact .both rfl

theorem matches_perm {gaps : Prop} {c c' : Composite} (name : c'.name = c.name)
    (perm : c.fields.Perm c'.fields) (once : (c.fields.map FieldDeclaration.name).Nodup) :
    c.Matches gaps c' where
  name := name
  fields field := by
    have same : c.field? field = c'.field? field := withKey?_perm perm once
    exact .of_eq (congrArg _ same)

end Composite

namespace Schema

variable {definitions definitions' more : List Definition} {name : String}

def parts (name : String) (definitions : List Definition) :
    List (CompositeKind × List FieldDeclaration) :=
  definitions.filterMap (Definition.part? name)

/-- The fields that are declared for the composite type of a name, in order. -/
def declarations (name : String) (definitions : List Definition) : List FieldDeclaration :=
  (parts name definitions).flatMap Prod.snd

def rootNames (kind : OperationKind) (definitions : List Definition) : List String :=
  definitions.filterMap (Definition.root? kind)

theorem ofDefinitions_snoc (definitions : List Definition) (d : Definition) :
    ofDefinitions (definitions ++ [d]) = (ofDefinitions definitions).add d := List.foldl_append

theorem find?_addType (types : Dict (CompositeKind × List FieldDeclaration)) (n : String)
    (kind : CompositeKind) (fields : List FieldDeclaration) (name : String) :
    Dict.find? name (addType types n kind fields)
      = if n = name then
          some ((Dict.find? name types).elim (kind, fields) fun t => (t.1, t.2 ++ fields))
        else Dict.find? name types := by
  unfold addType
  by_cases h : n = name
  · subst h
    cases Dict.find? n types <;> simp [Dict.find?_insert]
  · cases Dict.find? n types <;> simp [Dict.find?_insert, h]

theorem find?_add (s : Schema) (d : Definition) (name : String) :
    Dict.find? name (s.add d).types
      = (d.part? name).elim (Dict.find? name s.types) fun p =>
          some ((Dict.find? name s.types).elim p fun t => (t.1, t.2 ++ p.2)) := by
  cases d with
  | schema extension roots => rfl
  | directive n => rfl
  | type extension n body =>
    rw [Definition.part?, add]
    cases body.composite? with
    | none => simp
    | some p =>
      simp only [find?_addType]
      split <;> rfl

theorem find?_types (definitions : List Definition) (name : String) :
    Dict.find? name (ofDefinitions definitions).types
      = (parts name definitions).head?.map fun p => (p.1, declarations name definitions) := by
  induction definitions using List.reverseRecOn with
  | nil => rfl
  | append_singleton definitions d ih =>
    rw [ofDefinitions_snoc, find?_add, ih]
    cases said : d.part? name with
    | none => simp [declarations, parts, said]
    | some p => cases first : parts name definitions <;> simp_all [declarations, parts]

/-- A composite type has the kind that is said first and all fields that are declared for it. -/
theorem type?_ofDefinitions (definitions : List Definition) (name : String) :
    (ofDefinitions definitions).type? name
      = (parts name definitions).head?.map fun p =>
          ⟨name, p.1, declarations name definitions⟩ := by
  rw [type?, find?_types, Option.map_map]
  rfl

theorem isSome_roots_add (s : Schema) (d : Definition) :
    (s.add d).roots.isSome = (s.roots.isSome || d.isSchema) := by
  cases d with
  | schema extension roots => simp [add, Definition.isSchema]
  | directive n => simp [add, Definition.isSchema]
  | type extension n body =>
    rw [add]
    split <;> simp [Definition.isSchema]

theorem get_roots_add (s : Schema) (d : Definition) (kind : OperationKind) :
    ((s.add d).roots.getD {}).get kind = (d.root? kind).or ((s.roots.getD {}).get kind) := by
  cases d with
  | schema extension roots => exact Roots.get_override _ roots kind
  | directive n => rfl
  | type extension n body =>
    rw [add]
    split <;> rfl

theorem isSome_roots (definitions : List Definition) :
    (ofDefinitions definitions).roots.isSome = definitions.any Definition.isSchema := by
  induction definitions using List.reverseRecOn with
  | nil => rfl
  | append_singleton definitions d ih => simp [ofDefinitions_snoc, isSome_roots_add, ih]

theorem get_roots (definitions : List Definition) (kind : OperationKind) :
    ((ofDefinitions definitions).roots.getD {}).get kind
      = (rootNames kind definitions).getLast? := by
  induction definitions using List.reverseRecOn with
  | nil => cases kind <;> rfl
  | append_singleton definitions d ih =>
    have names : rootNames kind (definitions ++ [d])
        = rootNames kind definitions ++ (d.root? kind).toList := by
      cases said : d.root? kind <;> simp [rootNames, said]
    rw [ofDefinitions_snoc, get_roots_add, ih, names, List.getLast?_append]
    cases d.root? kind <;> rfl

/-- A root type has the name that is said last. The conventional name only counts where there is no
schema definition. -/
theorem rootName?_ofDefinitions (definitions : List Definition) (kind : OperationKind) :
    (ofDefinitions definitions).rootName? kind
      = if definitions.any Definition.isSchema then (rootNames kind definitions).getLast?
        else some kind.conventionalRoot := by
  rw [← isSome_roots, ← get_roots, rootName?]
  cases (ofDefinitions definitions).roots <;> rfl

theorem matches_registry {gaps : Prop} {s s' : Schema}
    (types : ∀ name, Answers gaps (Composite.Matches gaps) (s.type? name) (s'.type? name))
    (roots : ∀ kind, s.rootName? kind = s'.rootName? kind) :
    s.registry.Matches gaps s'.registry where
  types := types
  roots kind := by
    have found : Answers gaps (Composite.Matches gaps) ((s.rootName? kind).bind s.type?)
        ((s'.rootName? kind).bind s'.type?) :=
      (Answers.of_eq (roots kind)).bind fun a b same => same ▸ types a
    exact found

theorem parts_append (name : String) (definitions more : List Definition) :
    parts name (definitions ++ more) = parts name definitions ++ parts name more :=
  List.filterMap_append

theorem declarations_append (name : String) (definitions more : List Definition) :
    declarations name (definitions ++ more)
      = declarations name definitions ++ declarations name more := by
  rw [declarations, parts_append, List.flatMap_append]
  rfl

theorem rootName?_append (plain : ∀ d ∈ more, d.isSchema = false) (kind : OperationKind) :
    (ofDefinitions (definitions ++ more)).rootName? kind
      = (ofDefinitions definitions).rootName? kind := by
  have implicit : more.any Definition.isSchema = false := by simpa using plain
  have unnamed : rootNames kind more = [] :=
    List.filterMap_eq_nil_iff.mpr fun d hd => Definition.root?_of_plain (plain d hd) kind
  have names : rootNames kind (definitions ++ more) = rootNames kind definitions := by
    rw [rootNames, List.filterMap_append]
    exact (congrArg _ unnamed).trans (List.append_nil _)
  rw [rootName?_ofDefinitions, rootName?_ofDefinitions, names, List.any_append, implicit,
    Bool.or_false]

/-- A registry of more definitions gives every answer again, and may close gaps. -/
theorem matches_append (plain : ∀ d ∈ more, d.isSchema = false) :
    (ofDefinitions definitions).registry.Matches True
      (ofDefinitions (definitions ++ more)).registry := by
  refine matches_registry (fun name => ?_) fun kind => (rootName?_append plain kind).symm
  rw [type?_ofDefinitions, type?_ofDefinitions, declarations_append, parts_append]
  cases parts name definitions with
  | nil => exact .gap trivial _
  | cons p rest =>
    exact .both (Composite.matches_append ⟨name, p.1, declarations name definitions⟩ _)

theorem rootName?_perm (perm : definitions.Perm definitions')
    (roots : ∀ kind, (rootNames kind definitions).length ≤ 1) (kind : OperationKind) :
    (ofDefinitions definitions).rootName? kind = (ofDefinitions definitions').rootName? kind := by
  have names : (rootNames kind definitions).Perm (rootNames kind definitions') :=
    perm.filterMap _
  have same : rootNames kind definitions = rootNames kind definitions' := by
    have few := roots kind
    cases said : rootNames kind definitions with
    | nil => exact (List.nil_perm.mp (said ▸ names)).symm
    | cons name rest =>
      rw [said] at few names
      obtain rfl : rest = [] := by simpa using few
      exact List.singleton_perm.mp names
  rw [rootName?_ofDefinitions, rootName?_ofDefinitions, same, perm.any_eq]

theorem matches_perm (perm : definitions.Perm definitions')
    (fields : ∀ name, ((declarations name definitions).map FieldDeclaration.name).Nodup)
    (roots : ∀ kind, (rootNames kind definitions).length ≤ 1) :
    (ofDefinitions definitions).registry.Matches False (ofDefinitions definitions').registry := by
  refine matches_registry (fun name => ?_) (rootName?_perm perm roots)
  have said : (parts name definitions).Perm (parts name definitions') := perm.filterMap _
  have declared : (declarations name definitions).Perm (declarations name definitions') :=
    said.flatMap_right _
  rw [type?_ofDefinitions, type?_ofDefinitions]
  cases first : parts name definitions with
  | nil =>
    rw [first] at said
    rw [List.nil_perm.mp said]
    exact .neither
  | cons p rest =>
    cases first' : parts name definitions' with
    | nil =>
      rw [first, first'] at said
      cases said.eq_nil
    | cons p' rest' => exact .both (Composite.matches_perm rfl declared (fields name))

theorem root?_registry (s : Schema) (kind : OperationKind) :
    s.registry.root? kind = (s.rootName? kind).bind s.type? := rfl

theorem type?_add_schema (s : Schema) (extension : Bool) (roots : Roots) :
    (s.add (.schema extension roots)).type? = s.type? := rfl

/-- Behind a schema definition, a root type has the name given there or an explicit one from
before. -/
theorem rootName?_add_schema (s : Schema) (extension : Bool) (roots : Roots)
    (kind : OperationKind) :
    (s.add (.schema extension roots)).rootName? kind
      = (roots.get kind).or (s.roots.bind fun before => before.get kind) := by
  have named : (s.add (.schema extension roots)).rootName? kind
      = (roots.get kind).or ((s.roots.getD {}).get kind) := Roots.get_override _ roots kind
  rw [named]
  cases s.roots with
  | none => cases kind <;> rfl
  | some before => rfl

/-- An extension of the schema keeps the root types that it does not name where root types are
explicit. Where they are found by convention, it takes them away. -/
theorem root?_extended {roots : Roots} {kind : OperationKind} (unnamed : roots.get kind = none) :
    (ofDefinitions (definitions ++ [.schema true roots])).registry.root? kind
      = if definitions.any Definition.isSchema then (ofDefinitions definitions).registry.root? kind
        else none := by
  rw [root?_registry, root?_registry, ofDefinitions_snoc, rootName?_add_schema, type?_add_schema,
    unnamed, Option.none_or, ← isSome_roots, rootName?]
  cases (ofDefinitions definitions).roots <;> rfl

end Schema

theorem root?_extended_query :
    (Schema.ofDefinitions (.schema false { query := some "Query" } :: Films.definitions
        ++ [.schema true { mutation := some "Droid" }])).registry.root? .query
      = some Films.root := by
  have unnamed : Roots.get { mutation := some "Droid" } .query = none := rfl
  rw [Schema.root?_extended unnamed]
  decide

/-- A conventional root type is lost where the schema is extended by another root type. -/
theorem root?_extended_differs :
    Roots.get { mutation := some "Droid" } .query = none ∧
      (Schema.ofDefinitions
          (Films.definitions ++ [.schema true { mutation := some "Droid" }])).registry.root? .query
        ≠ (Schema.ofDefinitions Films.definitions).registry.root? .query := by
  decide

namespace Request

/-- Conversions that do not show types never notice that a schema has grown. -/
theorem convert_grown (q : Request) {definitions more : List Definition}
    (plain : ∀ d ∈ more, d.isSchema = false) (untyped : q.options.returnTypes = false)
    {operation : Operation} {tree : Tree}
    (ok : ((q.under (Schema.ofDefinitions definitions).registry).convert operation).outcome
      = .ok tree) :
    ((q.under (Schema.ofDefinitions (definitions ++ more)).registry).convert operation).outcome
      = .ok tree := by
  have grown : (Schema.ofDefinitions definitions).registry.Matches True
      (Schema.ofDefinitions (definitions ++ more)).registry := Schema.matches_append plain
  have repeated := (q.under _).repeats_convert grown (fun _ => untyped) operation
  exact repeated.ok ok

end Request

namespace Films

def growth : List Definition :=
  [.type true "Character" (.interface [⟨"name", .named "ID" false⟩, ⟨"height", .named "Int" true⟩]),
   .type false "ID" (.object [⟨"text", .named "String" true⟩]), .directive "cost"]

def visiting : Operation where
  kind := .query
  selections := [select "hero" selections]

end Films

open Films in
theorem convert_grown_hero : ∃ tree,
    ((request.under (Schema.ofDefinitions (definitions ++ growth)).registry).convert
      visiting).outcome = .ok tree ∧
    tree.paths = [["hero"], ["hero", "friends"], ["hero", "friends", "name"],
      ["hero", "friends", "id"], ["hero", "name"], ["hero", "id"], ["hero", "name"]] := by
  have converted : ∃ tree, ((request.under (Schema.ofDefinitions definitions).registry).convert
      visiting).outcome = .ok tree ∧
      tree.paths = [["hero"], ["hero", "friends"], ["hero", "friends", "name"],
        ["hero", "friends", "id"], ["hero", "name"], ["hero", "id"], ["hero", "name"]] :=
    ⟨_, by cbv, by cbv⟩
  obtain ⟨tree, ok, paths⟩ := converted
  have plain : ∀ d ∈ growth, d.isSchema = false := by simp [growth, Definition.isSchema]
  exact ⟨tree, Request.convert_grown request plain rfl ok, paths⟩

namespace Request

/-- The order of definitions does not count where no two of them declare one field or name one
root type. -/
theorem convert_permuted (q : Request) {definitions definitions' : List Definition}
    (perm : definitions.Perm definitions')
    (fields : ∀ name, ((Schema.declarations name definitions).map FieldDeclaration.name).Nodup)
    (roots : ∀ kind, (Schema.rootNames kind definitions).length ≤ 1) (operation : Operation) :
    ((q.under (Schema.ofDefinitions definitions).registry).convert operation).outcome
      = ((q.under (Schema.ofDefinitions definitions').registry).convert operation).outcome := by
  have permuted : (Schema.ofDefinitions definitions).registry.Matches False
      (Schema.ofDefinitions definitions').registry := Schema.matches_perm perm fields roots
  have repeated := (q.under _).repeats_convert permuted False.elim operation
  exact repeated.eq not_false

end Request

def Films.scattered : List Definition :=
  [.schema true { mutation := some "Query" },
   .type true "Character" (.object [⟨"height", .named "Int" true⟩])] ++ definitions ++
  [.schema false { query := some "Query" }, .type true "Query" .scalar]

open Films in
theorem convert_permuted_hero :
    ((request.under (Schema.ofDefinitions scattered).registry).convert visiting).outcome
      = ((request.under (Schema.ofDefinitions scattered.reverse).registry).convert
        visiting).outcome := by
  have fields : ∀ name, ((Schema.declarations name scattered).map FieldDeclaration.name).Nodup := by
    intro name
    by_cases known : name ∈ ["Query", "Character", "Droid"]
    · have checked : ∀ name ∈ ["Query", "Character", "Droid"],
          ((Schema.declarations name scattered).map FieldDeclaration.name).Nodup := by decide
      exact checked name known
    · simp only [List.mem_cons, List.not_mem_nil, or_false, not_or] at known
      simp [Schema.declarations, Schema.parts, scattered, definitions, Definition.part?,
        List.filterMap_cons, Ne.symm known.1, Ne.symm known.2.1, Ne.symm known.2.2]
  have roots : ∀ kind, (Schema.rootNames kind scattered).length ≤ 1 := by
    intro kind
    cases kind <;> decide
  exact Request.convert_permuted request (List.reverse_perm scattered).symm fields roots visiting

end SelectionTree
