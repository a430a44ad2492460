import SelectionTree.Proofs.Declarations
/-!
The registry of a schema, described by its definitions alone: which composite types there are and
what they declare, and which types are the roots. Extensions count like definitions throughout, and
the order of the document decides between those that speak of one type, one field or one root.
-/
set_option autoImplicit false

namespace SelectionTree

namespace Definition

def declares? (name field : String) (d : Definition) : Option FieldDeclaration :=
  (d.part? name).bind fun part => part.2.find? fun f => f.name = field

theorem isSome_part? {name : String} {d : Definition} :
    (d.part? name).isSome ↔
      ∃ extension body, d = .type extension name body ∧ body.composite?.isSome := by
  cases d with
  | schema extension roots => simp [part?]
  | directive n => simp [part?]
  | type extension n body =>
    rw [part?]
    split
    · next here =>
      subst here
      constructor
      · intro found
        exact ⟨extension, body, rfl, found⟩
      · rintro ⟨extension', body', same, found⟩
        cases same
        exact found
    · next other =>
      constructor
      · intro found
        cases found
      · rintro ⟨extension', body', same, -⟩
        cases same
        exact absurd rfl other

theorem isSchema_iff {d : Definition} :
    d.isSchema = true ↔ ∃ extension roots, d = .schema extension roots := by
  cases d <;> simp [isSchema]

end Definition

namespace Schema

variable {definitions before after : List Definition} {name : String} {type : Composite}
  {kind : OperationKind}

theorem isSome_type?_ofDefinitions :
    ((ofDefinitions definitions).type? name).isSome ↔
      ∃ extension body, Definition.type extension name body ∈ definitions ∧
        body.composite?.isSome := by
  rw [type?_ofDefinitions, Option.isSome_map, parts, List.head?_filterMap, List.isSome_findSome?,
    List.any_eq_true]
  constructor
  · rintro ⟨d, mem, found⟩
    obtain ⟨extension, body, rfl, composite⟩ := Definition.isSome_part?.mp found
    exact ⟨extension, body, mem, composite⟩
  · rintro ⟨extension, body, mem, composite⟩
    exact ⟨_, mem, Definition.isSome_part?.mpr ⟨extension, body, rfl, composite⟩⟩

/-- Of the declarations of a field the earliest is found. -/
theorem find?_declarations (name field : String) (definitions : List Definition) :
    (declarations name definitions).find? (fun f => f.name = field)
      = definitions.findSome? (Definition.declares? name field) := by
  induction definitions with
  | nil => rfl
  | cons d rest ih =>
    rw [List.findSome?_cons, ← ih, Definition.declares?]
    cases said : d.part? name with
    | none => simp only [declarations, parts, List.filterMap_cons_none said, Option.bind_none]
    | some part =>
      simp only [declarations, parts, List.filterMap_cons_some said, List.flatMap_cons,
        List.find?_append, Option.bind_some]
      cases part.2.find? fun f => f.name = field <;> rfl

theorem type?_eq_some (found : (ofDefinitions definitions).type? name = some type) :
    type.name = name ∧
      (definitions.findSome? (Definition.part? name)).map Prod.fst = some type.kind ∧
      type.fields = declarations name definitions := by
  rw [type?_ofDefinitions, parts, List.head?_filterMap, Option.map_eq_some_iff] at found
  obtain ⟨part, first, rfl⟩ := found
  exact ⟨rfl, by rw [first, Option.map_some], rfl⟩

theorem rootNames_eq_nil (unnamed : ∀ d ∈ definitions, d.root? kind = none) :
    rootNames kind definitions = [] := List.filterMap_eq_nil_iff.mpr unnamed

theorem rootName?_of_plain (plain : ∀ extension roots, .schema extension roots ∉ definitions) :
    (ofDefinitions definitions).rootName? kind = some kind.conventionalRoot := by
  rw [rootName?_ofDefinitions, if_neg]
  rw [List.any_eq_true]
  rintro ⟨d, mem, isSchema⟩
  obtain ⟨extension, roots, rfl⟩ := Definition.isSchema_iff.mp isSchema
  exact plain extension roots mem

theorem any_isSchema {extension : Bool} {roots : Roots}
    (mem : .schema extension roots ∈ definitions) : definitions.any Definition.isSchema = true :=
  List.any_eq_true.mpr ⟨_, mem, rfl⟩

theorem rootName?_of_last {extension : Bool} {roots : Roots}
    (named : roots.get kind = some name) (last : ∀ d ∈ after, d.root? kind = none) :
    (ofDefinitions (before ++ .schema extension roots :: after)).rootName? kind = some name := by
  have here : Definition.root? kind (.schema extension roots) = some name := named
  have names : rootNames kind (before ++ .schema extension roots :: after)
      = rootNames kind before ++ [name] := by
    rw [rootNames, List.filterMap_append, List.filterMap_cons_some here]
    exact congrArg (fun rest => rootNames kind before ++ name :: rest) (rootNames_eq_nil last)
  have explicit : .schema extension roots ∈ before ++ .schema extension roots :: after := by simp
  rw [rootName?_ofDefinitions, any_isSchema explicit, if_pos rfl, names, List.getLast?_concat]

theorem rootName?_of_unnamed {extension : Bool} {roots : Roots}
    (mem : .schema extension roots ∈ definitions)
    (unnamed : ∀ d ∈ definitions, d.root? kind = none) :
    (ofDefinitions definitions).rootName? kind = none := by
  rw [rootName?_ofDefinitions, any_isSchema mem, if_pos rfl, rootNames_eq_nil unnamed]
  rfl

/-- What the registry of a schema answers. A composite type is found where a definition or extension
says something of it; it has the kind that is said first and all fields in the order of the
document, so the earliest declaration of a field counts. A root type is the one of the conventional
name if the document has no schema definition, else the one that is named last, if one is named. -/
theorem registry_ofDefinitions (definitions : List Definition) :
    (∀ name, ((ofDefinitions definitions).registry.type? name).isSome ↔
        ∃ extension body, Definition.type extension name body ∈ definitions ∧
          body.composite?.isSome) ∧
      (∀ name type, (ofDefinitions definitions).registry.type? name = some type →
        type.name = name ∧
          (definitions.findSome? (Definition.part? name)).map Prod.fst = some type.kind ∧
          type.fields = declarations name definitions ∧
          ∀ field, type.field? field
            = definitions.findSome? (Definition.declares? name field)) ∧
      ∀ kind,
        ((∀ extension roots, .schema extension roots ∉ definitions) →
          (ofDefinitions definitions).registry.root? kind
            = (ofDefinitions definitions).registry.type? kind.conventionalRoot) ∧
        (∀ before extension roots after name,
          definitions = before ++ .schema extension roots :: after →
          roots.get kind = some name → (∀ d ∈ after, d.root? kind = none) →
          (ofDefinitions definitions).registry.root? kind
            = (ofDefinitions definitions).registry.type? name) ∧
        ∀ extension roots, .schema extension roots ∈ definitions →
          (∀ d ∈ definitions, d.root? kind = none) →
          (ofDefinitions definitions).registry.root? kind = none := by
  refine ⟨fun name => isSome_type?_ofDefinitions, fun name type found => ?_, fun kind => ?_⟩
  · obtain ⟨here, first, fields⟩ := type?_eq_some found
    refine ⟨here, first, fields, fun field => ?_⟩
    rw [Composite.field?, fields, find?_declarations]
  · simp only [root?_registry]
    refine ⟨fun plain => ?_, ?_, fun extension roots mem unnamed => ?_⟩
    · rw [rootName?_of_plain plain]
      rfl
    · rintro before extension roots after name rfl named last
      rw [rootName?_of_last named last]
      rfl
    · rw [rootName?_of_unnamed mem unnamed]
      rfl

end Schema

open Films in
theorem registry_ofDefinitions_scattered : ∃ type,
    (Schema.ofDefinitions scattered).registry.type? "Character" = some type ∧
      type.kind = .object ∧
      type.fields.map FieldDeclaration.name = ["height", "id", "name", "friends"] ∧
      type.field? "name" = some ⟨"name", .named "String" true⟩ ∧
      (Schema.ofDefinitions scattered).registry.root? .mutation
        = (Schema.ofDefinitions scattered).registry.type? "Query" ∧
      (Schema.ofDefinitions scattered).registry.root? .subscription = none := by
  obtain ⟨found, types, roots⟩ := Schema.registry_ofDefinitions scattered
  have composite := (found "Character").mpr ⟨true,
    .object [⟨"height", .named "Int" true⟩], by simp [scattered], rfl⟩
  obtain ⟨type, here⟩ := Option.isSome_iff_exists.mp composite
  obtain ⟨-, kind, fields, field⟩ := types "Character" type here
  have mutation := (roots .mutation).2.1 [] true { mutation := some "Query" } _ "Query" rfl rfl
    (by decide)
  have unnamed : ∀ d ∈ scattered, d.root? .subscription = none := by decide
  have subscription := (roots .subscription).2.2 true { mutation := some "Query" }
    List.mem_cons_self unnamed
  refine ⟨type, here, ?_, fields ▸ by decide, (field "name").trans (by decide), mutation,
    subscription⟩
  exact (Option.some.inj kind).symm

end SelectionTree
