import SelectionTree.Proofs.Rebuilding
import SelectionTree.Proofs.Relabelling
/-!
Variables as abbreviations of their values. An operation is converted as it is without any variables
once the value of each is written in its place, in the arguments and directives of all fields. Enum
values are an exception, since they become strings where they are written and stay where they are
bound.
-/
set_option autoImplicit false

namespace SelectionTree

namespace Literal

mutual

/-- The literal with the value of every variable written in its place, null if it has none. -/
def substitute (bindings : Option Bindings) : Literal → Literal
  | .var name => ((bound? bindings name).getD .null).literal
  | .null => .null
  | .bool b => .bool b
  | .num n => .num n
  | .str s => .str s
  | .enum name => .enum name
  | .bin bytes => .bin bytes
  | .list items => .list (substituteItems bindings items)
  | .obj fields => .obj (substituteFields bindings fields)

def substituteItems (bindings : Option Bindings) : List Literal → List Literal
  | [] => []
  | l :: rest => l.substitute bindings :: substituteItems bindings rest

def substituteFields (bindings : Option Bindings) :
    List (String × Literal) → List (String × Literal)
  | [] => []
  | (k, l) :: rest => (k, l.substitute bindings) :: substituteFields bindings rest

end

variable {bindings : Option Bindings}

mutual

theorem eval_substitute (h : Enumless bindings) :
    (l : Literal) → (l.substitute bindings).eval none = l.eval bindings
  | .var name => Value.eval_literal _ (enumless_eval h (.var name))
  | .null => rfl
  | .bool _ => rfl
  | .num _ => rfl
  | .str _ => rfl
  | .enum _ => rfl
  | .bin _ => rfl
  | .list items => by rw [substitute, eval, eval, evalItems_substitute h items]
  | .obj fields => by rw [substitute, eval, eval, evalFields_substitute h fields]

theorem evalItems_substitute (h : Enumless bindings) : (items : List Literal) →
    evalItems none (substituteItems bindings items) = evalItems bindings items
  | [] => rfl
  | l :: rest => by
    rw [substituteItems, evalItems, evalItems, eval_substitute h l, evalItems_substitute h rest]

theorem evalFields_substitute (h : Enumless bindings) : (fields : List (String × Literal)) →
    evalFields none (substituteFields bindings fields) = evalFields bindings fields
  | [] => rfl
  | (k, l) :: rest => by
    rw [substituteFields, evalFields, evalFields, eval_substitute h l,
      evalFields_substitute h rest]

end

mutual

theorem unbound_literal : (v : Value) → v.literal.unbound bindings = []
  | .null => rfl
  | .bool _ => rfl
  | .num _ => rfl
  | .str _ => rfl
  | .enum _ => rfl
  | .bin _ => rfl
  | .list items => unboundItems_literal items
  | .obj fields => unboundFields_literal fields

theorem unboundItems_literal : (items : List Value) →
    unboundItems bindings (Value.literalItems items) = []
  | [] => rfl
  | v :: rest => by
    rw [Value.literalItems, unboundItems, unbound_literal v, unboundItems_literal rest,
      List.nil_append]

theorem unboundFields_literal : (fields : List (String × Value)) →
    unboundFields bindings (Value.literalFields fields) = []
  | [] => rfl
  | (k, v) :: rest => by
    rw [Value.literalFields, unboundFields, unbound_literal v, unboundFields_literal rest,
      List.nil_append]

end

mutual

theorem unbound_substitute : (l : Literal) → (l.substitute bindings).unbound none = []
  | .var _ => unbound_literal _
  | .null => rfl
  | .bool _ => rfl
  | .num _ => rfl
  | .str _ => rfl
  | .enum _ => rfl
  | .bin _ => rfl
  | .list items => unboundItems_substitute items
  | .obj fields => unboundFields_substitute fields

theorem unboundItems_substitute : (items : List Literal) →
    unboundItems none (substituteItems bindings items) = []
  | [] => rfl
  | l :: rest => by
    rw [substituteItems, unboundItems, unbound_substitute l, unboundItems_substitute rest,
      List.nil_append]

theorem unboundFields_substitute : (fields : List (String × Literal)) →
    unboundFields none (substituteFields bindings fields) = []
  | [] => rfl
  | (k, l) :: rest => by
    rw [substituteFields, unboundFields, unbound_substitute l, unboundFields_substitute rest,
      List.nil_append]

end

end Literal

def Directive.substitute (bindings : Option Bindings) (d : Directive) : Directive :=
  { d with arguments := Literal.substituteFields bindings d.arguments }

def FieldHead.substitute (bindings : Option Bindings) (head : FieldHead) : FieldHead :=
  { head with
    arguments := Literal.substituteFields bindings head.arguments
    directives := head.directives.map (Directive.substitute bindings) }

variable {bindings : Option Bindings}

theorem FieldHead.unbound_substitute (head : FieldHead) :
    (head.substitute bindings).unbound none = [] := by
  have directives : ∀ d ∈ head.directives,
      Literal.unboundFields none (d.substitute bindings).arguments = [] :=
    fun d _ => Literal.unboundFields_substitute d.arguments
  rw [unbound, substitute, Literal.unboundFields_substitute, List.nil_append, List.flatMap_map]
  exact List.flatMap_eq_nil_iff.mpr directives

theorem Arguments.ofLiterals_substitute (h : Enumless bindings) (args : List (String × Literal)) :
    ofLiterals none (Literal.substituteFields bindings args) = ofLiterals bindings args := by
  rw [ofLiterals, Literal.evalFields_substitute h, ofLiterals]

theorem Directives.ofLiterals_substitute (h : Enumless bindings) (ds : List Directive) :
    ofLiterals none (ds.map (Directive.substitute bindings)) = ofLiterals bindings ds := by
  have same : ∀ d ∈ ds, (fun d : Directive => (d.name, Arguments.ofLiterals none d.arguments))
        (d.substitute bindings) = (d.name, Arguments.ofLiterals bindings d.arguments) :=
    fun d _ => congrArg (Prod.mk d.name) (Arguments.ofLiterals_substitute h d.arguments)
  rw [ofLiterals, List.map_map, ofLiterals]
  exact congrArg Dict.ofList (List.map_congr_left same)

namespace Request

variable {q : Request}

theorem attributes_substitute (h : Enumless q.bindings) (fragments : Fragments) (place : Place)
    (head : FieldHead) :
    Request.attributes { q with fragments, bindings := none } place
        (head.substitute q.bindings) = q.attributes place head := by
  have arguments := Arguments.ofLiterals_substitute h head.arguments
  have directives := Directives.ofLiterals_substitute h head.directives
  simp only [attributes, FieldHead.substitute, arguments, directives]
  rfl

/-- An operation is converted as the operation and the fragments in which variables are replaced by
their values, of which no variable is left: into the same tree or with the same error. -/
theorem convert_substituted (values : Enumless q.bindings) (operation : Operation) :
    (∀ head : FieldHead, (head.substitute q.bindings).unbound none = []) ∧
      (q.convert operation).outcome
        = (Request.convert
            { q with
              fragments := q.fragments.rewrite (FieldHead.substitute q.bindings)
              bindings := none }
            (operation.rewrite (FieldHead.substitute q.bindings))).outcome := by
  refine ⟨FieldHead.unbound_substitute, ?_⟩
  let q' : Request :=
    { q with
      fragments := q.fragments.rewrite (FieldHead.substitute q.bindings)
      bindings := none }
  have mirrors : q.Mirrors q' (FieldHead.substitute q.bindings) .identity :=
    ⟨rfl, rfl, attributes_substitute values _⟩
  have converted := outcome_convert_relabel mirrors operation
  have same : Tree.relabel .identity = id := funext Tree.relabel_identity
  rw [same, id_map] at converted
  exact converted.symm

end Request

namespace Films

def binding : Request :=
  { request with
    fragments :=
      [("Names", ⟨"Droid", [.field { name := "name", arguments :=
        [("form", .list [.var "form", .obj [("style", .var "style")]])] } []]⟩)]
    bindings :=
      some [("form", .obj [("unit", .str "m"), ("parts", .list [.num (.int 2), .null])])] }

def abbreviating : Operation where
  kind := .query
  selections :=
    [.field { name := "hero", arguments := [("near", .var "form"), ("near", .enum "HERE")] }
       [.spread "Names", .field { name := "friends", directives :=
         [⟨"show", [("as", .var "style")]⟩, ⟨"show", [("as", .list [.var "form"])]⟩] }
         [.spread "Names"]]]

end Films

open Films in
theorem convert_substituted_hero : ∃ tree, (binding.convert abbreviating).outcome = .ok tree ∧
    (Request.convert
        { binding with
          fragments := binding.fragments.rewrite (FieldHead.substitute binding.bindings)
          bindings := none }
        (abbreviating.rewrite (FieldHead.substitute binding.bindings))).outcome = .ok tree := by
  have values : Enumless binding.bindings := by
    intro d bound
    cases bound
    cbv
  have converted : ∃ tree, (binding.convert abbreviating).outcome = .ok tree := ⟨_, by cbv⟩
  obtain ⟨tree, ok⟩ := converted
  exact ⟨tree, ok, (Request.convert_substituted values abbreviating).2.symm.trans ok⟩

end SelectionTree
