import Mathlib.Data.List.Induction
import SelectionTree.Proofs.Relabelling
/-!
Conversions with different variable values. What is bound shows in the values of arguments only, so
two trees of one operation are the same once null stands in the place of every value.
-/
set_option autoImplicit false

namespace SelectionTree

namespace Dict

variable {α β : Type}

theorem insert_mapValues (f : α → β) (key : String) (value : α) (d : Dict α) :
    insert key (f value) (mapValues f d) = mapValues f (insert key value d) := by
  induction d with
  | nil => rfl
  | cons e rest ih =>
    obtain ⟨k, v⟩ := e
    by_cases h : k = key
    · simp [mapValues, insert, h]
    · simpa [mapValues, insert, h] using ih

theorem ofList_mapValues (f : α → β) (entries : List (String × α)) :
    ofList (mapValues f entries) = mapValues f (ofList entries) := by
  induction entries using List.reverseRecOn with
  | nil => rfl
  | append_singleton entries e ih =>
    calc
      ofList (mapValues f (entries ++ [e]))
          = insert e.1 (f e.2) (ofList (mapValues f entries)) := by
        simp [ofList, mapValues]
      _ = mapValues f (insert e.1 e.2 (ofList entries)) := by rw [ih, insert_mapValues]
      _ = mapValues f (ofList (entries ++ [e])) := by simp [ofList]

end Dict

def Arguments.blank (args : Arguments) : Arguments := Dict.mapValues (fun _ => .null) args

def Directives.blank (ds : Directives) : Directives := Dict.mapValues Arguments.blank ds

/-- The attributes with null in the place of every argument's value, of the field and of its
directives. -/
def Relabelling.blank : Relabelling where
  apply a :=
    { a with
      arguments := a.arguments.map Arguments.blank
      directives := a.directives.map Directives.blank }
  name _ := rfl
  aliasName _ := rfl
  condition _ := rfl

namespace Literal

def blankAll (args : List (String × Literal)) : List (String × Literal) :=
  Dict.mapValues (fun _ => .null) args

end Literal

def FieldHead.blank (head : FieldHead) : FieldHead :=
  { head with
    arguments := Literal.blankAll head.arguments
    directives := head.directives.map fun d =>
      { d with arguments := Literal.blankAll d.arguments } }

theorem Arguments.ofLiterals_blank (bindings : Option Bindings) (args : List (String × Literal)) :
    ofLiterals none (Literal.blankAll args) = (ofLiterals bindings args).blank := by
  rw [ofLiterals, ofLiterals, blank, Literal.evalFields_eq, Literal.evalFields_eq,
    ← Dict.ofList_mapValues]
  simp only [Literal.blankAll, Dict.mapValues, List.map_map]
  rfl

theorem Directives.ofLiterals_blank (bindings : Option Bindings) (ds : List Directive) :
    ofLiterals none (ds.map fun d => { d with arguments := Literal.blankAll d.arguments })
      = (ofLiterals bindings ds).blank := by
  rw [ofLiterals, ofLiterals, blank, ← Dict.ofList_mapValues]
  simp only [Dict.mapValues, List.map_map, Function.comp_def, Arguments.ofLiterals_blank bindings]

namespace Request

theorem unlessEmpty_mapValues {α β : Type} (f : α → β) (d : Dict α) :
    unlessEmpty (Dict.mapValues f d) = (unlessEmpty d).map (Dict.mapValues f) := by
  cases d <;> rfl

theorem attributes_blank (q : Request) (fragments : Fragments) (place : Place) (head : FieldHead) :
    Request.attributes { q with fragments, bindings := none } place head.blank
      = Relabelling.blank.apply (q.attributes place head) := by
  have arguments := Arguments.ofLiterals_blank q.bindings head.arguments
  have directives := Directives.ofLiterals_blank q.bindings head.directives
  have values (args : Arguments) :
      unlessEmpty args.blank = (unlessEmpty args).map Arguments.blank :=
    unlessEmpty_mapValues _ args
  have directiveValues (ds : Directives) :
      unlessEmpty ds.blank = (unlessEmpty ds).map Directives.blank := unlessEmpty_mapValues _ ds
  simp only [attributes, FieldHead.blank, Relabelling.blank, arguments, directives, values,
    directiveValues]
  rfl

theorem outcome_convert_blank (q : Request) (operation : Operation) :
    (q.convert operation).outcome.map (Tree.relabel .blank)
      = (Request.convert
          { q with fragments := q.fragments.rewrite FieldHead.blank, bindings := none }
          (operation.rewrite FieldHead.blank)).outcome := by
  have mirrors : q.Mirrors
      { q with fragments := q.fragments.rewrite FieldHead.blank, bindings := none }
      FieldHead.blank .blank := ⟨rfl, rfl, attributes_blank q _⟩
  exact (outcome_convert_relabel mirrors operation).symm

/-- Whatever is bound to variables, an operation fails with the same error or has the same tree but
for the values of arguments. -/
theorem convert_blanked (q : Request) (bindings bindings' : Option Bindings)
    (operation : Operation) :
    (Request.convert { q with bindings } operation).outcome.map (Tree.relabel .blank)
      = (Request.convert { q with bindings := bindings' } operation).outcome.map
          (Tree.relabel .blank) := by
  rw [outcome_convert_blank, outcome_convert_blank]

end Request

end SelectionTree
