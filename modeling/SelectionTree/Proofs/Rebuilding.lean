import Mathlib.Data.List.Permutation
import SelectionTree.Proofs.Inlining
import SelectionTree.Proofs.Typing
/-!
Operations that are rebuilt from their trees. A tree selects every field once and says of it all
that its selection said, so the operation that is read off a tree is converted into that tree.
-/
set_option autoImplicit false

namespace SelectionTree

namespace Value

mutual

/-- The literal of a value; it has no variables. -/
def literal : Value → Literal
  | .null => .null
  | .bool b => .bool b
  | .num n => .num n
  | .str s => .str s
  | .enum name => .enum name
  | .bin bytes => .bin bytes
  | .list items => .list (literalItems items)
  | .obj fields => .obj (literalFields fields)

def literalItems : List Value → List Literal
  | [] => []
  | v :: rest => v.literal :: literalItems rest

def literalFields : List (String × Value) → List (String × Literal)
  | [] => []
  | (k, v) :: rest => (k, v.literal) :: literalFields rest

end

mutual

def enumless : Value → Bool
  | .enum _ => false
  | .list items => enumlessItems items
  | .obj fields => enumlessFields fields
  | .null => true
  | .bool _ => true
  | .num _ => true
  | .str _ => true
  | .bin _ => true

def enumlessItems : List Value → Bool
  | [] => true
  | v :: rest => v.enumless && enumlessItems rest

def enumlessFields : List (String × Value) → Bool
  | [] => true
  | (_, v) :: rest => v.enumless && enumlessFields rest

end

variable {bindings : Option Bindings}

mutual

theorem eval_literal : (v : Value) → v.enumless = true → v.literal.eval bindings = v
  | .null, _ => rfl
  | .bool _, _ => rfl
  | .num _, _ => rfl
  | .str _, _ => rfl
  | .bin _, _ => rfl
  | .list items, h => by rw [literal, Literal.eval, evalItems_literal items h]
  | .obj fields, h => by rw [literal, Literal.eval, evalFields_literal fields h]

theorem evalItems_literal : (items : List Value) → enumlessItems items = true →
    Literal.evalItems bindings (literalItems items) = items
  | [], _ => rfl
  | v :: rest, h => by
    rw [enumlessItems, Bool.and_eq_true] at h
    rw [literalItems, Literal.evalItems, eval_literal v h.1, evalItems_literal rest h.2]

theorem evalFields_literal : (fields : List (String × Value)) → enumlessFields fields = true →
    Literal.evalFields bindings (literalFields fields) = fields
  | [], _ => rfl
  | (k, v) :: rest, h => by
    rw [enumlessFields, Bool.and_eq_true] at h
    rw [literalFields, Literal.evalFields, eval_literal v h.1, evalFields_literal rest h.2]

end

theorem enumlessFields_iff {fields : List (String × Value)} :
    enumlessFields fields = true ↔ ∀ e ∈ fields, e.2.enumless = true := by
  induction fields with
  | nil => simp [enumlessFields]
  | cons e rest ih => simp [enumlessFields, ih]

end Value

/-- No enum value is bound, at any depth. -/
def Enumless (bindings : Option Bindings) : Prop :=
  ∀ d, bindings = some d → Value.enumlessFields d = true

namespace Literal

variable {bindings : Option Bindings}

theorem enumless_of_find? {d : Dict Value} {name : String} {v : Value}
    (h : Value.enumlessFields d = true) (found : Dict.find? name d = some v) :
    v.enumless = true := by
  induction d with
  | nil => cases found
  | cons e rest ih =>
    rw [Value.enumlessFields, Bool.and_eq_true] at h
    rw [Dict.find?] at found
    split at found
    · cases found
      exact h.1
    · exact ih h.2 found

mutual

theorem enumless_eval (h : Enumless bindings) : (l : Literal) → (l.eval bindings).enumless = true
  | .var name => by
    rw [eval]
    cases bound : bound? bindings name with
    | none => rfl
    | some v =>
      obtain ⟨d, rfl, found⟩ := Option.bind_eq_some_iff.mp bound
      exact enumless_of_find? (h d rfl) found
  | .null => rfl
  | .bool _ => rfl
  | .num _ => rfl
  | .str _ => rfl
  | .enum _ => rfl
  | .bin _ => rfl
  | .list items => enumless_evalItems h items
  | .obj fields => enumless_evalFields h fields

theorem enumless_evalItems (h : Enumless bindings) : (items : List Literal) →
    Value.enumlessItems (evalItems bindings items) = true
  | [] => rfl
  | l :: rest => Bool.and_eq_true_iff.mpr ⟨enumless_eval h l, enumless_evalItems h rest⟩

theorem enumless_evalFields (h : Enumless bindings) : (fields : List (String × Literal)) →
    Value.enumlessFields (evalFields bindings fields) = true
  | [] => rfl
  | (_, l) :: rest => Bool.and_eq_true_iff.mpr ⟨enumless_eval h l, enumless_evalFields h rest⟩

end

end Literal

namespace Dict

variable {α : Type}

theorem insert_eq_blend (key : String) (value : α) (d : Dict α) :
    insert key value d = blend Prod.fst (fun e => (e.1, value)) (key, value) d := by
  induction d with
  | nil => rfl
  | cons e rest ih => rw [insert, blend, ih]

def later (first second : String × α) : String × α := (first.1, second.2)

theorem keeps_later : KeepsKey Prod.fst (later : String × α → String × α → String × α) :=
  fun _ _ _ => rfl

theorem ofList_eq (entries : List (String × α)) :
    ofList entries = blendAll Prod.fst later [] entries := by
  simp only [ofList, blendAll, insert_eq_blend, later]

theorem nodup_keys_ofList (entries : List (String × α)) : (keys (ofList entries)).Nodup := by
  have start : (([] : List (String × α)).map Prod.fst).Nodup := List.nodup_nil
  rw [ofList_eq]
  exact nodup_blendAll keeps_later start entries

theorem ofList_of_nodup {d : Dict α} (once : (keys d).Nodup) : ofList d = d := by
  rw [ofList_eq]
  exact blendAll_of_nodup keeps_later once

theorem forall_mem_ofList {entries : List (String × α)} {P : α → Prop}
    (h : ∀ e ∈ entries, P e.2) : ∀ e ∈ ofList entries, P e.2 := by
  have start : ∀ e ∈ ([] : List (String × α)), P e.2 := fun _ mem => absurd mem List.not_mem_nil
  rw [ofList_eq]
  exact forall_mem_blendAll (P := fun e : String × α => P e.2) start h fun _ y hy _ _ => h y hy

end Dict

def Arguments.Writable (d : Arguments) : Prop :=
  (Dict.keys d).Nodup ∧ Value.enumlessFields d = true

def Attributes.head (a : Attributes) : FieldHead where
  name := a.name
  aliasName := a.aliasName
  arguments := Value.literalFields (a.arguments.getD [])
  directives := (a.directives.getD []).map fun d => ⟨d.1, Value.literalFields d.2⟩

theorem ofLiterals_literalFields {bindings : Option Bindings} {d : Arguments} (h : d.Writable) :
    Arguments.ofLiterals bindings (Value.literalFields d) = d := by
  rw [Arguments.ofLiterals, Value.evalFields_literal d h.2, Dict.ofList_of_nodup h.1]

theorem writable_ofLiterals {bindings : Option Bindings} (h : Enumless bindings)
    (args : List (String × Literal)) : (Arguments.ofLiterals bindings args).Writable := by
  refine ⟨Dict.nodup_keys_ofList _, Value.enumlessFields_iff.mpr ?_⟩
  exact Dict.forall_mem_ofList (P := fun v : Value => v.enumless = true)
    (Value.enumlessFields_iff.mp (Literal.enumless_evalFields h args))

theorem writable_of_mem_ofLiterals {bindings : Option Bindings} (h : Enumless bindings)
    (ds : List Directive) : ∀ e ∈ Directives.ofLiterals bindings ds, Arguments.Writable e.2 := by
  refine Dict.forall_mem_ofList fun e he => ?_
  obtain ⟨d, -, rfl⟩ := List.mem_map.mp he
  exact writable_ofLiterals h d.arguments

namespace Request

variable {q q' : Request} {place : Place} {chain : List String} {level nodes : List Node}

theorem getD_unlessEmpty {α : Type} (d : Dict α) : (unlessEmpty d).getD [] = d := by
  cases d <;> rfl

theorem attributes_head (h : Enumless q.bindings) (registry : q'.registry = q.registry)
    (options : q'.options = q.options) (place : Place) (head : FieldHead) :
    q'.attributes place (q.attributes place head).head = q.attributes place head := by
  have arguments : Arguments.ofLiterals q'.bindings (q.attributes place head).head.arguments
      = Arguments.ofLiterals q.bindings head.arguments := by
    simp only [attributes, Attributes.head, getD_unlessEmpty]
    exact ofLiterals_literalFields (writable_ofLiterals h _)
  have directives : Directives.ofLiterals q'.bindings (q.attributes place head).head.directives
      = Directives.ofLiterals q.bindings head.directives := by
    simp only [attributes, Attributes.head, getD_unlessEmpty]
    have same : ∀ e ∈ Directives.ofLiterals q.bindings head.directives,
        (e.1, Arguments.ofLiterals q'.bindings (Value.literalFields e.2)) = e := fun e he =>
      Prod.ext rfl (ofLiterals_literalFields (writable_of_mem_ofLiterals h _ e he))
    rw [Directives.ofLiterals, List.map_map, Function.comp_def, List.map_congr_left same,
      List.map_id']
    exact Dict.ofList_of_nodup (Dict.nodup_keys_ofList _)
  have returnType : q'.returnType? place head.name = q.returnType? place head.name := by
    rw [returnType?, returnType?, registry]
  rw [attributes, arguments, directives, options]
  simp only [attributes, Attributes.head, returnType]
  rfl

end Request

def Attributes.selection (a : Attributes) (body : List Selection) : Selection :=
  match a.condition with
  | none => .field a.head body
  | some condition => .inline (some condition) [.field a.head body]

mutual

/-- The selection that is read off a node, with selections of the nodes below it. -/
def Node.selection : Node → Selection
  | .leaf a => a.selection []
  | .branch a children => a.selection (selections children)

def Node.selections : List Node → List Selection
  | [] => []
  | n :: rest => n.selection :: selections rest

end

def Tree.operation (t : Tree) : Operation := ⟨t.kind, Node.selections t.roots⟩

structure Node.Proper (i : Spot) (ns : List Node) : Prop where
  full : ns ≠ []
  once : (ns.map (Node.key · i.1.2.name)).Nodup

namespace Request

variable {q q' : Request} {place : Place} {chain : List String} {level nodes : List Node}
  {visits : List Visit} {agree : SameNames visits}

/-- The selection of a node adds the node to a level, if its key is new there. -/
theorem outcome_expand_selection {a : Attributes} {body : List Selection} {n : Node}
    {path : String} {parent : Composite} (rest : List Selection)
    (hn : q.node ⟨parent, path, a.condition⟩ chain a.head body = .ok n)
    (new : n.key parent.name ∉ level.map (Node.key · parent.name)) :
    (q.expand ⟨parent, path, none⟩ chain level (a.selection body :: rest)).outcome
      = (q.expand ⟨parent, path, none⟩ chain (level ++ [n]) rest).outcome := by
  have added : ∀ condition, (q.add ⟨parent, path, condition⟩ level n).outcome
      = .ok (level ++ [n]) := fun condition => add_of_new new
  unfold Attributes.selection
  cases condition : a.condition with
  | none =>
    rw [condition] at hn
    rw [outcome_expand_field, hn, ok_bind, added, ok_bind]
  | some c =>
    rw [condition] at hn
    have here : (q.expand ⟨parent, path, some c⟩ chain [] [.field a.head body]).outcome
        = .ok [n] := by
      rw [outcome_expand_field, hn, ok_bind, add_of_new (by simp), ok_bind, outcome_expand_nil]
      rfl
    have gathered : (q.addAll ⟨parent, path, none⟩ level [n]).outcome = .ok (level ++ [n]) := by
      rw [outcome_addAll_cons, added, ok_bind]
      rfl
    rw [outcome_expand_inline]
    change (q.expand ⟨parent, path, some c⟩ chain [] _).outcome >>= _ = _
    rw [here, ok_bind, gathered, ok_bind]

theorem selections_ne_nil (full : nodes ≠ []) : Node.selections nodes ≠ [] := by
  cases nodes with
  | nil => exact absurd rfl full
  | cons n rest => simp [Node.selections]

mutual

theorem node_rebuilt (registry : q'.registry = q.registry) {i : Spot} :
    (n : Node) → n.Arranged (placed q.registry agree fun place a => q'.attributes place a.head = a)
      Node.Proper i → ∃ body, n.selection = n.attributes.selection body ∧
        q'.node (i.place n.attributes) chain n.attributes.head body = .ok n
  | .leaf a, h => by
    cases h with
    | leaf here =>
      refine ⟨[], rfl, ?_⟩
      rw [Node.attributes_leaf, node_nil, here.2]
  | .branch a children, h => by
    cases h with
    | branch here list inside =>
      obtain ⟨type, nested⟩ := here.1.nested rfl
      have inner : (i.place a).below a.head type = ⟨(Spot.below q.registry i a).1.2,
          (Spot.below q.registry i a).2, none⟩ := by
        simp only [Spot.below, Standing.below, nested, Option.getD_some]
        rfl
      have expanded := expand_rebuilt registry children inside [] list.once
      rw [List.nil_append] at expanded
      refine ⟨Node.selections children, rfl, ?_⟩
      have nested' : q'.registry.nested? (i.place a).parent (i.place a).condition a.head.name
          = some type := registry ▸ nested
      rw [Node.attributes_branch, node_of_some q' _ _ (selections_ne_nil list.full) nested', inner,
        here.2]
      exact congrArg (· >>= _) expanded

theorem expand_rebuilt (registry : q'.registry = q.registry) {i : Spot} :
    (ns : List Node) →
      (placed q.registry agree fun place a => q'.attributes place a.head = a).Arranges
        Node.Proper i ns → ∀ level, ((level ++ ns).map (Node.key · i.1.2.name)).Nodup →
      (q'.expand ⟨i.1.2, i.2, none⟩ chain level (Node.selections ns)).outcome = .ok (level ++ ns)
  | [], _, level, _ => by rw [Node.selections, outcome_expand_nil, List.append_nil]
  | n :: rest, h, level, once => by
    obtain ⟨body, selection, here⟩ := node_rebuilt registry n (h n List.mem_cons_self)
    have behind := expand_rebuilt registry rest (fun x hx => h x (List.mem_cons_of_mem n hx))
      (level ++ [n]) (by rwa [List.append_assoc])
    have new : n.key i.1.2.name ∉ level.map (Node.key · i.1.2.name) := by
      rw [List.map_append, List.nodup_append'] at once
      exact fun mem => once.2.2 mem List.mem_cons_self
    rw [Node.selections, selection, outcome_expand_selection _ here new, behind, List.append_assoc]
    rfl

end

end Request

mutual

def Selection.filled : Selection → Bool
  | .field _ body => filledAll body
  | .inline _ body => !body.isEmpty && filledAll body
  | .spread _ => true

def Selection.filledAll : List Selection → Bool
  | [] => true
  | s :: rest => s.filled && filledAll rest

end

namespace Fragments

variable {fragments : Fragments} {selections selections' body rest : List Selection}

/-- No fragment that some selections reach is empty, be it inline or named. A field without
selections is a field without a selection set. -/
structure Fills (fragments : Fragments) (selections : List Selection) : Prop where
  own : Selection.filledAll selections = true
  reached : ∀ name fragment, Reaches fragments selections name →
    Dict.find? name fragments = some fragment →
      fragment.body ≠ [] ∧ Selection.filledAll fragment.body = true

theorem Fills.mono (h : fragments.Fills selections')
    (own : Selection.filledAll selections = true)
    (sub : Selection.spreadsAll selections ⊆ Selection.spreadsAll selections') :
    fragments.Fills selections :=
  ⟨own, fun name fragment reached => h.reached name fragment (reached.mono sub)⟩

theorem Fills.after {s : Selection} (h : fragments.Fills (s :: rest)) : fragments.Fills rest :=
  h.mono (Bool.and_eq_true_iff.mp h.own).2 fun _ mem => List.mem_append_right _ mem

theorem Fills.field {head : FieldHead} (h : fragments.Fills (.field head body :: rest)) :
    fragments.Fills body :=
  h.mono (Bool.and_eq_true_iff.mp h.own).1 fun _ mem => List.mem_append_left _ mem

theorem Fills.inline {own : Option String} (h : fragments.Fills (.inline own body :: rest)) :
    body ≠ [] ∧ fragments.Fills body := by
  have here := Bool.and_eq_true_iff.mp (Bool.and_eq_true_iff.mp h.own).1
  exact ⟨by simpa using here.1, h.mono here.2 fun _ mem => List.mem_append_left _ mem⟩

theorem Fills.spread {name : String} {fragment : Fragment}
    (h : fragments.Fills (.spread name :: rest))
    (found : Dict.find? name fragments = some fragment) :
    fragment.body ≠ [] ∧ fragments.Fills fragment.body := by
  obtain ⟨full, own⟩ := h.reached name fragment reaches_spread found
  exact ⟨full, own, fun other fragment' reached found' =>
    h.reached other fragment' (.step reaches_spread found reached) found'⟩

end Fragments

namespace Request

variable {q q' : Request} {above : List Selected} {place : Place} {chain : List String}
  {level nodes : List Node} {selections : List Selection} {visits : List Visit}

theorem Opens.fills {chain' : List String} {s : Selection} {outer condition : Option String}
    {body rest : List Selection} (opened : q.Opens chain outer s condition chain' body)
    (h : q.fragments.Fills (s :: rest)) : body ≠ [] ∧ q.fragments.Fills body := by
  cases opened with
  | inline own body => exact h.inline
  | spread new found => exact h.spread found

theorem expand_ne_nil (fills : q.fragments.Fills selections) (full : level ≠ [] ∨ selections ≠ [])
    (ok : (q.expand place chain level selections).outcome = .ok nodes) : nodes ≠ [] := by
  induction place, chain, selections using expand_induction q generalizing level nodes with
  | nil place chain =>
    cases (q.outcome_expand_nil place chain level).symm.trans ok
    simpa using full
  | field place chain head body rest _ hrest =>
    rw [outcome_expand_field, bind_eq_ok] at ok
    obtain ⟨n, -, ok⟩ := ok
    obtain ⟨next, added, ok⟩ := bind_eq_ok.mp ok
    refine hrest fills.after (Or.inl ?_) ok
    rw [add_eq_ok added]
    exact blend_ne_nil level
  | opens place chain s condition chain' body rest opened hbody hrest =>
    rw [outcome_expand_opens q opened, bind_eq_ok] at ok
    obtain ⟨inner, expanded, ok⟩ := ok
    obtain ⟨next, added, ok⟩ := bind_eq_ok.mp ok
    obtain ⟨some, inside⟩ := opened.fills fills
    refine hrest fills.after (Or.inl fun empty => ?_) ok
    rw [addAll_eq_ok added] at empty
    exact hbody inside (Or.inr some) expanded (blendAll_eq_nil empty).2
  | cyclic place chain name rest old _ =>
    rw [outcome_expand_spread_of_mem q place chain level rest old] at ok
    cases ok
  | undefined place chain name rest new missing _ =>
    rw [outcome_expand_spread_of_none q place chain level rest new missing] at ok
    cases ok

theorem proper_expand (fills : q.fragments.Fills selections) (full : selections ≠ []) {i : Spot}
    (parent : i.1.2 = place.parent)
    (ok : (q.expand place chain [] selections).outcome = .ok nodes) : Node.Proper i nodes :=
  ⟨expand_ne_nil fills (Or.inr full) ok, parent ▸ nodup_keys_expand ok⟩

/-- Lists that are merged are proper: names that are different make keys that are. -/
theorem settles_proper {r : Registry} {agree : SameNames visits}
    {said : Place → Attributes → Prop} (names : ∀ v ∈ visits, Undotted v.here.responseName) :
    (placed r agree said).Settles Node.Proper := by
  intro i first merged proper all once full
  exact ⟨fun empty => proper.full (full empty), Node.nodup_keys (fun n hn =>
    Met.undotted names (Tracking.holds_of_tracked (all n hn)).1) once _⟩

theorem freshAt_proper {root : Composite} {operation : Operation}
    (fills : q.fragments.Fills operation.selections) {v : Visit}
    (h : v ∈ (q.tour root operation).visits) : Tracking.FreshAt Node.Proper q spot visits v := by
  obtain ⟨chain, rest, here⟩ := holds_of_mem_walk
    (C := fun _ _ _ selections => q.fragments.Fills selections)
    (fun fills _ _ => fills.field) (fun fills opened => (opened.fills fills).2)
    (fun fills => fills.after) fills h
  have inside : q.fragments.Fills v.here.body := Fragments.Fills.field here
  exact fun type chain nodes full nested _ expanded => proper_expand inside full rfl expanded

/-- The tree of a converted operation is converted into itself: the operation that is read off it
needs neither fragments nor variables, and its conversion, with the same schema and options, gives
the tree back. -/
theorem convert_rebuilt {s : Schema} {root : Composite} {operation : Operation} {tree : Tree}
    (schema : q.registry = s.registry) (rooted : q.registry.root? operation.kind = some root)
    (values : Enumless q.bindings)
    (names : ∀ v ∈ (q.tour root operation).visits, Undotted v.here.responseName)
    (full : q.fragments.Fills operation.selections)
    (agree : ∀ v ∈ (q.tour root operation).visits, ∀ w ∈ (q.tour root operation).visits,
      v.slots = w.slots → v.here.head.name = w.here.head.name)
    (ok : (q.convert operation).outcome = .ok tree) (fragments : Fragments)
    (bindings : Option Bindings) :
    (Request.convert { q with fragments, bindings } tree.operation).outcome = .ok tree := by
  let again : Request := { q with fragments, bindings }
  have arranged : (placed q.registry agree fun place a =>
      again.attributes place a.head = a).Arranges Node.Proper (spot [] root) tree.roots :=
    arranges_convert schema rooted names agree (attributes_head values rfl rfl)
      (settles_proper names) (fun v hv => freshAt_proper full hv) ok
  rw [q.outcome_convert rooted, bind_eq_ok] at ok
  obtain ⟨nodes, expanded, ok⟩ := ok
  cases ok
  have rebuilt : (again.expand ⟨root, "", none⟩ [] [] (Node.selections nodes)).outcome
      = .ok ([] ++ nodes) :=
    expand_rebuilt (i := spot [] root) rfl nodes arranged [] (nodup_keys_expand expanded)
  have rooted' : again.registry.root? (Tree.operation ⟨operation.kind, nodes⟩).kind = some root :=
    rooted
  rw [again.outcome_convert rooted']
  exact congrArg (· >>= _) rebuilt

end Request

def Films.asking : Request :=
  { request with
    bindings := some [("length", .str "short")]
    options := { paths := true, returnTypes := true } }

def Films.requesting : Operation where
  kind := .query
  selections :=
    [.field { name := "hero", aliasName := some "first" }
       [.field { name := "name", arguments := [("form", .var "length"), ("form", .enum "FULL")] }
          [],
        .inline (some "Droid") [select "friends" [select "id" []]]],
     .field { name := "hero", aliasName := some "first" }
       [.field { name := "friends", directives := [⟨"include", [("if", .var "length")]⟩] }
          [.spread "Names"], .inline (some "Droid") [select "friends" [select "name" []]]]]

open Films in
theorem convert_rebuilt_hero : ∃ tree, (asking.convert requesting).outcome = .ok tree ∧
    (Request.convert { asking with fragments := [], bindings := none } tree.operation).outcome
      = .ok tree := by
  have rooted : asking.registry.root? requesting.kind = some root := by cbv
  have names : ∀ v ∈ (asking.tour root requesting).visits, Undotted v.here.responseName := by
    have checked : ((asking.tour root requesting).visits.all fun v =>
        decide (Undotted v.here.responseName)) = true := by cbv
    simpa using checked
  have agree : SameNames (asking.tour root requesting).visits := by
    have checked : ((asking.tour root requesting).visits.all fun v =>
        (asking.tour root requesting).visits.all fun w =>
          decide (v.slots = w.slots → v.here.head.name = w.here.head.name)) = true := by cbv
    simpa only [SameNames, List.all_eq_true, decide_eq_true_eq] using checked
  have values : Enumless asking.bindings := by
    intro d bound
    cases bound
    cbv
  have full : asking.fragments.Fills requesting.selections := by
    refine ⟨by cbv, fun name fragment _ found => ?_⟩
    have entries : fragment = Films.names ∨ fragment = circle := by
      simp only [asking, request, Dict.find?] at found
      split at found
      · exact Or.inl (Option.some.inj found).symm
      · split at found
        · exact Or.inr (Option.some.inj found).symm
        · cases found
    rcases entries with rfl | rfl
    · exact ⟨by simp [Films.names], by cbv⟩
    · exact ⟨by simp [circle], by cbv⟩
  have converted : ∃ tree, (asking.convert requesting).outcome = .ok tree := ⟨_, by cbv⟩
  obtain ⟨tree, ok⟩ := converted
  exact ⟨tree, ok, Request.convert_rebuilt rfl rooted values names full agree ok [] none⟩

end SelectionTree
