import SelectionTree.Proofs.Contents
import SelectionTree.Proofs.JsonText
import SelectionTree.Proofs.Rebuilding
/-!
Trees that are read back from their JSON. Enum values and bytes have no form of their own in JSON;
everything else of a node, absent or empty, is told apart by what is written.
-/
set_option autoImplicit false

namespace SelectionTree

open Json

namespace Value

/-- A value with a form of its own in JSON: no enum value, no bytes, and an object holds each of its
keys once. -/
def Plain : Value → Prop
  | .enum _ => False
  | .bin _ => False
  | .obj fields => (Dict.keys fields).Nodup
  | .null => True
  | .bool _ => True
  | .num _ => True
  | .str _ => True
  | .list _ => True

instance : DecidablePred Plain
  | .enum _ => .isFalse id
  | .bin _ => .isFalse id
  | .obj fields => inferInstanceAs (Decidable (Dict.keys fields).Nodup)
  | .null => .isTrue trivial
  | .bool _ => .isTrue trivial
  | .num _ => .isTrue trivial
  | .str _ => .isTrue trivial
  | .list _ => .isTrue trivial

theorem plain_obj {fields : List (String × Value)} :
    (obj fields).Plain ↔ (Dict.keys fields).Nodup := Iff.rfl

theorem fields_toJson {fields : List (String × Value)}
    (each : ∀ e ∈ fields, ofJson e.2.toJson = e.2) :
    fieldsOfJson (fieldsToJson fields) = fields := by
  rw [fieldsOfJson_eq, fieldsToJson_eq, List.map_map]
  conv_rhs => rw [← List.map_id fields]
  exact List.map_congr_left fun e he => Prod.ext rfl (each e he)

theorem ofJson_toJson (v : Value) (plain : v.All Plain) : ofJson v.toJson = v := by
  induction v using Value.induction with
  | null => rfl
  | bool b => rfl
  | num n => rfl
  | str s => rfl
  | enum name => exact plain.here.elim
  | bin bytes => exact plain.here.elim
  | list items ih =>
    have each : ∀ v ∈ items, ofJson v.toJson = v := fun v hv => ih v hv ((all_list.mp plain).2 v hv)
    rw [toJson, ofJson, itemsOfJson_eq, itemsToJson_eq, List.map_map]
    exact congrArg list ((List.map_congr_left each).trans (List.map_id items))
  | obj fields ih =>
    have once : (Dict.keys fields).Nodup := plain.here
    have each : ∀ e ∈ fields, ofJson e.2.toJson = e.2 := fun e he =>
      ih e he ((all_obj.mp plain).2 e he)
    rw [toJson, ofJson, fields_toJson each, Dict.ofList_of_nodup once]

end Value

theorem Arguments.ofJson?_toJson {args : Arguments} (plain : (Value.obj args).All Value.Plain) :
    Arguments.ofJson? args.toJson = some args := by
  have once : (Dict.keys args).Nodup := plain.here
  have each : ∀ e ∈ args, Value.ofJson e.2.toJson = e.2 := fun e he =>
    Value.ofJson_toJson e.2 ((Value.all_obj.mp plain).2 e he)
  rw [Arguments.toJson, Arguments.ofJson?, Value.fields_toJson each, Dict.ofList_of_nodup once]

theorem Directives.ofJson?_toJson {ds : Directives} (plain : ds.value.All Value.Plain) :
    Directives.ofJson? ds.toJson = some ds := by
  obtain ⟨once, each⟩ := Value.all_obj.mp plain
  rw [Value.plain_obj, Dict.keys_mapValues] at once
  have entries : (ds.map fun e => (e.1, Arguments.toJson e.2)).mapM
      (fun m => (Arguments.ofJson? m.2).map fun args => (m.1, args)) = some ds := by
    clear once plain
    induction ds with
    | nil => rfl
    | cons d rest ih =>
      have here := Arguments.ofJson?_toJson (each _ List.mem_cons_self)
      have behind := ih fun e he => each e (List.mem_cons_of_mem _ he)
      simp [here, behind]
  simp only [Directives.toJson, Directives.ofJson?, entries]
  rw [Option.bind_eq_bind, Option.bind_some, Dict.ofList_of_nodup once]

namespace Node

theorem ofMembers_append (xs ys : List (String × Outline)) (d : Draft) :
    ofMembers (xs ++ ys) d = (ofMembers xs d).bind (ofMembers ys) := by
  induction xs generalizing d with
  | nil => rfl
  | cons m rest ih =>
    rw [List.cons_append, ofMembers, ofMembers, Option.bind_assoc]
    exact Option.bind_congr fun d' _ => ih d'

def Draft.take (d : Draft) (m : String × Outline) : Option Draft :=
  if m.1 = "fields" then d.setChildren (childrenOf? m.2) else d.set m.1 m.2

theorem ofMembers_optional {α : Type} (k : String) (write : α → Json)
    (put : Option (Option α) → Draft) (x : Option α)
    (take : ∀ y ∈ x, (put none).take (k, (write y).outline) = some (put (some (some y)))) :
    ofMembers (memberOutlines (optionalMember k (x.map write))) (put none)
      = some (put (x.map some)) := by
  cases x with
  | none => rfl
  | some y =>
    have taken := take y rfl
    simp only [Draft.take] at taken
    simp [optionalMember, memberOutlines, ofMembers, taken]

theorem memberOutlines_append (xs ys : List (String × Json)) :
    memberOutlines (xs ++ ys) = memberOutlines xs ++ memberOutlines ys := by
  simp only [memberOutlines_eq, List.map_append]

/-- The members of a node are read back one after the other, each into its own place. -/
theorem ofMembers_members {a : Attributes} (below : Option (List Node))
    (children : ∀ ns ∈ below, childrenOf? (Json.arr (listToJson ns)).outline = some (some ns))
    (args : ∀ x ∈ a.arguments, arguments? x.toJson.outline = some x)
    (dirs : ∀ x ∈ a.directives, directives? x.toJson.outline = some x) :
    ofMembers (memberOutlines (a.members (below.map fun ns => .arr (listToJson ns)))) {} = some
      { name := some a.name
        aliasName := a.aliasName.map some
        condition := a.condition.map some
        path := a.path.map some
        returnType := a.returnType.map some
        children := below.map some
        arguments := a.arguments.map some
        directives := a.directives.map some } := by
  -- The drafts on the way: each member finds its own place empty and those before it filled.
  let named : Draft := { name := some a.name }
  let labelled (x : Option (Option String)) : Draft := { named with aliasName := x }
  let conditioned (x : Option (Option String)) : Draft :=
    { labelled (a.aliasName.map some) with condition := x }
  let located (x : Option (Option String)) : Draft :=
    { conditioned (a.condition.map some) with path := x }
  let typed (x : Option (Option String)) : Draft :=
    { located (a.path.map some) with returnType := x }
  let filled (x : Option (Option (List Node))) : Draft :=
    { typed (a.returnType.map some) with children := x }
  let given (x : Option (Option Arguments)) : Draft :=
    { filled (below.map some) with arguments := x }
  let directed (x : Option (Option Directives)) : Draft :=
    { given (a.arguments.map some) with directives := x }
  have name : ofMembers (memberOutlines [("name", .str a.name)]) {} = some named := rfl
  have aliasName := ofMembers_optional "alias" .str labelled a.aliasName fun _ _ => rfl
  have condition := ofMembers_optional "fragmentType" .str conditioned a.condition fun _ _ => rfl
  have path := ofMembers_optional "path" .str located a.path fun _ _ => rfl
  have returnType := ofMembers_optional "returnType" .str typed a.returnType fun _ _ => rfl
  have fields := ofMembers_optional "fields" (fun ns => .arr (listToJson ns)) filled below
    fun ns h => congrArg (filled none).setChildren (children ns h)
  have arguments := ofMembers_optional "arguments" Arguments.toJson given a.arguments fun x h =>
    congrArg (fun y : Option Arguments => (fill none (y.map some)).map given) (args x h)
  have directives := ofMembers_optional "directives" Directives.toJson directed a.directives
    fun x h =>
      congrArg (fun y : Option Directives => (fill none (y.map some)).map directed) (dirs x h)
  rw [Attributes.members]
  simp only [memberOutlines_append, ofMembers_append, name, Option.bind_some]
  rw [aliasName, Option.bind_some, condition, Option.bind_some, path, Option.bind_some, returnType,
    Option.bind_some, fields, Option.bind_some, arguments, Option.bind_some, directives]

theorem toJson_eq (n : Node) :
    n.toJson = .obj (n.attributes.members (n.children?.map fun ns => .arr (listToJson ns))) := by
  cases n <;> rfl

theorem arguments?_outline {args : Arguments} (plain : (Value.obj args).All Value.Plain) :
    arguments? args.toJson.outline = some args := by
  rw [arguments?, value?_outline, Option.bind_some, Arguments.ofJson?_toJson plain]

theorem directives?_outline {ds : Directives} (plain : ds.value.All Value.Plain) :
    directives? ds.toJson.outline = some ds := by
  rw [directives?, value?_outline, Option.bind_some, Directives.ofJson?_toJson plain]

theorem ofOutline?_of_children {n : Node} (plain : ∀ v ∈ n.attributes.values, v.Plain)
    (children : ∀ ns ∈ n.children?, listOf? (itemOutlines (listToJson ns)) = some ns) :
    ofOutline? n.toJson.outline = some n := by
  obtain ⟨args, dirs⟩ := Attributes.forall_mem_values.mp plain
  have members := ofMembers_members (a := n.attributes) n.children?
    (fun ns h => congrArg (Option.map some) (children ns h))
    (fun x h => arguments?_outline (args x h)) (fun x h => directives?_outline (dirs x h))
  rw [toJson_eq]
  have join {α : Type} (x : Option α) : (x.map some).join = x := by cases x <;> rfl
  simp only [Json.outline, ofOutline?, members, Option.bind_some, Draft.node?, Option.map_some,
    join]
  cases n <;> rfl

mutual

theorem ofOutline?_toJson (n : Node) (plain : ∀ m ∈ n.nodes, ∀ v ∈ m.attributes.values, v.Plain) :
    ofOutline? n.toJson.outline = some n := by
  refine ofOutline?_of_children (plain n n.self_mem_nodes) fun ns h => ?_
  cases n with
  | leaf a => cases h
  | branch a below =>
    cases h
    exact listOf?_toJson ns fun m hm => plain m (List.mem_cons_of_mem _ hm)

theorem listOf?_toJson (ns : List Node)
    (plain : ∀ m ∈ nodesAll ns, ∀ v ∈ m.attributes.values, v.Plain) :
    listOf? (itemOutlines (listToJson ns)) = some ns := by
  cases ns with
  | nil => rfl
  | cons n rest =>
    have here := ofOutline?_toJson n fun m hm => plain m (List.mem_append_left _ hm)
    have behind := listOf?_toJson rest fun m hm => plain m (List.mem_append_right _ hm)
    simp [listToJson, itemOutlines, listOf?, here, behind]

end

theorem ofText?_text {n : Node} (plain : ∀ m ∈ n.nodes, ∀ v ∈ m.attributes.values, v.Plain)
    (readable : ∀ x ∈ n.toJson.numbers, x.Readable) (shallow : n.toJson.depth ≤ maxNesting) :
    ofText? n.toJson.text = some n := by
  rw [ofText?, outline_text readable, Option.bind_some, cut_outline _ shallow,
    ofOutline?_toJson n plain]

end Node

namespace Tree

theorem ofOutline?_toJson {t : Tree} (plain : ∀ m ∈ t.nodes, ∀ v ∈ m.attributes.values, v.Plain) :
    ofOutline? t.toJson.outline = some t := by
  have kind : OperationKind.ofWord? t.kind.word = some t.kind := by cases t.kind <;> rfl
  have roots := Node.listOf?_toJson t.roots plain
  simp [toJson, Json.outline, memberOutlines, ofOutline?, once?, ofParts?, kindOf?, kind, roots]

theorem ofText?_text {t : Tree} (plain : ∀ m ∈ t.nodes, ∀ v ∈ m.attributes.values, v.Plain)
    (readable : ∀ x ∈ t.toJson.numbers, x.Readable) (shallow : t.toJson.depth ≤ maxNesting) :
    ofText? t.toJson.text = some t := by
  rw [ofText?, outline_text readable, Option.bind_some, cut_outline _ shallow,
    ofOutline?_toJson plain]

end Tree

def PlainBindings (bindings : Option Bindings) : Prop :=
  ∀ d, bindings = some d → ∀ e ∈ d, e.2.All Value.Plain

namespace Literal

mutual

def plain : Literal → Bool
  | .bin _ => false
  | .list items => plainItems items
  | .obj fields => decide (Dict.keys fields).Nodup && plainFields fields
  | .var _ => true
  | .null => true
  | .bool _ => true
  | .num _ => true
  | .str _ => true
  | .enum _ => true

def plainItems : List Literal → Bool
  | [] => true
  | l :: rest => l.plain && plainItems rest

def plainFields : List (String × Literal) → Bool
  | [] => true
  | (_, l) :: rest => l.plain && plainFields rest

end

variable {bindings : Option Bindings}

theorem all_bound (h : PlainBindings bindings) (name : String) :
    ((bound? bindings name).getD .null).All Value.Plain := by
  cases found : bound? bindings name with
  | none => simp [Value.All, Value.parts, Value.Plain]
  | some v =>
    obtain ⟨d, rfl, found⟩ := Option.bind_eq_some_iff.mp found
    exact h d rfl _ (Dict.mem_of_find? found)

mutual

theorem all_eval (h : PlainBindings bindings) : (l : Literal) → l.plain = true →
    (l.eval bindings).All Value.Plain
  | .var name, _ => by
    -- A bound value is put in as it is.
    rw [eval]
    exact all_bound h name
  | .list items, plain => by
    rw [eval, Value.all_list]
    exact ⟨trivial, all_evalItems h items plain⟩
  | .obj fields, plain => by
    rw [Literal.plain, Bool.and_eq_true, decide_eq_true_eq] at plain
    rw [eval, Value.all_obj]
    refine ⟨?_, all_evalFields h fields plain.2⟩
    rw [evalFields_eq, Value.plain_obj, Dict.keys_mapValues]
    exact plain.1
  | .null, _ => by simp [eval, Value.All, Value.parts, Value.Plain]
  | .bool _, _ => by simp [eval, Value.All, Value.parts, Value.Plain]
  | .num _, _ => by simp [eval, Value.All, Value.parts, Value.Plain]
  | .str _, _ => by simp [eval, Value.All, Value.parts, Value.Plain]
  | .enum _, _ => by simp [eval, Value.All, Value.parts, Value.Plain]

theorem all_evalItems (h : PlainBindings bindings) : (items : List Literal) →
    plainItems items = true → ∀ v ∈ evalItems bindings items, v.All Value.Plain
  | [], _ => by simp [evalItems]
  | l :: rest, plain => by
    rw [plainItems, Bool.and_eq_true] at plain
    rw [evalItems, List.forall_mem_cons]
    exact ⟨all_eval h l plain.1, all_evalItems h rest plain.2⟩

theorem all_evalFields (h : PlainBindings bindings) : (fields : List (String × Literal)) →
    plainFields fields = true → ∀ e ∈ evalFields bindings fields, e.2.All Value.Plain
  | [], _ => by simp [evalFields]
  | (k, l) :: rest, plain => by
    rw [plainFields, Bool.and_eq_true] at plain
    rw [evalFields, List.forall_mem_cons]
    exact ⟨all_eval h l plain.1, all_evalFields h rest plain.2⟩

end

end Literal

def FieldHead.plain (head : FieldHead) : Bool :=
  Literal.plainFields head.arguments && head.directives.all fun d => Literal.plainFields d.arguments

theorem Arguments.all_ofLiterals {bindings : Option Bindings} (h : PlainBindings bindings)
    {args : List (String × Literal)} (plain : Literal.plainFields args = true) :
    (Value.obj (ofLiterals bindings args)).All Value.Plain :=
  Value.all_obj.mpr ⟨Dict.nodup_keys_ofList _,
    Dict.forall_mem_ofList (P := fun v : Value => v.All Value.Plain)
      (Literal.all_evalFields h args plain)⟩

theorem Directives.all_ofLiterals {bindings : Option Bindings} (h : PlainBindings bindings)
    {ds : List Directive} (plain : ∀ d ∈ ds, Literal.plainFields d.arguments = true) :
    (Directives.value (ofLiterals bindings ds)).All Value.Plain := by
  refine Value.all_obj.mpr ⟨?_, ?_⟩
  · rw [Value.plain_obj, Dict.keys_mapValues]
    exact Dict.nodup_keys_ofList _
  · have each : ∀ e ∈ ofLiterals bindings ds, (Value.obj e.2).All Value.Plain := by
      refine Dict.forall_mem_ofList (P := fun args => (Value.obj args).All Value.Plain) ?_
      intro e he
      obtain ⟨d, hd, rfl⟩ := List.mem_map.mp he
      exact Arguments.all_ofLiterals h (plain d hd)
    intro e he
    obtain ⟨d, hd, rfl⟩ := List.mem_map.mp he
    exact each d hd

namespace Request

variable {q : Request}

theorem eq_of_unlessEmpty {α : Type} {d d' : Dict α} (h : unlessEmpty d = some d') : d = d' := by
  cases d with
  | nil => cases h
  | cons e rest => exact Option.some.inj h

theorem plain_attributes (values : PlainBindings q.bindings) {place : Place} {head : FieldHead}
    (plain : head.plain = true) : ∀ v ∈ (q.attributes place head).values, v.Plain := by
  rw [FieldHead.plain, Bool.and_eq_true, List.all_eq_true] at plain
  refine Attributes.forall_mem_values.mpr ⟨fun args h => ?_, fun ds h => ?_⟩
  · exact eq_of_unlessEmpty h ▸ Arguments.all_ofLiterals values plain.1
  · exact eq_of_unlessEmpty h ▸ Directives.all_ofLiterals values plain.2

theorem plain_convert {operation : Operation} {tree : Tree} (values : PlainBindings q.bindings)
    (plain : ∀ root, q.registry.root? operation.kind = some root →
      ∀ v ∈ (q.tour root operation).visits, v.here.head.plain = true)
    (ok : (q.convert operation).outcome = .ok tree) :
    ∀ n ∈ tree.nodes, ∀ v ∈ n.attributes.values, v.Plain := by
  obtain ⟨root, _, rooted, -⟩ := convert_eq_ok ok
  intro n hn
  obtain ⟨v, hv, e⟩ := attributes_of_mem_nodes rooted ok hn
  rw [e]
  exact plain_attributes values (plain root rooted v hv)

theorem outcome_convertToJson {operation : Operation} {tree : Tree}
    (ok : (q.convert operation).outcome = .ok tree) :
    (q.convertToJson operation).outcome = .ok tree.toJson.text := by
  simp only [convertToJson, Run.outcome_within, Run.outcome_bind, Run.outcome_pure, ok, ok_bind]

end Request

/-- Nodes and trees without enum values and bytes are read back from their JSON text as they are. So
is every converted tree, if there are no bytes in the literals and neither bytes nor enum values in
the bound values. -/
theorem json_read_back :
    (∀ n : Node, (∀ m ∈ n.nodes, ∀ v ∈ m.attributes.values, v.Plain) →
      (∀ x ∈ n.toJson.numbers, x.Readable) → n.toJson.depth ≤ maxNesting →
      Node.ofText? n.toJson.text = some n) ∧
    (∀ t : Tree, (∀ m ∈ t.nodes, ∀ v ∈ m.attributes.values, v.Plain) →
      (∀ x ∈ t.toJson.numbers, x.Readable) → t.toJson.depth ≤ maxNesting →
      Tree.ofText? t.toJson.text = some t) ∧
    ∀ (q : Request) (operation : Operation) (tree : Tree), PlainBindings q.bindings →
      (∀ root, q.registry.root? operation.kind = some root →
        ∀ v ∈ (q.tour root operation).visits, v.here.head.plain = true) →
      (q.convert operation).outcome = .ok tree →
      (∀ x ∈ tree.toJson.numbers, x.Readable) → tree.toJson.depth ≤ maxNesting →
      ∃ text, (q.convertToJson operation).outcome = .ok text ∧ Tree.ofText? text = some tree := by
  refine ⟨fun _ => Node.ofText?_text, fun _ => Tree.ofText?_text, ?_⟩
  intro q operation tree values plain ok readable shallow
  have nodes := Request.plain_convert values plain ok
  exact ⟨_, Request.outcome_convertToJson ok, Tree.ofText?_text nodes readable shallow⟩

def Films.described : Node :=
  .branch
    { name := "hero"
      aliasName := some ""
      path := some "a \"hero\"\n\x01"
      arguments := some [("near", .list [.num (.int 7), .num (.int (-2)), .list []]),
        ("by", .obj [("size", .null), ("age", .bool true), ("name", .str "\\")])]
      directives := some [("skip", [("if", .bool false)]), ("plain", [])] }
    [.leaf { name := "name", arguments := some [] }, .branch { name := "friends" } []]

open Films in
theorem json_read_back_hero :
    Node.ofText? described.toJson.text = some described ∧
      Tree.ofText? (Tree.toJson ⟨.query, [described]⟩).text = some ⟨.query, [described]⟩ ∧
      ∃ tree text, (asking.convert requesting).outcome = .ok tree ∧
        (asking.convertToJson requesting).outcome = .ok text ∧ Tree.ofText? text = some tree := by
  obtain ⟨nodes, trees, conversions⟩ := json_read_back
  have values : PlainBindings asking.bindings := by
    intro d bound
    cases bound
    decide
  have heads : ∀ r, asking.registry.root? requesting.kind = some r →
      ∀ v ∈ (asking.tour r requesting).visits, v.here.head.plain = true := by
    have rooted : asking.registry.root? requesting.kind = some root := by cbv
    have checked : ((asking.tour root requesting).visits.all (·.here.head.plain)) = true := by cbv
    intro r found
    cases rooted.symm.trans found
    simpa only [List.all_eq_true] using checked
  have converted : ∃ tree, (asking.convert requesting).outcome = .ok tree ∧
      tree.toJson.numbers = [] ∧ tree.toJson.depth = 7 := ⟨_, by cbv, by cbv, by cbv⟩
  obtain ⟨tree, ok, numbers, depth⟩ := converted
  obtain ⟨text, written, read⟩ := conversions asking requesting tree values heads ok
    (by simp [numbers]) (by simp [depth, maxNesting])
  refine ⟨nodes described (by decide) (by decide) (by decide),
    trees ⟨.query, [described]⟩ (by decide) (by decide) (by decide),
    tree, text, ok, written, read⟩

end SelectionTree
