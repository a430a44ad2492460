import Mathlib.Data.String.Basic
import SelectionTree.Loading
import SelectionTree.Proofs.Substitution
import SelectionTree.Proofs.TreeJson
/-!
What becomes of the values of variables. JSON binds its members without a loss, and a bound variable
stands in the JSON of a tree, wherever it was written in a field, as the JSON that was bound to it.
-/
set_option autoImplicit false

namespace SelectionTree

namespace Dict

variable {α β : Type}

/-- A dictionary has the last one of the entries with a key. -/
theorem find?_ofList (key : String) (entries : List (String × α)) :
    find? key (ofList entries) = find? key entries.reverse := by
  induction entries using List.reverseRecOn with
  | nil => rfl
  | append_singleton entries e ih =>
    have last : ofList (entries ++ [e]) = insert e.1 e.2 (ofList entries) := by
      simp only [ofList, List.foldl_append, List.foldl_cons, List.foldl_nil]
    rw [last, find?_insert, ih, List.reverse_append]
    rfl

theorem find?_reverse_ofList (key : String) (entries : List (String × α)) :
    find? key (ofList entries).reverse = find? key entries.reverse := by
  rw [← find?_ofList, ofList_of_nodup (nodup_keys_ofList entries), find?_ofList]

theorem find?_reverse_mapValues (f : α → β) (d : Dict α) (key : String) :
    find? key (mapValues f d).reverse = (find? key d.reverse).map f := by
  rw [mapValues, ← List.map_reverse]
  exact find?_mapValues f d.reverse key

end Dict

namespace Json

mutual

/-- Whether every object, at any depth, holds each of its names once. -/
def distinct : Json → Bool
  | .arr items => distinctItems items
  | .obj members => decide (Dict.keys members).Nodup && distinctMembers members
  | .null => true
  | .bool _ => true
  | .num _ => true
  | .str _ => true

def distinctItems : List Json → Bool
  | [] => true
  | j :: rest => j.distinct && distinctItems rest

def distinctMembers : List (String × Json) → Bool
  | [] => true
  | (_, j) :: rest => j.distinct && distinctMembers rest

end

theorem distinct_arr {items : List Json} :
    (arr items).distinct = true ↔ ∀ j ∈ items, j.distinct = true := by
  rw [distinct]
  induction items with
  | nil => simp [distinctItems]
  | cons j rest ih => simp [distinctItems, ih]

theorem distinct_obj {members : List (String × Json)} :
    (obj members).distinct = true ↔
      (Dict.keys members).Nodup ∧ ∀ m ∈ members, m.2.distinct = true := by
  have below : distinctMembers members = true ↔ ∀ m ∈ members, m.2.distinct = true := by
    induction members with
    | nil => simp [distinctMembers]
    | cons m rest ih => simp [distinctMembers, ih]
  rw [distinct, Bool.and_eq_true, decide_eq_true_eq, below]

theorem distinct_of_member {j value : Json} {name : String} (once : j.distinct = true)
    (found : j.member? name = some value) : value.distinct = true := by
  cases j with
  | obj members =>
    have held : (name, value) ∈ members := List.mem_reverse.mp (Dict.mem_of_find? found)
    exact (distinct_obj.mp once).2 _ held
  | _ => cases found

theorem mem_insertSorted {name : String} {j : Json} {done : List (String × Json)}
    {m : String × Json} (h : m ∈ insertSorted name j done) : m = (name, j) ∨ m ∈ done := by
  induction done with
  | nil => exact Or.inl (List.mem_singleton.mp h)
  | cons e rest ih =>
    obtain ⟨k, v⟩ := e
    rw [insertSorted] at h
    split at h
    · exact (List.mem_cons.mp h).imp_right (List.mem_cons_of_mem _)
    split at h
    · exact List.mem_cons.mp h
    · rcases List.mem_cons.mp h with here | behind
      · exact Or.inr (here ▸ List.mem_cons_self)
      · exact (ih behind).imp_right (List.mem_cons_of_mem _)

def Ascending (members : List (String × Json)) : Prop := members.Pairwise fun m m' => m.1 < m'.1

theorem ascending_insertSorted {name : String} (j : Json) {done : List (String × Json)}
    (h : Ascending done) : Ascending (insertSorted name j done) := by
  induction done with
  | nil => exact List.pairwise_singleton _ _
  | cons e rest ih =>
    obtain ⟨k, v⟩ := e
    obtain ⟨first, behind⟩ := List.pairwise_cons.mp h
    rw [insertSorted]
    split
    · next same =>
      subst same
      exact List.pairwise_cons.mpr ⟨first, behind⟩
    split
    · next less =>
      refine List.pairwise_cons.mpr ⟨fun m hm => ?_, h⟩
      rcases List.mem_cons.mp hm with rfl | hm
      · exact less
      · exact less.trans (first m hm)
    · next other notLess =>
      refine List.pairwise_cons.mpr ⟨fun m hm => ?_, ih behind⟩
      rcases mem_insertSorted hm with rfl | hm
      · exact lt_of_le_of_ne (not_lt.mp notLess) (Ne.symm other)
      · exact first m hm

theorem distinct_sortedMembers {members done : List (String × Json)}
    (each : ∀ m ∈ members, m.2.sorted.distinct = true) (ascending : Ascending done)
    (distinct : ∀ m ∈ done, m.2.distinct = true) :
    (obj (sortedMembers members done)).distinct = true := by
  induction members generalizing done with
  | nil =>
    refine distinct_obj.mpr ⟨?_, distinct⟩
    exact List.pairwise_map.mpr (ascending.imp fun less => less.ne)
  | cons m rest ih =>
    obtain ⟨k, j⟩ := m
    obtain ⟨here, behind⟩ := List.forall_mem_cons.mp each
    refine ih behind (ascending_insertSorted _ ascending) fun m' hm => ?_
    rcases mem_insertSorted hm with rfl | hm
    · exact here
    · exact distinct m' hm

theorem distinct_sorted (j : Json) : j.sorted.distinct = true := by
  induction j using Json.induction with
  | null => rfl
  | bool b => rfl
  | num n => rfl
  | str s => rfl
  | arr items ih =>
    have each : sortedItems items = items.map sorted := by
      clear ih
      induction items with
      | nil => rfl
      | cons j rest ih => rw [sortedItems, ih, List.map_cons]
    rw [sorted, distinct_arr, each]
    exact List.forall_mem_map.mpr ih
  | obj members ih =>
    exact distinct_sortedMembers ih List.Pairwise.nil fun _ h => absurd h List.not_mem_nil

end Json

theorem Value.keys_fieldsOfJson (members : List (String × Json)) :
    Dict.keys (fieldsOfJson members) = Dict.keys members := by
  rw [fieldsOfJson_eq]
  exact Dict.keys_mapValues ofJson members

theorem Value.toJson_ofJson (j : Json) (once : j.distinct = true) : (ofJson j).toJson = j := by
  induction j using Json.induction with
  | null => rfl
  | bool b => rfl
  | num n => rfl
  | str s => rfl
  | arr items ih =>
    have each : ∀ j ∈ items, (ofJson j).toJson = j := fun j hj =>
      ih j hj (Json.distinct_arr.mp once j hj)
    rw [ofJson, toJson, itemsToJson_eq, itemsOfJson_eq, List.map_map]
    exact congrArg Json.arr ((List.map_congr_left each).trans (List.map_id items))
  | obj members ih =>
    obtain ⟨names, below⟩ := Json.distinct_obj.mp once
    have each : ∀ m ∈ members, (m.1, (ofJson m.2).toJson) = m := fun m hm =>
      Prod.ext rfl (ih m hm (below m hm))
    have keys : (Dict.keys (fieldsOfJson members)).Nodup := by rwa [keys_fieldsOfJson]
    rw [ofJson, toJson, Dict.ofList_of_nodup keys, fieldsToJson_eq, fieldsOfJson_eq, List.map_map]
    exact congrArg Json.obj ((List.map_congr_left each).trans (List.map_id members))

namespace Bindings

theorem keys_ofJson {members : List (String × Json)} (once : (Json.obj members).distinct = true) :
    Dict.keys (Bindings.ofJson (.obj members)) = Dict.keys members := by
  have keys : (Dict.keys (Value.fieldsOfJson members)).Nodup := by
    rw [Value.keys_fieldsOfJson]
    exact (Json.distinct_obj.mp once).1
  rw [ofJson, Dict.ofList_of_nodup keys, Value.keys_fieldsOfJson]

theorem find?_ofJson (j : Json) (name : String) :
    Dict.find? name (Bindings.ofJson j) = (j.member? name).map Value.ofJson := by
  cases j with
  | obj members =>
    rw [ofJson, Dict.find?_ofList, Value.fieldsOfJson_eq]
    exact Dict.find?_reverse_mapValues Value.ofJson members name
  | _ => rfl

end Bindings

theorem Literal.toJson_eval_var {j value : Json} {name : String} (once : j.distinct = true)
    (bound : j.member? name = some value) :
    ((var name).eval (some (Bindings.ofJson j))).toJson = value := by
  have found : bound? (some (Bindings.ofJson j)) name = some (Value.ofJson value) := by
    rw [bound?, Option.bind_some, Bindings.find?_ofJson, bound, Option.map_some]
  rw [eval, found, Option.getD_some]
  exact Value.toJson_ofJson value (Json.distinct_of_member once bound)

inductive Step where
  | item (index : Nat)
  | member (name : String)

def Json.step? : Step → Json → Option Json
  | .item i, .arr items => items[i]?
  | .item _, _ => none
  | .member name, j => j.member? name

def Json.at? : List Step → Json → Option Json
  | [], j => some j
  | s :: rest, j => (j.step? s).bind (at? rest)

theorem Json.at?_append (p p' : List Step) (j : Json) :
    j.at? (p ++ p') = (j.at? p).bind (at? p') := by
  induction p generalizing j with
  | nil => rfl
  | cons s rest ih =>
    rw [List.cons_append, at?, at?, Option.bind_assoc]
    exact Option.bind_congr fun j' _ => ih j'

namespace Literal

def step? : Step → Literal → Option Literal
  | .item i, .list items => items[i]?
  | .member name, .obj fields => Dict.find? name fields.reverse
  | _, _ => none

def at? : List Step → Literal → Option Literal
  | [], l => some l
  | s :: rest, l => (l.step? s).bind (at? rest)

variable {bindings : Option Bindings} {l m : Literal}

theorem step?_eval {s : Step} (written : l.step? s = some m) :
    (l.eval bindings).toJson.step? s = some (m.eval bindings).toJson := by
  unfold step? at written
  split at written
  · next i items =>
    rw [eval, Value.toJson, evalItems_eq, Value.itemsToJson_eq, Json.step?, List.getElem?_map,
      List.getElem?_map, written]
    rfl
  · next name fields =>
    have json : (eval bindings (.obj fields)).toJson
        = .obj (Dict.mapValues Value.toJson (Dict.mapValues (eval bindings) fields)) := by
      rw [eval, Value.toJson, evalFields_eq, Value.fieldsToJson_eq]
      rfl
    rw [json, Json.step?, Json.member?, Dict.find?_reverse_mapValues, Dict.find?_reverse_mapValues,
      written]
    rfl
  · cases written

/-- What stands somewhere in a literal has its value at the same position. -/
theorem at?_eval {p : List Step} (written : l.at? p = some m) :
    (l.eval bindings).toJson.at? p = some (m.eval bindings).toJson := by
  induction p generalizing l with
  | nil =>
    cases written
    rfl
  | cons s rest ih =>
    obtain ⟨next, first, behind⟩ := Option.bind_eq_some_iff.mp written
    rw [Json.at?, step?_eval first]
    exact ih behind

end Literal

theorem fst_of_mem_optionalMember {name : String} {j : Option Json} {m : String × Json}
    (h : m ∈ optionalMember name j) : m.1 = name := by
  cases j with
  | none => cases h
  | some j =>
    cases List.mem_singleton.mp h
    rfl

/-- Of members with different names each is found where there is something to write. -/
theorem find?_optionalMembers {entries : List (String × Option Json)}
    (once : (entries.map Prod.fst).Nodup) {name : String} {j : Option Json}
    (here : (name, j) ∈ entries) :
    Dict.find? name (entries.flatMap fun e => optionalMember e.1 e.2).reverse = j := by
  rw [Dict.find?_eq_lookup]
  induction entries with
  | nil => cases here
  | cons e rest ih =>
    obtain ⟨own, others⟩ := List.nodup_cons.mp once
    rw [List.flatMap_cons, List.reverse_append, List.lookup_append]
    rcases List.mem_cons.mp here with rfl | here
    · have later : (rest.flatMap fun e => optionalMember e.1 e.2).reverse.lookup name = none := by
        refine List.lookup_eq_none_iff.mpr fun m hm => bne_iff_ne.mpr fun same => own ?_
        obtain ⟨e, he, hm⟩ := List.mem_flatMap.mp (List.mem_reverse.mp hm)
        exact List.mem_map.mpr ⟨e, he, (fst_of_mem_optionalMember hm).symm.trans same.symm⟩
      rw [later, Option.none_or]
      cases j <;> simp [optionalMember]
    · have other : name ≠ e.1 := fun same => own (same ▸ List.mem_map_of_mem here)
      rw [ih others here]
      cases e.2 <;> simp [optionalMember, List.lookup_cons, beq_false_of_ne other]

def Attributes.entries (a : Attributes) (children : Option Json) : List (String × Option Json) :=
  [("name", some (.str a.name)), ("alias", a.aliasName.map .str),
    ("fragmentType", a.condition.map .str), ("path", a.path.map .str),
    ("returnType", a.returnType.map .str), ("fields", children),
    ("arguments", a.arguments.map Arguments.toJson),
    ("directives", a.directives.map Directives.toJson)]

theorem Attributes.member?_members {a : Attributes} {children : Option Json} {name : String}
    {j : Option Json} (here : (name, j) ∈ a.entries children) :
    (Json.obj (a.members children)).member? name = j := by
  have members : a.members children
      = (a.entries children).flatMap fun e => optionalMember e.1 e.2 := by
    simp [members, entries, optionalMember]
  have once : ((a.entries children).map Prod.fst).Nodup := by simp [entries]
  rw [members]
  exact find?_optionalMembers once here

namespace Node

theorem listToJson_eq (ns : List Node) : listToJson ns = ns.map toJson := by
  induction ns with
  | nil => rfl
  | cons n rest ih => rw [listToJson, ih, List.map_cons]

/-- The node at a place below a node; the place has a number for each level. -/
def at? : List Nat → Node → Option Node
  | [], n => some n
  | i :: rest, n => n.children?.bind fun ns => ns[i]?.bind (at? rest)

def position (place : List Nat) : List Step := place.flatMap fun i => [.member "fields", .item i]

variable {n m : Node} {place : List Nat}

theorem at?_position {j : Json} {ns : List Node} {i : Nat}
    (fields : j.member? "fields" = some (.arr (listToJson ns))) (here : ns[i]? = some n) :
    j.at? (position (i :: place)) = n.toJson.at? (position place) := by
  have item : (Json.arr (listToJson ns)).step? (.item i) = some n.toJson := by
    rw [Json.step?, listToJson_eq, List.getElem?_map, here, Option.map_some]
  rw [position, List.flatMap_cons, List.cons_append, List.cons_append, Json.at?, Json.step?, fields,
    Option.bind_some, Json.at?, item]
  rfl

theorem at?_toJson (found : n.at? place = some m) :
    n.toJson.at? (position place) = some m.toJson := by
  induction place generalizing n with
  | nil =>
    cases found
    rfl
  | cons i rest ih =>
    obtain ⟨ns, below, found⟩ := Option.bind_eq_some_iff.mp found
    obtain ⟨child, here, found⟩ := Option.bind_eq_some_iff.mp found
    have fields : n.toJson.member? "fields" = some (.arr (listToJson ns)) := by
      rw [toJson_eq, below, Option.map_some]
      exact Attributes.member?_members (by simp [Attributes.entries])
    rw [at?_position fields here]
    exact ih found

theorem mem_nodes_of_at? (found : n.at? place = some m) : m ∈ n.nodes := by
  induction place generalizing n with
  | nil =>
    cases found
    exact self_mem_nodes _
  | cons i rest ih =>
    obtain ⟨ns, below, inside⟩ := Option.bind_eq_some_iff.mp found
    obtain ⟨child, here, behind⟩ := Option.bind_eq_some_iff.mp inside
    cases n with
    | leaf a => cases below
    | branch a children =>
      cases below
      exact mem_nodes_of_child (List.mem_of_getElem? here) (ih behind)

end Node

namespace Tree

variable {t : Tree} {n : Node} {place : List Nat}

/-- The node at a place of a tree, the first number of which stands for a root. -/
def at? : List Nat → Tree → Option Node
  | [], _ => none
  | i :: rest, t => t.roots[i]?.bind (Node.at? rest)

theorem at?_toJson (found : t.at? place = some n) :
    t.toJson.at? (Node.position place) = some n.toJson := by
  cases place with
  | nil => cases found
  | cons i rest =>
    obtain ⟨root, here, found⟩ := Option.bind_eq_some_iff.mp found
    have fields : t.toJson.member? "fields" = some (.arr (Node.listToJson t.roots)) := by
      simp [toJson, Json.member?, Dict.find?]
    rw [Node.at?_position fields here]
    exact Node.at?_toJson found

theorem mem_nodes_of_at? (found : t.at? place = some n) : n ∈ t.nodes := by
  cases place with
  | nil => cases found
  | cons i rest =>
    obtain ⟨root, here, found⟩ := Option.bind_eq_some_iff.mp found
    exact Node.mem_nodesAll (List.mem_of_getElem? here) (Node.mem_nodes_of_at? found)

end Tree

inductive Parameter where
  | argument (name : String)
  | directive (directiveName name : String)

def Parameter.position : Parameter → List Step
  | argument name => [.member "arguments", .member name]
  | directive d name => [.member "directives", .member d, .member name]

/-- The literal that a field writes for a parameter, the last one if there are several. -/
def FieldHead.written? (head : FieldHead) : Parameter → Option Literal
  | .argument name => Dict.find? name head.arguments.reverse
  | .directive d name =>
    (Dict.find? d (head.directives.map fun d => (d.name, d.arguments)).reverse).bind
      fun arguments => Dict.find? name arguments.reverse

section

variable (bindings : Option Bindings)

theorem Arguments.member?_ofLiterals (args : List (String × Literal)) (name : String) :
    (Arguments.ofLiterals bindings args).toJson.member? name
      = (Dict.find? name args.reverse).map fun l => (l.eval bindings).toJson := by
  have json : (Arguments.ofLiterals bindings args).toJson
      = .obj (Dict.mapValues Value.toJson (ofLiterals bindings args)) := by
    rw [toJson, Value.fieldsToJson_eq]
    rfl
  rw [json, Json.member?, Dict.find?_reverse_mapValues, ofLiterals, Dict.find?_reverse_ofList,
    Literal.evalFields_eq, Dict.find?_reverse_mapValues, Option.map_map]
  rfl

theorem Directives.member?_ofLiterals (ds : List Directive) (name : String) :
    (Directives.ofLiterals bindings ds).toJson.member? name
      = (Dict.find? name (ds.map fun d => (d.name, d.arguments)).reverse).map
          fun args => (Arguments.ofLiterals bindings args).toJson := by
  have json : (Directives.ofLiterals bindings ds).toJson
      = .obj (Dict.mapValues Arguments.toJson (ofLiterals bindings ds)) := rfl
  have written : (ds.map fun d => (d.name, Arguments.ofLiterals bindings d.arguments))
      = Dict.mapValues (Arguments.ofLiterals bindings)
          (ds.map fun d => (d.name, d.arguments)) := by
    rw [Dict.mapValues, List.map_map]
    rfl
  rw [json, Json.member?, Dict.find?_reverse_mapValues, ofLiterals, Dict.find?_reverse_ofList,
    written, Dict.find?_reverse_mapValues, Option.map_map]
  rfl

end

namespace Request

variable {q : Request}

theorem map_unlessEmpty {α : Type} {toJson : Dict α → Json} {d : Dict α} {name : String}
    {value : Json} (empty : toJson [] = .obj []) (held : (toJson d).member? name = some value) :
    (unlessEmpty d).map toJson = some (toJson d) := by
  cases d with
  | nil =>
    rw [empty] at held
    cases held
  | cons e rest => rfl

/-- A literal has its value at the position of the parameter it was written for. -/
theorem at?_parameter {place : Place} {head : FieldHead} {parameter : Parameter}
    {literal : Literal} (written : head.written? parameter = some literal)
    (children : Option Json) :
    (Json.obj ((q.attributes place head).members children)).at? parameter.position
      = some (literal.eval q.bindings).toJson := by
  cases parameter with
  | argument name =>
    have held : (Arguments.ofLiterals q.bindings head.arguments).toJson.member? name
        = some (literal.eval q.bindings).toJson := by
      rw [Arguments.member?_ofLiterals]
      exact congrArg (Option.map _) written
    have arguments : (q.attributes place head).arguments.map Arguments.toJson
        = some (Arguments.ofLiterals q.bindings head.arguments).toJson := map_unlessEmpty rfl held
    have member : (Json.obj ((q.attributes place head).members children)).member? "arguments"
        = some (Arguments.ofLiterals q.bindings head.arguments).toJson :=
      Attributes.member?_members (by simp [Attributes.entries, arguments])
    rw [Parameter.position, Json.at?, Json.step?, member, Option.bind_some, Json.at?, Json.step?,
      held]
    rfl
  | directive d name =>
    obtain ⟨args, found, written⟩ := Option.bind_eq_some_iff.mp written
    have outer : (Directives.ofLiterals q.bindings head.directives).toJson.member? d
        = some (Arguments.ofLiterals q.bindings args).toJson := by
      rw [Directives.member?_ofLiterals, found, Option.map_some]
    have inner : (Arguments.ofLiterals q.bindings args).toJson.member? name
        = some (literal.eval q.bindings).toJson := by
      rw [Arguments.member?_ofLiterals, written, Option.map_some]
    have directives : (q.attributes place head).directives.map Directives.toJson
        = some (Directives.ofLiterals q.bindings head.directives).toJson :=
      map_unlessEmpty rfl outer
    have member : (Json.obj ((q.attributes place head).members children)).member? "directives"
        = some (Directives.ofLiterals q.bindings head.directives).toJson :=
      Attributes.member?_members (by simp [Attributes.entries, directives])
    rw [Parameter.position, Json.at?, Json.step?, member, Option.bind_some, Json.at?, Json.step?,
      outer, Option.bind_some, Json.at?, Json.step?, inner]
    rfl

end Request

theorem Request.at?_written {q : Request} {tree : Tree} {n : Node} {path : List Nat} {place : Place}
    {head : FieldHead} (found : tree.at? path = some n)
    (made : n.attributes = q.attributes place head) {parameter : Parameter}
    {literal inner : Literal} {p : List Step} (written : head.written? parameter = some literal)
    (inside : literal.at? p = some inner) :
    tree.toJson.at? (Node.position path ++ (parameter.position ++ p))
      = some (inner.eval q.bindings).toJson := by
  rw [Json.at?_append, Tree.at?_toJson found, Option.bind_some, Json.at?_append, n.toJson_eq, made,
    at?_parameter written, Option.bind_some]
  exact Literal.at?_eval inside

/-- JSON whose objects repeat no name, as those of sorted JSON never do, binds its members as they
are. Wherever the field of a node has such a variable in its arguments or in those of its
directives, alone or inside lists and objects, the JSON of a converted tree has the member of that
name at the same position. -/
theorem variables_pass_through {ε : Type} (j : Json) (once : j.distinct = true) :
    ∃ bindings, (Bindings.load j : Run ε Bindings).outcome = .ok bindings ∧
      ((∀ members, j ≠ .obj members) → bindings = []) ∧
      (∀ members, j = .obj members →
        Dict.keys bindings = Dict.keys members ∧ (Value.obj bindings).toJson = j) ∧
      ∀ (q : Request) (operation : Operation) (tree : Tree), q.bindings = some bindings →
        (q.convert operation).outcome = .ok tree →
        (q.convertToJson operation).outcome = .ok tree.toJson.text ∧
        ((∀ x ∈ tree.toJson.numbers, x.Readable) →
          Json.ofText? tree.toJson.text = some tree.toJson) ∧
        ∃ root, q.registry.root? operation.kind = some root ∧
          ∀ path n, tree.at? path = some n →
            (∃ v ∈ (q.tour root operation).visits,
              n.attributes = q.attributes v.here.place v.here.head) ∧
            ∀ place head, n.attributes = q.attributes place head →
              ∀ parameter literal p name value, head.written? parameter = some literal →
                literal.at? p = some (.var name) → j.member? name = some value →
                tree.toJson.at? (Node.position path ++ (parameter.position ++ p))
                  = some value := by
  refine ⟨Bindings.ofJson j, ?_, ?_, ?_, ?_⟩
  · cases j <;> rfl
  · intro other
    cases j with
    | obj members => exact (other members rfl).elim
    | _ => rfl
  · rintro members rfl
    exact ⟨Bindings.keys_ofJson once, Value.toJson_ofJson (.obj members) once⟩
  · intro q operation tree bound ok
    obtain ⟨root, -, rooted, -⟩ := Request.convert_eq_ok ok
    refine ⟨Request.outcome_convertToJson ok, Json.ofText?_text, root, rooted, ?_⟩
    intro path n found
    refine ⟨Request.attributes_of_mem_nodes rooted ok (Tree.mem_nodes_of_at? found), ?_⟩
    intro place head made parameter literal p name value written inside held
    rw [Request.at?_written found made written inside, bound, Literal.toJson_eval_var once held]

def Films.form : Json :=
  .obj [("form", .obj [("unit", .str "m"), ("parts", .arr [.num (.int 2), .null])])]

open Films in
theorem variables_pass_through_hero : ∃ tree, (binding.convert abbreviating).outcome = .ok tree ∧
    ∃ value, form.member? "form" = some value ∧
      tree.toJson.at? [.member "fields", .item 0, .member "fields", .item 1, .member "directives",
        .member "show", .member "as", .item 0] = some value := by
  obtain ⟨bindings, loaded, -, -, conversions⟩ := @variables_pass_through Empty form (by decide)
  cases loaded
  let shown : Directive := ⟨"show", [("as", .list [.var "form"])]⟩
  have converted : ∃ tree n, (binding.convert abbreviating).outcome = .ok tree ∧
      tree.at? [0, 1] = some n ∧
      n.attributes = binding.attributes ⟨root, "", none⟩
        { name := "friends", directives := [⟨"show", [("as", .var "style")]⟩, shown] } :=
    ⟨_, _, by cbv, by cbv, by cbv⟩
  obtain ⟨tree, n, ok, found, made⟩ := converted
  obtain ⟨-, -, _, -, nodes⟩ := conversions binding abbreviating tree rfl ok
  obtain ⟨-, values⟩ := nodes [0, 1] n found
  exact ⟨tree, ok, _, rfl, values _ _ made (.directive "show" "as") (.list [.var "form"]) [.item 0]
    "form" _ rfl rfl rfl⟩

end SelectionTree
