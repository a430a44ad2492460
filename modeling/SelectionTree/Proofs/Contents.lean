import SelectionTree.Proofs.Tracking
/-!
What is found in values and in trees at any depth, and the inductions that go there. The nodes of a
tree come of the field selections that the walk over its operation meets, so what holds of the
fields holds of the nodes.
-/
set_option autoImplicit false

namespace SelectionTree

namespace Value

@[elab_as_elim]
theorem induction {motive : Value → Prop} (null : motive .null) (bool : ∀ b, motive (.bool b))
    (num : ∀ n, motive (.num n)) (str : ∀ s, motive (.str s)) (enum : ∀ name, motive (.enum name))
    (bin : ∀ bytes, motive (.bin bytes))
    (list : ∀ items, (∀ v ∈ items, motive v) → motive (.list items))
    (obj : ∀ fields, (∀ e ∈ fields, motive e.2) → motive (.obj fields)) : ∀ v, motive v
  | .null => null
  | .bool b => bool b
  | .num n => num n
  | .str s => str s
  | .enum name => enum name
  | .bin bytes => bin bytes
  | .list items => list items fun v _ => induction null bool num str enum bin list obj v
  | .obj fields => obj fields fun e _ => induction null bool num str enum bin list obj e.2
termination_by v => sizeOf v
decreasing_by
  · have := List.sizeOf_lt_of_mem ‹v ∈ items›
    simp only [Value.list.sizeOf_spec]
    omega
  · have := List.sizeOf_lt_of_mem ‹e ∈ fields›
    have : sizeOf e = 1 + sizeOf e.1 + sizeOf e.2 := rfl
    simp only [Value.obj.sizeOf_spec]
    omega

mutual

def parts : Value → List Value
  | .list items => .list items :: itemParts items
  | .obj fields => .obj fields :: fieldParts fields
  | .null => [.null]
  | .bool b => [.bool b]
  | .num n => [.num n]
  | .str s => [.str s]
  | .enum name => [.enum name]
  | .bin bytes => [.bin bytes]

def itemParts : List Value → List Value
  | [] => []
  | v :: rest => v.parts ++ itemParts rest

def fieldParts : List (String × Value) → List Value
  | [] => []
  | (_, v) :: rest => v.parts ++ fieldParts rest

end

def All (p : Value → Prop) (v : Value) : Prop := ∀ w ∈ v.parts, p w

instance {p : Value → Prop} [DecidablePred p] (v : Value) : Decidable (v.All p) :=
  inferInstanceAs (Decidable (∀ w ∈ v.parts, p w))

variable {p p' : Value → Prop} {v : Value}

theorem itemParts_eq (items : List Value) : itemParts items = items.flatMap parts := by
  induction items with
  | nil => rfl
  | cons v rest ih => rw [itemParts, ih, List.flatMap_cons]

theorem fieldParts_eq (fields : List (String × Value)) :
    fieldParts fields = fields.flatMap fun e => e.2.parts := by
  induction fields with
  | nil => rfl
  | cons e rest ih => rw [fieldParts, ih, List.flatMap_cons]

theorem All.here (h : v.All p) : p v := by
  refine h v ?_
  cases v <;> simp [parts]

theorem all_list {items : List Value} :
    (list items).All p ↔ p (.list items) ∧ ∀ v ∈ items, v.All p := by
  simp only [All, parts, itemParts_eq, List.forall_mem_cons, List.forall_mem_flatMap]

theorem all_obj {fields : List (String × Value)} :
    (obj fields).All p ↔ p (.obj fields) ∧ ∀ e ∈ fields, e.2.All p := by
  simp only [All, parts, fieldParts_eq, List.forall_mem_cons, List.forall_mem_flatMap]

end Value

namespace Node

@[elab_as_elim]
theorem induction {motive : Node → Prop} (leaf : ∀ a, motive (.leaf a))
    (branch : ∀ a children, (∀ n ∈ children, motive n) → motive (.branch a children)) (n : Node) :
    motive n := by
  cases n with
  | leaf a => exact leaf a
  | branch a children => exact branch a children fun n _ => induction leaf branch n
termination_by n
decreasing_by
  have := List.sizeOf_lt_of_mem ‹n ∈ children›
  simp only [Node.branch.sizeOf_spec]
  omega

mutual

def nodes : Node → List Node
  | leaf a => [leaf a]
  | branch a children => branch a children :: nodesAll children

def nodesAll : List Node → List Node
  | [] => []
  | n :: rest => n.nodes ++ nodesAll rest

end

variable {ι : Type} {t : Tracking ι} {i : ι} {m n : Node} {ns : List Node}

theorem nodesAll_eq (ns : List Node) : nodesAll ns = ns.flatMap nodes := by
  induction ns with
  | nil => rfl
  | cons n rest ih => rw [nodesAll, ih, List.flatMap_cons]

theorem self_mem_nodes (n : Node) : n ∈ n.nodes := by
  cases n <;> simp [nodes]

theorem mem_nodesAll (hn : n ∈ ns) (hm : m ∈ n.nodes) : m ∈ nodesAll ns := by
  rw [nodesAll_eq]
  exact List.mem_flatMap.mpr ⟨n, hn, hm⟩

theorem mem_nodes_of_child {a : Attributes} {children : List Node} (hn : n ∈ children)
    (hm : m ∈ n.nodes) : m ∈ (branch a children).nodes :=
  List.mem_cons_of_mem _ (mem_nodesAll hn hm)

theorem holds_of_mem_nodes (h : n.Tracked t i) (hm : m ∈ n.nodes) :
    ∃ j, t.holds j m.attributes m.children?.isSome := by
  induction h with
  | leaf here =>
    cases List.mem_singleton.mp hm
    exact ⟨_, here⟩
  | branch here _ ih =>
    rw [nodes, nodesAll_eq, List.mem_cons, List.mem_flatMap] at hm
    rcases hm with rfl | ⟨n, hn, hm⟩
    · exact ⟨_, here⟩
    · exact ih n hn hm

end Node

def Tree.nodes (t : Tree) : List Node := Node.nodesAll t.roots

def brought (q : Request) (visits : List Visit) : Tracking Unit where
  holds _ a _ := ∃ v ∈ visits, a = q.attributes v.here.place v.here.head
  below _ _ := ()
  below_eq _ _ _ _ := rfl

/-- A node of a tree says what a field selection says that the walk meets. -/
theorem Request.attributes_of_mem_nodes {q : Request} {root : Composite} {operation : Operation}
    {tree : Tree} (rooted : q.registry.root? operation.kind = some root)
    (ok : (q.convert operation).outcome = .ok tree) {n : Node} (hn : n ∈ tree.nodes) :
    ∃ v ∈ (q.tour root operation).visits, n.attributes = q.attributes v.here.place v.here.head := by
  rw [q.outcome_convert rooted, bind_eq_ok] at ok
  obtain ⟨nodes, expanded, ok⟩ := ok
  cases ok
  have follows : (brought q (q.tour root operation).visits).Follows q fun _ _ => () :=
    ⟨fun _ _ _ _ _ _ _ _ _ => rfl, fun _ _ _ => rfl⟩
  have met : ∀ v ∈ (q.tour root operation).visits,
      (brought q (q.tour root operation).visits).HoldsAt q (fun _ _ => ()) v :=
    fun v hv => ⟨v, hv, rfl⟩
  have all : (brought q (q.tour root operation).visits).All () nodes :=
    Tracking.all_expand follows met Tracking.all_nil expanded
  rw [Tree.nodes, Node.nodesAll_eq, List.mem_flatMap] at hn
  obtain ⟨m, hm, hn⟩ := hn
  obtain ⟨_, brought⟩ := Node.holds_of_mem_nodes (all m hm) hn
  exact brought

def Directives.value (ds : Directives) : Value := .obj (Dict.mapValues .obj ds)

def Attributes.values (a : Attributes) : List Value :=
  (a.arguments.toList.map Value.obj ++ a.directives.toList.map Directives.value).flatMap Value.parts

theorem Attributes.forall_mem_values {a : Attributes} {p : Value → Prop} :
    (∀ v ∈ a.values, p v) ↔ (∀ args, a.arguments = some args → (Value.obj args).All p) ∧
      ∀ ds, a.directives = some ds → ds.value.All p := by
  simp only [values, List.forall_mem_flatMap, List.forall_mem_append, List.forall_mem_map,
    Option.mem_toList]
  rfl

end SelectionTree
