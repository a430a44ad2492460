import SelectionTree.Conversion
/-!
Outcomes: how a conversion ends, with what it reports on the way set aside. Every function of the
conversion has one equation for its outcome here, and a successful one is taken apart step by step.
-/
set_option autoImplicit false

namespace SelectionTree

variable {ε α β : Type}

@[simp] theorem ok_bind (x : α) (f : α → Except ε β) : (Except.ok x >>= f) = f x := rfl

@[simp] theorem error_bind (e : ε) (f : α → Except ε β) :
    ((Except.error e : Except ε α) >>= f) = .error e := rfl

theorem bind_eq_ok {x : Except ε α} {f : α → Except ε β} {b : β} :
    (x >>= f) = .ok b ↔ ∃ a, x = .ok a ∧ f a = .ok b := by
  cases x with
  | error e => simp
  | ok a => simp

theorem outcome_upsert (test : α → Bool) (update : α → Run ε α) (new : α) (xs : List α) :
    (upsert test update new xs).outcome = upsert test (fun x => (update x).outcome) new xs := by
  induction xs with
  | nil => rfl
  | cons x xs ih =>
    rw [upsert, upsert]
    split
    · simp only [Run.outcome_bind, Run.outcome_pure]
      rfl
    · simp only [Run.outcome_bind, ih, Run.outcome_pure]
      rfl

theorem upsert_of_all_fail {test : α → Bool} {update : α → Except ε α} {new : α} {xs : List α}
    (h : ∀ x ∈ xs, test x = false) : upsert test update new xs = .ok (xs ++ [new]) := by
  induction xs with
  | nil => rfl
  | cons x xs ih =>
    have tail := ih fun y hy => h y (List.mem_cons_of_mem _ hy)
    simp only [upsert, h x List.mem_cons_self, Bool.false_eq_true, if_false, tail, ok_bind]
    rfl

theorem upsert_append_cons {test : α → Bool} {update : α → Except ε α} {new x : α}
    {before after : List α} (none : ∀ y ∈ before, test y = false) (here : test x = true) :
    upsert test update new (before ++ x :: after)
      = (update x).map fun y => before ++ y :: after := by
  induction before with
  | nil =>
    simp [upsert, here]
    cases update x <;> rfl
  | cons y before ih =>
    have tail := ih fun z hz => none z (List.mem_cons_of_mem _ hz)
    simp [upsert, none y List.mem_cons_self, tail]
    cases update x <;> rfl

theorem no_entry_or_first (test : α → Bool) (xs : List α) :
    (∀ x ∈ xs, test x = false) ∨
      ∃ before x after, xs = before ++ x :: after ∧ (∀ y ∈ before, test y = false) ∧
        test x = true := by
  induction xs with
  | nil => exact Or.inl fun x hx => absurd hx List.not_mem_nil
  | cons x xs ih =>
    cases here : test x with
    | true => exact Or.inr ⟨[], x, xs, rfl, fun y hy => absurd hy List.not_mem_nil, here⟩
    | false =>
      rcases ih with none | ⟨before, y, after, rfl, none, first⟩
      · exact Or.inl (List.forall_mem_cons.mpr ⟨here, none⟩)
      · exact Or.inr ⟨x :: before, y, after, rfl, List.forall_mem_cons.mpr ⟨here, none⟩, first⟩

theorem upsert_eq_ok {test : α → Bool} {update : α → Except ε α} {new : α} {xs ys : List α}
    (h : upsert test update new xs = .ok ys) :
    (∀ x ∈ xs, test x = false) ∧ ys = xs ++ [new] ∨
      ∃ before x after y, xs = before ++ x :: after ∧ (∀ z ∈ before, test z = false) ∧
        test x = true ∧ update x = .ok y ∧ ys = before ++ y :: after := by
  rcases no_entry_or_first test xs with none | ⟨before, x, after, rfl, none, first⟩
  · rw [upsert_of_all_fail none] at h
    exact Or.inl ⟨none, (Except.ok.inj h).symm⟩
  · rw [upsert_append_cons none first] at h
    cases updated : update x with
    | error e => simp [updated, Except.map] at h
    | ok y =>
      simp [updated, Except.map] at h
      exact Or.inr ⟨before, x, after, y, rfl, none, first, updated, h.symm⟩

theorem forall_mem_upsert {test : α → Bool} {update : α → Except ε α} {new : α} {xs ys : List α}
    {P : α → Prop} (h : upsert test update new xs = .ok ys) (old : ∀ x ∈ xs, P x) (hnew : P new)
    (hupdate : ∀ x ∈ xs, test x = true → ∀ y, update x = .ok y → P y) : ∀ y ∈ ys, P y := by
  rcases upsert_eq_ok h with ⟨-, rfl⟩ | ⟨before, x, after, y, rfl, -, here, updated, rfl⟩
  · simpa [or_imp, forall_and] using ⟨old, hnew⟩
  · have hy := hupdate x (by simp) here y updated
    intro z hz
    rcases List.mem_append.mp hz with hz | hz
    · exact old z (List.mem_append_left _ hz)
    · rcases List.mem_cons.mp hz with rfl | hz
      · exact hy
      · exact old z (List.mem_append_right _ (List.mem_cons_of_mem _ hz))

theorem upsert_succeeds {test : α → Bool} {update : α → Except ε α} {new : α} {xs : List α}
    (h : ∀ x ∈ xs, test x = true → ∃ y, update x = .ok y) :
    ∃ ys, upsert test update new xs = .ok ys := by
  rcases no_entry_or_first test xs with none | ⟨before, x, after, rfl, none, here⟩
  · exact ⟨_, upsert_of_all_fail none⟩
  · obtain ⟨y, updated⟩ := h x (by simp) here
    rw [upsert_append_cons none here, updated]
    exact ⟨_, rfl⟩

namespace Node

theorem absorb_keeps {r : Registry} {parent : Composite} {path : String} {again first n : Node}
    (h : (absorb r parent path again first).outcome = .ok n) :
    n.attributes = first.attributes ∧ n.children?.isSome = first.children?.isSome := by
  cases again with
  | leaf b =>
    simp only [absorb, Run.outcome_pure, Except.ok.injEq] at h
    exact h ▸ ⟨rfl, rfl⟩
  | branch b more =>
    cases first with
    | leaf a =>
      simp only [absorb, Run.outcome_bind, Run.outcome_tell, ok_bind, Run.outcome_pure,
        Except.ok.injEq] at h
      exact h ▸ ⟨rfl, rfl⟩
    | branch a children =>
      simp only [absorb, Run.outcome_bind, Run.outcome_ofExcept, bind_eq_ok, Run.outcome_pure,
        Except.ok.injEq] at h
      obtain ⟨type, -, merged, -, rfl⟩ := h
      exact ⟨rfl, rfl⟩

theorem outcome_addToLevel (r : Registry) (parent : Composite) (path : String) (level : List Node)
    (n : Node) :
    (addToLevel r parent path level n).outcome
      = upsert (fun x => decide (x.key parent.name = n.key parent.name))
          (fun x => (absorb r parent path n x).outcome) n level := outcome_upsert _ _ _ _

end Node

def Place.below (place : Place) (head : FieldHead) (type : Composite) : Place :=
  ⟨type, joinPath place.path head.responseName, none⟩

namespace Request

variable (q : Request) (place : Place) (chain : List String) (level : List Node)

@[simp] theorem outcome_addAll_cons (n : Node) (rest : List Node) :
    (q.addAll place level (n :: rest)).outcome
      = (q.add place level n).outcome >>= fun level => (q.addAll place level rest).outcome := by
  rw [addAll, Run.outcome_bind]

theorem enter_of_some {place : Place} {head : FieldHead} {type : Composite}
    (nested : q.registry.nested? place.parent place.condition head.name = some type) :
    q.enter place head = .ok (place.below head type) := by
  simp [enter, nested, Place.below]

theorem enter_of_none {place : Place} {head : FieldHead}
    (missing : q.registry.nested? place.parent place.condition head.name = none) :
    q.enter place head = .error (.schemaMismatch (joinPath place.path head.responseName)) := by
  simp [enter, missing]

def children (head : FieldHead) (body : List Selection) :
    Except ConversionError (Option (List Node)) :=
  if body.isEmpty then .ok none
  else do
    let inner ← q.enter place head
    let nodes ← (q.expand inner chain [] body).outcome
    .ok (some nodes)

def node (head : FieldHead) (body : List Selection) : Except ConversionError Node := do
  let children ← q.children place chain head body
  .ok (Node.ofChildren (q.attributes place head) children)

theorem node_nil (head : FieldHead) :
    q.node place chain head [] = .ok (.leaf (q.attributes place head)) := rfl

theorem node_of_none {head : FieldHead} {body : List Selection} (full : body ≠ [])
    (missing : q.registry.nested? place.parent place.condition head.name = none) :
    q.node place chain head body
      = .error (.schemaMismatch (joinPath place.path head.responseName)) := by
  simp [node, children, full, enter_of_none q missing]

theorem node_of_some {head : FieldHead} {body : List Selection} {type : Composite}
    (full : body ≠ [])
    (nested : q.registry.nested? place.parent place.condition head.name = some type) :
    q.node place chain head body
      = (q.expand (place.below head type) chain [] body).outcome >>= fun nodes =>
          .ok (.branch (q.attributes place head) nodes) := by
  rw [node, children, if_neg (by simpa using full), enter_of_some q nested, ok_bind]
  cases (q.expand (place.below head type) chain [] body).outcome <;> rfl

theorem node_eq_ok {q : Request} {place : Place} {chain : List String} {head : FieldHead}
    {body : List Selection} {n : Node} (h : q.node place chain head body = .ok n) :
    body = [] ∧ n = .leaf (q.attributes place head) ∨
      ∃ type children, body ≠ [] ∧
        q.registry.nested? place.parent place.condition head.name = some type ∧
        (q.expand (place.below head type) chain [] body).outcome = .ok children ∧
        n = .branch (q.attributes place head) children := by
  by_cases full : body = []
  · subst full
    cases (q.node_nil place chain head).symm.trans h
    exact Or.inl ⟨rfl, rfl⟩
  · cases nested : q.registry.nested? place.parent place.condition head.name with
    | none =>
      rw [q.node_of_none place chain full nested] at h
      cases h
    | some type =>
      rw [q.node_of_some place chain full nested, bind_eq_ok] at h
      obtain ⟨children, expanded, h⟩ := h
      cases h
      exact Or.inr ⟨type, children, full, rfl, expanded, rfl⟩

@[simp] theorem outcome_expand_nil : (q.expand place chain level []).outcome = .ok level := by
  rw [expand]
  rfl

theorem outcome_expand_field (head : FieldHead) (body rest : List Selection) :
    (q.expand place chain level (.field head body :: rest)).outcome = (do
      let n ← q.node place chain head body
      let level ← (q.add place level n).outcome
      (q.expand place chain level rest).outcome) := by
  rw [expand, node, children]
  split
  · simp only [Run.outcome_bind, Run.outcome_tell, ok_bind]
    rfl
  · cases entered : q.enter place head with
    | error e => rfl
    | ok inner =>
      simp only [Run.outcome_bind, Run.outcome_ofExcept, ok_bind]
      cases (q.expand inner chain [] body).outcome <;> rfl

theorem outcome_expand_inline (own : Option String) (body rest : List Selection) :
    (q.expand place chain level (.inline own body :: rest)).outcome = (do
      let nodes ←
        (q.expand { place with condition := own <|> place.condition } chain [] body).outcome
      let level ← (q.addAll place level nodes).outcome
      (q.expand place chain level rest).outcome) := by
  rw [expand]
  simp only [Run.outcome_bind, Run.outcome_tell, ok_bind]

theorem outcome_expand_spread_of_mem {name : String} (rest : List Selection)
    (cyclic : name ∈ chain) :
    (q.expand place chain level (.spread name :: rest)).outcome
      = .error (.cyclicFragment name) := by
  rw [expand, dif_pos cyclic]
  rfl

theorem outcome_expand_spread_of_none {name : String} (rest : List Selection) (new : name ∉ chain)
    (missing : Dict.find? name q.fragments = none) :
    (q.expand place chain level (.spread name :: rest)).outcome
      = .error (.unknownFragment name) := by
  rw [expand, dif_neg new]
  split
  · rfl
  · simp_all

theorem outcome_expand_spread_of_some {name : String} {fragment : Fragment} (rest : List Selection)
    (new : name ∉ chain) (found : Dict.find? name q.fragments = some fragment) :
    (q.expand place chain level (.spread name :: rest)).outcome = (do
      let nodes ← (q.expand { place with condition := some fragment.condition } (name :: chain) []
        fragment.body).outcome
      let level ← (q.addAll place level nodes).outcome
      (q.expand place chain level rest).outcome) := by
  rw [expand, dif_neg new]
  split
  · simp_all
  · next h =>
    cases found.symm.trans h
    simp only [Run.outcome_bind, Run.outcome_tell, ok_bind]

theorem outcome_convert {operation : Operation} {root : Composite}
    (rooted : q.registry.root? operation.kind = some root) :
    (q.convert operation).outcome
      = (q.expand ⟨root, "", none⟩ [] [] operation.selections).outcome >>= fun roots =>
          .ok ⟨operation.kind, roots⟩ := by
  simp only [convert, tree, rooted, Run.outcome_within, Run.outcome_bind, Run.outcome_ofExcept,
    Run.outcome_tell, Run.outcome_pure, ok_bind]

theorem outcome_convert_of_none {operation : Operation}
    (missing : q.registry.root? operation.kind = none) :
    (q.convert operation).outcome = .error (.missingRoot operation.kind) := by
  simp [convert, tree, missing]

theorem outcome_convert_elim (q : Request) (operation : Operation) :
    (q.convert operation).outcome
      = (q.registry.root? operation.kind).elim (.error (.missingRoot operation.kind)) fun root =>
          (q.expand ⟨root, "", none⟩ [] [] operation.selections).outcome >>= fun roots =>
            .ok ⟨operation.kind, roots⟩ := by
  cases rooted : q.registry.root? operation.kind with
  | none => exact q.outcome_convert_of_none rooted
  | some root => exact q.outcome_convert rooted

theorem convert_eq_ok {q : Request} {operation : Operation} {tree : Tree}
    (ok : (q.convert operation).outcome = .ok tree) :
    ∃ root nodes, q.registry.root? operation.kind = some root ∧
      (q.expand ⟨root, "", none⟩ [] [] operation.selections).outcome = .ok nodes ∧
      tree = ⟨operation.kind, nodes⟩ := by
  cases rooted : q.registry.root? operation.kind with
  | none => cases (q.outcome_convert_of_none rooted).symm.trans ok
  | some root =>
    rw [q.outcome_convert rooted, bind_eq_ok] at ok
    obtain ⟨nodes, expanded, ok⟩ := ok
    cases ok
    exact ⟨root, nodes, rfl, expanded, rfl⟩

/-- A selection that is expanded in place, an inline fragment or a spread, with the type condition
and the selections within it and the fragments on the chain there. -/
inductive Opens (q : Request) (chain : List String) (outer : Option String) :
    Selection → Option String → List String → List Selection → Prop
  | inline (own : Option String) (body : List Selection) :
      Opens q chain outer (.inline own body) (own <|> outer) chain body
  | spread {name : String} {fragment : Fragment} (new : name ∉ chain)
      (found : Dict.find? name q.fragments = some fragment) :
      Opens q chain outer (.spread name) (some fragment.condition) (name :: chain) fragment.body

theorem outcome_expand_opens {place : Place} {chain chain' : List String} {level : List Node}
    {s : Selection} {condition : Option String} {body rest : List Selection}
    (h : q.Opens chain place.condition s condition chain' body) :
    (q.expand place chain level (s :: rest)).outcome = (do
      let nodes ← (q.expand { place with condition } chain' [] body).outcome
      let level ← (q.addAll place level nodes).outcome
      (q.expand place chain level rest).outcome) := by
  cases h with
  | inline own body => exact outcome_expand_inline q place chain level own body rest
  | spread new found => exact outcome_expand_spread_of_some q place chain level rest new found

/-- Induction along an expansion: over the selections, through the bodies of fields, wherever they
are expanded, and through what is expanded in place. -/
@[elab_as_elim]
theorem expand_induction {motive : Place → List String → List Selection → Prop}
    (nil : ∀ place chain, motive place chain [])
    (field : ∀ place chain head body rest, (∀ inner, motive inner chain body) →
      motive place chain rest → motive place chain (.field head body :: rest))
    (opens : ∀ place chain s condition chain' body rest,
      q.Opens chain place.condition s condition chain' body →
      motive { place with condition } chain' body →
      motive place chain rest → motive place chain (s :: rest))
    (cyclic : ∀ place chain name rest, name ∈ chain → motive place chain rest →
      motive place chain (.spread name :: rest))
    (undefined : ∀ place chain name rest, name ∉ chain → Dict.find? name q.fragments = none →
      motive place chain rest → motive place chain (.spread name :: rest)) :
    ∀ place chain selections, motive place chain selections
  | place, chain, [] => nil place chain
  | place, chain, .field head body :: rest =>
    field place chain head body rest
      (fun inner => expand_induction nil field opens cyclic undefined inner chain body)
      (expand_induction nil field opens cyclic undefined place chain rest)
  | place, chain, .inline own body :: rest =>
    opens place chain _ _ chain body rest (.inline own body)
      (expand_induction nil field opens cyclic undefined _ chain body)
      (expand_induction nil field opens cyclic undefined place chain rest)
  | place, chain, .spread name :: rest =>
    have hrest := expand_induction nil field opens cyclic undefined place chain rest
    if old : name ∈ chain then cyclic place chain name rest old hrest
    else
      match found : Dict.find? name q.fragments with
      | none => undefined place chain name rest old found hrest
      | some fragment =>
        opens place chain _ _ (name :: chain) fragment.body rest (.spread old found)
          (expand_induction nil field opens cyclic undefined _ (name :: chain) fragment.body)
          hrest
termination_by _ chain selections => (q.fragments.unspread chain, sizeOf selections)
decreasing_by
  all_goals first
    | exact Prod.Lex.left _ _ (Fragments.unspread_cons_lt (by assumption) (by assumption))
    | (apply Prod.Lex.right
       simp only [List.cons.sizeOf_spec, Selection.field.sizeOf_spec, Selection.inline.sizeOf_spec]
       omega)

end Request

end SelectionTree
