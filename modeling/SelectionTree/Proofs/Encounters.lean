import SelectionTree.Proofs.Outcome
/-!
What a conversion comes across, and what it reports of it. The selections of an operation are
unrolled: every fragment is followed by what it holds, a spread as often as it is written. A
conversion that succeeds reports each fragment of that row in its turn and each unbound variable of
its fields once; merges report neither.
-/
set_option autoImplicit false

namespace SelectionTree

namespace Literal

mutual

def mentions : Literal → List String
  | .var name => [name]
  | .list items => itemMentions items
  | .obj fields => fieldMentions fields
  | .null => []
  | .bool _ => []
  | .num _ => []
  | .str _ => []
  | .enum _ => []
  | .bin _ => []

def itemMentions : List Literal → List String
  | [] => []
  | l :: rest => l.mentions ++ itemMentions rest

def fieldMentions : List (String × Literal) → List String
  | [] => []
  | (_, l) :: rest => l.mentions ++ fieldMentions rest

end

def isUnbound (bindings : Option Bindings) (name : String) : Bool :=
  !(bound? bindings name).isSome

variable (bindings : Option Bindings)

mutual

theorem unbound_eq : (l : Literal) → l.unbound bindings = l.mentions.filter (isUnbound bindings)
  | .var name => by
    cases h : bound? bindings name <;> simp [unbound, mentions, isUnbound, h]
  | .list items => by rw [unbound, mentions, unboundItems_eq items]
  | .obj fields => by rw [unbound, mentions, unboundFields_eq fields]
  | .null => rfl
  | .bool _ => rfl
  | .num _ => rfl
  | .str _ => rfl
  | .enum _ => rfl
  | .bin _ => rfl

theorem unboundItems_eq : (items : List Literal) →
    unboundItems bindings items = (itemMentions items).filter (isUnbound bindings)
  | [] => rfl
  | l :: rest => by
    rw [unboundItems, itemMentions, List.filter_append, unbound_eq l, unboundItems_eq rest]

theorem unboundFields_eq : (fields : List (String × Literal)) →
    unboundFields bindings fields = (fieldMentions fields).filter (isUnbound bindings)
  | [] => rfl
  | (_, l) :: rest => by
    rw [unboundFields, fieldMentions, List.filter_append, unbound_eq l, unboundFields_eq rest]

end

end Literal

def FieldHead.mentions (head : FieldHead) : List String :=
  Literal.fieldMentions head.arguments
    ++ head.directives.flatMap fun d => Literal.fieldMentions d.arguments

theorem FieldHead.unbound_eq (head : FieldHead) (bindings : Option Bindings) :
    head.unbound bindings = head.mentions.filter (Literal.isUnbound bindings) := by
  rw [unbound, mentions, List.filter_append, List.filter_flatMap, Literal.unboundFields_eq]
  simp only [Literal.unboundFields_eq]

/-- What a conversion comes across: a field, or a fragment with the type condition that holds for
the fields in it. -/
inductive Encounter where
  | field (head : FieldHead)
  | inline (condition : Option String)
  | spread (fragment condition : String)

namespace Encounter

def isFragment : Encounter → Bool
  | field _ => false
  | inline _ => true
  | spread _ _ => true

def unbound (bindings : Option Bindings) : Encounter → List String
  | field head => head.mentions.filter (Literal.isUnbound bindings)
  | inline _ => []
  | spread _ _ => []

end Encounter

/-- Selections with everything in them, in the order in which it is written and depth first. A
spread is followed by what its fragment holds, each time anew; selections cannot be unrolled if they
spread a fragment that is not defined or, below itself, one of the chain. -/
def Fragments.unroll? (fragments : Fragments) (condition : Option String) (chain : List String) :
    List Selection → Option (List Encounter)
  | [] => some []
  | .field head body :: rest => do
    let inside ← fragments.unroll? none chain body
    let behind ← fragments.unroll? condition chain rest
    some (.field head :: (inside ++ behind))
  | .inline own body :: rest => do
    let inside ← fragments.unroll? (own <|> condition) chain body
    let behind ← fragments.unroll? condition chain rest
    some (.inline (own <|> condition) :: (inside ++ behind))
  | .spread name :: rest =>
    if _ : name ∈ chain then none
    else
      match _ : Dict.find? name fragments with
      | none => none
      | some fragment => do
        let inside ← fragments.unroll? (some fragment.condition) (name :: chain) fragment.body
        let behind ← fragments.unroll? condition chain rest
        some (.spread name fragment.condition :: (inside ++ behind))
termination_by selections => (fragments.unspread chain, sizeOf selections)
decreasing_by
  all_goals first
    | exact Prod.Lex.left _ _ (Fragments.unspread_cons_lt (by assumption) (by assumption))
    | (apply Prod.Lex.right
       simp only [List.cons.sizeOf_spec, Selection.field.sizeOf_spec, Selection.inline.sizeOf_spec]
       omega)

namespace Fragments

variable {fragments : Fragments} {condition : Option String} {chain : List String}
  {inside behind : List Encounter}

theorem unroll?_nil : fragments.unroll? condition chain [] = some [] := by rw [unroll?]

theorem unroll?_field {head : FieldHead} {body rest : List Selection}
    (h : fragments.unroll? none chain body = some inside)
    (h' : fragments.unroll? condition chain rest = some behind) :
    fragments.unroll? condition chain (.field head body :: rest)
      = some (.field head :: (inside ++ behind)) := by
  rw [unroll?, h, h']
  rfl

theorem unroll?_inline {own : Option String} {body rest : List Selection}
    (h : fragments.unroll? (own <|> condition) chain body = some inside)
    (h' : fragments.unroll? condition chain rest = some behind) :
    fragments.unroll? condition chain (.inline own body :: rest)
      = some (.inline (own <|> condition) :: (inside ++ behind)) := by
  rw [unroll?, h, h']
  rfl

theorem unroll?_spread {name : String} {fragment : Fragment} {rest : List Selection}
    (new : name ∉ chain) (found : Dict.find? name fragments = some fragment)
    (h : fragments.unroll? (some fragment.condition) (name :: chain) fragment.body = some inside)
    (h' : fragments.unroll? condition chain rest = some behind) :
    fragments.unroll? condition chain (.spread name :: rest)
      = some (.spread name fragment.condition :: (inside ++ behind)) := by
  rw [unroll?, dif_neg new]
  split
  · next missing => cases found.symm.trans missing
  · next found' =>
    cases found.symm.trans found'
    rw [h, h']
    rfl

end Fragments

namespace Run

variable {ε α β : Type}

/-- A run that goes on and succeeds has the events of its two parts, one after the other. -/
theorem bind_eq_ok {r : Run ε α} {f : α → Run ε β} {b : β} (ok : (r >>= f).outcome = .ok b) :
    ∃ a, r.outcome = .ok a ∧ (f a).outcome = .ok b ∧
      (r >>= f).events = r.events ++ (f a).events := by
  have same : r >>= f = Run.bind r f := rfl
  rw [same, Run.bind] at ok ⊢
  cases ended : r.outcome with
  | error e =>
    rw [ended] at ok
    cases ok
  | ok a =>
    rw [ended] at ok
    exact ⟨a, rfl, ok, rfl⟩

theorem bind_assoc {γ : Type} (r : Run ε α) (f : α → Run ε β) (g : β → Run ε γ) :
    r >>= f >>= g = r >>= fun a => f a >>= g := by
  show Run.bind (Run.bind r f) g = Run.bind r fun a => Run.bind (f a) g
  unfold Run.bind
  cases r.outcome with
  | error e => rfl
  | ok a =>
    dsimp only
    cases (f a).outcome with
    | error e => rfl
    | ok b => simp only [List.append_assoc]

theorem pure_bind (a : α) (f : α → Run ε β) : (Pure.pure a : Run ε α) >>= f = f a := by
  show Run.bind (Run.pure a) f = f a
  simp only [Run.bind, Run.pure, List.nil_append]

theorem mem_events_bind {r : Run ε α} {f : α → Run ε β} {e : Event}
    (h : e ∈ (r >>= f).events) : e ∈ r.events ∨ ∃ a, e ∈ (f a).events := by
  have same : r >>= f = Run.bind r f := rfl
  rw [same, Run.bind] at h
  split at h
  · exact Or.inl h
  · next a _ => exact (List.mem_append.mp h).imp_right fun later => ⟨a, later⟩

end Run

theorem mem_events_upsert {ε α : Type} {test : α → Bool} {update : α → Run ε α} {new : α}
    {xs : List α} {e : Event} (h : e ∈ (upsert test update new xs).events) :
    ∃ x, e ∈ (update x).events := by
  induction xs with
  | nil => cases h
  | cons x xs ih =>
    rw [upsert] at h
    split at h
    · rcases Run.mem_events_bind h with here | ⟨y, later⟩
      · exact ⟨x, here⟩
      · cases later
    · rcases Run.mem_events_bind h with here | ⟨ys, later⟩
      · exact ih here
      · cases later

namespace Event

def fragment? : Event → Option Encounter
  | inlineExpanded condition => some (.inline condition)
  | spreadExpanded fragment condition => some (.spread fragment condition)
  | opened _ => none
  | closed _ => none
  | unboundVariable _ => none
  | selectionsDiscarded _ => none
  | treeConverted _ => none
  | schemaLoaded _ => none
  | variablesIgnored _ => none

def unboundName? : Event → Option String
  | unboundVariable name => some name
  | opened _ => none
  | closed _ => none
  | inlineExpanded _ => none
  | spreadExpanded _ _ => none
  | selectionsDiscarded _ => none
  | treeConverted _ => none
  | schemaLoaded _ => none
  | variablesIgnored _ => none

def isBoundary : Event → Bool
  | opened _ => true
  | closed _ => true
  | inlineExpanded _ => false
  | spreadExpanded _ _ => false
  | unboundVariable _ => false
  | selectionsDiscarded _ => false
  | treeConverted _ => false
  | schemaLoaded _ => false
  | variablesIgnored _ => false

end Event

structure Reports (bindings : Option Bindings) (events : List Event) (met : List Encounter) :
    Prop where
  inner : ∀ e ∈ events, e.isBoundary = false
  fragments : events.filterMap Event.fragment? = met.filter Encounter.isFragment
  unbound : (events.filterMap Event.unboundName?).Perm (met.flatMap (Encounter.unbound bindings))

namespace Reports

variable {bindings : Option Bindings} {events events' : List Event} {met met' : List Encounter}

theorem append (h : Reports bindings events met) (h' : Reports bindings events' met') :
    Reports bindings (events ++ events') (met ++ met') where
  inner := List.forall_mem_append.mpr ⟨h.inner, h'.inner⟩
  fragments := by rw [List.filterMap_append, List.filter_append, h.fragments, h'.fragments]
  unbound := by
    rw [List.filterMap_append, List.flatMap_append]
    exact h.unbound.append h'.unbound

theorem of_discards (h : ∀ e ∈ events, ∃ field, e = .selectionsDiscarded field) :
    Reports bindings events [] where
  inner e he := by
    obtain ⟨field, rfl⟩ := h e he
    rfl
  fragments := List.filterMap_eq_nil_iff.mpr fun e he => by
    obtain ⟨field, rfl⟩ := h e he
    rfl
  unbound := by
    rw [List.filterMap_eq_nil_iff.mpr]
    · exact .nil
    · intro e he
      obtain ⟨field, rfl⟩ := h e he
      rfl

theorem nil : Reports bindings [] [] := of_discards fun _ h => absurd h List.not_mem_nil

theorem inline (condition : Option String) :
    Reports bindings [.inlineExpanded condition] [.inline condition] where
  inner := List.forall_mem_singleton.mpr rfl
  fragments := rfl
  unbound := .nil

theorem spread (fragment condition : String) :
    Reports bindings [.spreadExpanded fragment condition] [.spread fragment condition] where
  inner := List.forall_mem_singleton.mpr rfl
  fragments := rfl
  unbound := .nil

theorem field (head : FieldHead) (h : Reports bindings events met) :
    Reports bindings (events ++ (head.unbound bindings).map .unboundVariable)
      (.field head :: met) where
  inner := by
    refine List.forall_mem_append.mpr ⟨h.inner, fun e he => ?_⟩
    obtain ⟨name, -, rfl⟩ := List.mem_map.mp he
    rfl
  fragments := by
    have none : ((head.unbound bindings).map Event.unboundVariable).filterMap Event.fragment?
        = [] :=
      List.filterMap_eq_nil_iff.mpr fun e he => by
        obtain ⟨name, -, rfl⟩ := List.mem_map.mp he
        rfl
    rw [List.filterMap_append, none, List.append_nil]
    exact h.fragments
  unbound := by
    have own : ((head.unbound bindings).map Event.unboundVariable).filterMap Event.unboundName?
        = Encounter.unbound bindings (.field head) := by
      rw [List.filterMap_map, head.unbound_eq]
      exact List.filterMap_some
    rw [List.filterMap_append, own, List.flatMap_cons]
    exact (List.perm_append_comm).trans (h.unbound.append_left _)

end Reports

namespace Node

variable {r : Registry} {parent : Composite} {path : String} {e : Event}

theorem discards_absorb {again first : Node} (h : e ∈ (absorb r parent path again first).events) :
    ∃ field, e = .selectionsDiscarded field := by
  cases again with
  | leaf b => cases h
  | branch b more =>
    cases first with
    | leaf a =>
      rcases Run.mem_events_bind h with here | ⟨_, later⟩
      · exact ⟨_, List.mem_singleton.mp here⟩
      · cases later
    | branch a children =>
      rcases Run.mem_events_bind h with here | ⟨_, later⟩
      · cases here
      rcases Run.mem_events_bind later with here | ⟨_, later⟩
      · cases here
      · cases later

end Node

namespace Request

variable {q : Request} {place : Place} {chain : List String} {level nodes : List Node}

theorem discards_add {n : Node} {e : Event} (h : e ∈ (q.add place level n).events) :
    ∃ field, e = .selectionsDiscarded field := by
  obtain ⟨x, here⟩ := mem_events_upsert h
  exact Node.discards_absorb here

theorem discards_addAll {ns : List Node} {e : Event} (h : e ∈ (q.addAll place level ns).events) :
    ∃ field, e = .selectionsDiscarded field := by
  induction ns generalizing level with
  | nil => cases h
  | cons n rest ih =>
    rw [addAll] at h
    rcases Run.mem_events_bind h with here | ⟨next, later⟩
    · exact discards_add here
    · exact ih later

theorem reports_add (n : Node) : Reports q.bindings (q.add place level n).events [] :=
  .of_discards fun _ => discards_add

theorem reports_addAll (ns : List Node) : Reports q.bindings (q.addAll place level ns).events [] :=
  .of_discards fun _ => discards_addAll

def below (q : Request) (place : Place) (chain : List String) (head : FieldHead)
    (body : List Selection) : Run ConversionError (Option (List Node)) :=
  if body.isEmpty then pure none
  else do
    let inner ← Run.ofExcept (q.enter place head)
    let nodes ← q.expand inner chain [] body
    pure (some nodes)

theorem expand_field (head : FieldHead) (body rest : List Selection) :
    q.expand place chain level (.field head body :: rest) = (do
      let children ← q.below place chain head body
      Run.tell ((head.unbound q.bindings).map .unboundVariable)
      let level ← q.add place level (Node.ofChildren (q.attributes place head) children)
      q.expand place chain level rest) := by
  rw [expand, below]
  split <;> simp only [Run.bind_assoc, Run.pure_bind]

def opened (q : Request) (e : Event) (inner : Place) (chain' : List String) (body : List Selection)
    (place : Place) (chain : List String) (level : List Node) (rest : List Selection) :
    Run ConversionError (List Node) := do
  Run.tell [e]
  let nodes ← q.expand inner chain' [] body
  let level ← q.addAll place level nodes
  q.expand place chain level rest

theorem expand_spread {name : String} {fragment : Fragment} {rest : List Selection}
    (new : name ∉ chain) (found : Dict.find? name q.fragments = some fragment) :
    q.expand place chain level (.spread name :: rest)
      = q.opened (.spreadExpanded name fragment.condition)
          { place with condition := some fragment.condition } (name :: chain) fragment.body
          place chain level rest := by
  rw [expand, dif_neg new]
  split
  · next missing => cases found.symm.trans missing
  · next found' =>
    cases found.symm.trans found'
    rfl

theorem condition_of_enter {head : FieldHead} {inner : Place}
    (entered : q.enter place head = .ok inner) : inner.condition = none := by
  unfold enter at entered
  split at entered
  · cases entered
    rfl
  · cases entered

theorem reports_below {head : FieldHead} {body : List Selection} {children : Option (List Node)}
    (ok : (q.below place chain head body).outcome = .ok children)
    (inside : ∀ inner {nodes}, (q.expand inner chain [] body).outcome = .ok nodes →
      ∃ met, q.fragments.unroll? inner.condition chain body = some met ∧
        Reports q.bindings (q.expand inner chain [] body).events met) :
    ∃ met, q.fragments.unroll? none chain body = some met ∧
      Reports q.bindings (q.below place chain head body).events met := by
  unfold below at ok ⊢
  split at ok
  · next empty =>
    rw [if_pos empty, List.isEmpty_iff.mp empty]
    exact ⟨[], Fragments.unroll?_nil, .nil⟩
  · next full =>
    obtain ⟨inner, entered, ok, first⟩ := Run.bind_eq_ok ok
    obtain ⟨nodes, ok, -, second⟩ := Run.bind_eq_ok ok
    obtain ⟨met, unrolled, reports⟩ := inside inner ok
    rw [condition_of_enter entered] at unrolled
    refine ⟨met, unrolled, ?_⟩
    rw [if_neg full, first, second, Run.events_pure, List.append_nil]
    exact reports

theorem reports_opened {e : Event} {entry : Encounter} (told : Reports q.bindings [e] [entry])
    {inner : Place} {chain' : List String} {body rest : List Selection}
    (ok : (q.opened e inner chain' body place chain level rest).outcome = .ok nodes)
    (inside : ∀ {below}, (q.expand inner chain' [] body).outcome = .ok below →
      ∃ met, q.fragments.unroll? inner.condition chain' body = some met ∧
        Reports q.bindings (q.expand inner chain' [] body).events met)
    (behind : ∀ {next}, (q.expand place chain next rest).outcome = .ok nodes →
      ∃ met, q.fragments.unroll? place.condition chain rest = some met ∧
        Reports q.bindings (q.expand place chain next rest).events met) :
    ∃ met met', q.fragments.unroll? inner.condition chain' body = some met ∧
      q.fragments.unroll? place.condition chain rest = some met' ∧
      Reports q.bindings (q.opened e inner chain' body place chain level rest).events
        (entry :: (met ++ met')) := by
  obtain ⟨_, -, ok, first⟩ := Run.bind_eq_ok ok
  obtain ⟨below, expanded, ok, second⟩ := Run.bind_eq_ok ok
  obtain ⟨next, -, ok, third⟩ := Run.bind_eq_ok ok
  obtain ⟨met, unrolled, reports⟩ := inside expanded
  obtain ⟨met', unrolled', reports'⟩ := behind ok
  refine ⟨met, met', unrolled, unrolled', ?_⟩
  rw [opened, first, second, third]
  exact told.append (reports.append ((reports_addAll _).append reports'))

/-- An expansion that succeeds reports what its selections unroll to. -/
theorem reports_expand {selections : List Selection}
    (ok : (q.expand place chain level selections).outcome = .ok nodes) :
    ∃ met, q.fragments.unroll? place.condition chain selections = some met ∧
      Reports q.bindings (q.expand place chain level selections).events met := by
  induction place, chain, selections using expand_induction q generalizing level nodes with
  | nil place chain =>
    rw [expand]
    exact ⟨[], Fragments.unroll?_nil, .nil⟩
  | field place chain head body rest hbody hrest =>
    rw [expand_field] at ok ⊢
    obtain ⟨children, below, ok, first⟩ := Run.bind_eq_ok ok
    obtain ⟨_, -, ok, second⟩ := Run.bind_eq_ok ok
    obtain ⟨next, -, ok, third⟩ := Run.bind_eq_ok ok
    obtain ⟨inside, unrolled, reports⟩ := reports_below below fun inner => hbody inner
    obtain ⟨behind, unrolled', reports'⟩ := hrest ok
    refine ⟨_, Fragments.unroll?_field unrolled unrolled', ?_⟩
    rw [first, second, third, ← List.append_assoc]
    exact (reports.field head).append ((reports_add _).append reports')
  | opens place chain s condition chain' body rest opens hbody hrest =>
    cases opens with
    | inline own body =>
      have same : q.expand place chain level (.inline own body :: rest)
          = q.opened (.inlineExpanded (own <|> place.condition))
              { place with condition := own <|> place.condition } chain body
              place chain level rest := by
        rw [expand]
        rfl
      rw [same] at ok ⊢
      obtain ⟨_, _, unrolled, unrolled', reports⟩ := reports_opened (.inline _) ok hbody hrest
      exact ⟨_, Fragments.unroll?_inline unrolled unrolled', reports⟩
    | spread new found =>
      rw [expand_spread new found] at ok ⊢
      obtain ⟨_, _, unrolled, unrolled', reports⟩ := reports_opened (.spread _ _) ok hbody hrest
      exact ⟨_, Fragments.unroll?_spread new found unrolled unrolled', reports⟩
  | cyclic place chain name rest old _ =>
    rw [outcome_expand_spread_of_mem q place chain level rest old] at ok
    cases ok
  | undefined place chain name rest new missing _ =>
    rw [outcome_expand_spread_of_none q place chain level rest new missing] at ok
    cases ok

/-- A conversion that succeeds reports what its operation unrolls to, then the tree. -/
theorem reports_convert {operation : Operation} {tree : Tree}
    (ok : (q.convert operation).outcome = .ok tree) :
    ∃ events met, q.fragments.unroll? none [] operation.selections = some met ∧
      Reports q.bindings events met ∧ (q.convert operation).events
        = .opened (.conversion operation.kind) :: (events ++ [.treeConverted tree])
            ++ [.closed (.conversion operation.kind)] := by
  obtain ⟨root, ended, ok, first⟩ := Run.bind_eq_ok (show (q.tree operation).outcome = _ from ok)
  obtain ⟨nodes, expanded, ok, second⟩ := Run.bind_eq_ok ok
  obtain ⟨met, unrolled, reports⟩ := reports_expand expanded
  refine ⟨_, met, unrolled, reports, ?_⟩
  have same : (q.tree operation).events
      = (q.expand ⟨root, "", none⟩ [] [] operation.selections).events ++ [.treeConverted tree] := by
    cases ok
    exact first.trans second
  rw [convert, Run.within, same]

end Request

end SelectionTree
