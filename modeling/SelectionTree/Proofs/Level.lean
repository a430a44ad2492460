import SelectionTree.Proofs.Firsts
import SelectionTree.Proofs.Outcome
import SelectionTree.Schema
/-!
One level of a tree: the fields that are selected at a place once its fragments are expanded, and
the nodes that a conversion makes of them. However fragments are nested, a level has one node for
the first occurrence of each field.
-/
set_option autoImplicit false

namespace SelectionTree

/-- The response name of a field and the type it was selected on: that of the innermost type
condition, the type around it where there is no condition. -/
def Attributes.slot (a : Attributes) (parent : String) : String × String :=
  (a.responseName, a.condition.getD parent)

def Node.slot (n : Node) (parent : String) : String × String := n.attributes.slot parent

structure Selected where
  place : Place
  head : FieldHead
  body : List Selection

namespace Selected

def responseName (s : Selected) : String := s.head.responseName

def slot (s : Selected) : String × String :=
  (s.responseName, s.place.condition.getD s.place.parent.name)

def key (s : Selected) : String :=
  s.responseName ++ "." ++ s.place.condition.getD s.place.parent.name

end Selected

/-- A name without a full stop, as all names of the query language are. -/
def Undotted (name : String) : Prop := '.' ∉ name.toList

instance (name : String) : Decidable (Undotted name) :=
  inferInstanceAs (Decidable (_ ∉ _))

theorem append_dot_inj {m n s t : List Char} (hm : '.' ∉ m) (hn : '.' ∉ n) :
    m ++ '.' :: s = n ++ '.' :: t ↔ m = n ∧ s = t := by
  induction m generalizing n with
  | nil =>
    cases n with
    | nil => simp
    | cons c n =>
      simp only [List.mem_cons, not_or] at hn
      simp [hn.1]
  | cons c m ih =>
    simp only [List.mem_cons, not_or] at hm
    cases n with
    | nil => simp [Ne.symm hm.1]
    | cons d n =>
      simp only [List.mem_cons, not_or] at hn
      simp [ih hm.2 hn.2, and_assoc]

/-- Only response names have to be free of full stops for a key to be read in one way. -/
theorem Attributes.key_eq_key {a b : Attributes} (ha : Undotted a.responseName)
    (hb : Undotted b.responseName) (parent : String) :
    a.key parent = b.key parent ↔ a.slot parent = b.slot parent := by
  have h := append_dot_inj (s := (a.condition.getD parent).toList)
    (t := (b.condition.getD parent).toList) ha hb
  rw [key, key, ← String.toList_inj]
  simpa [slot, String.toList_inj] using h

theorem Node.nodup_keys {ns : List Node} (undotted : ∀ n ∈ ns, Undotted n.responseName)
    (once : (ns.map Node.responseName).Nodup) (parent : String) :
    (ns.map (Node.key · parent)).Nodup := by
  refine List.Nodup.map_on (fun x hx y hy keys => ?_) (List.Nodup.of_map _ once)
  have slots := (Attributes.key_eq_key (undotted x hx) (undotted y hy) parent).mp keys
  exact List.inj_on_of_nodup_map once hx hy (congrArg Prod.fst slots)

/-- The fields selected at a place, with fragments expanded, in the order in which they are
written. Spreads that cannot be expanded select nothing. -/
def Fragments.occurrences (fragments : Fragments) (place : Place) (chain : List String) :
    List Selection → List Selected
  | [] => []
  | .field head body :: rest => ⟨place, head, body⟩ :: fragments.occurrences place chain rest
  | .inline own body :: rest =>
    fragments.occurrences { place with condition := own <|> place.condition } chain body
      ++ fragments.occurrences place chain rest
  | .spread name :: rest =>
    (if _ : name ∈ chain then []
      else match _ : Dict.find? name fragments with
        | none => []
        | some fragment =>
          fragments.occurrences { place with condition := some fragment.condition } (name :: chain)
            fragment.body)
      ++ fragments.occurrences place chain rest
termination_by selections => (fragments.unspread chain, sizeOf selections)
decreasing_by
  all_goals first
    | exact Prod.Lex.left _ _ (Fragments.unspread_cons_lt (by assumption) (by assumption))
    | (apply Prod.Lex.right
       simp only [List.cons.sizeOf_spec, Selection.field.sizeOf_spec, Selection.inline.sizeOf_spec]
       omega)

namespace Fragments

variable {fragments : Fragments} {place : Place} {chain : List String} {name : String}
  {rest : List Selection}

theorem occurrences_spread_of_mem (old : name ∈ chain) :
    fragments.occurrences place chain (.spread name :: rest)
      = fragments.occurrences place chain rest := by
  rw [occurrences, dif_pos old, List.nil_append]

theorem occurrences_spread_of_none (new : name ∉ chain)
    (missing : Dict.find? name fragments = none) :
    fragments.occurrences place chain (.spread name :: rest)
      = fragments.occurrences place chain rest := by
  rw [occurrences, dif_neg new]
  split
  · rw [List.nil_append]
  · simp_all

theorem occurrences_spread {fragment : Fragment} (new : name ∉ chain)
    (found : Dict.find? name fragments = some fragment) :
    fragments.occurrences place chain (.spread name :: rest)
      = fragments.occurrences { place with condition := some fragment.condition } (name :: chain)
          fragment.body ++ fragments.occurrences place chain rest := by
  rw [occurrences, dif_neg new]
  split
  · simp_all
  · next h =>
    cases found.symm.trans h
    rfl

end Fragments

def Node.outline (n : Node) : Attributes × Bool := (n.attributes, n.children?.isSome)

namespace Request

variable {q : Request} {place : Place} {chain : List String} {level nodes : List Node}

def outline (q : Request) (s : Selected) : Attributes × Bool :=
  (q.attributes s.place s.head, !s.body.isEmpty)

theorem occurrences_opens {chain' : List String} {s : Selection} {condition : Option String}
    {body rest : List Selection} (h : q.Opens chain place.condition s condition chain' body) :
    q.fragments.occurrences place chain (s :: rest)
      = q.fragments.occurrences { place with condition } chain' body
          ++ q.fragments.occurrences place chain rest := by
  cases h with
  | inline own body => rw [Fragments.occurrences]
  | spread new found => exact Fragments.occurrences_spread new found

theorem parent_of_mem_occurrences {selections : List Selection} {s : Selected}
    (h : s ∈ q.fragments.occurrences place chain selections) : s.place.parent = place.parent := by
  induction place, chain, selections using expand_induction q with
  | nil place chain => simp [Fragments.occurrences] at h
  | field place chain head body rest _ hrest =>
    rw [Fragments.occurrences, List.mem_cons] at h
    rcases h with rfl | h
    · rfl
    · exact hrest h
  | opens place chain s condition chain' body rest opened hbody hrest =>
    rw [occurrences_opens opened, List.mem_append] at h
    exact h.elim hbody hrest
  | cyclic place chain name rest old hrest =>
    rw [Fragments.occurrences_spread_of_mem old] at h
    exact hrest h
  | undefined place chain name rest new missing hrest =>
    rw [Fragments.occurrences_spread_of_none new missing] at h
    exact hrest h

theorem outline_node {head : FieldHead} {body : List Selection} {n : Node}
    (h : q.node place chain head body = .ok n) : n.outline = q.outline ⟨place, head, body⟩ := by
  rcases node_eq_ok h with ⟨rfl, rfl⟩ | ⟨type, children, full, -, -, rfl⟩
  · rfl
  · simp [Node.outline, Node.children?, outline, full]

/-- Adding a node to a level leaves the outlines that are there and brings its own in if its key
is new. -/
theorem outlines_add {n : Node} {seen : List (Attributes × Bool)}
    (hlevel : level.map Node.outline = firsts (fun o => o.1.key place.parent.name) seen)
    (h : (q.add place level n).outcome = .ok nodes) :
    nodes.map Node.outline
      = firsts (fun o => o.1.key place.parent.name) (seen ++ [n.outline]) := by
  have keys : n.key place.parent.name ∈ seen.map (fun o => o.1.key place.parent.name) ↔
      ∃ x ∈ level, x.key place.parent.name = n.key place.parent.name := by
    rw [← mem_map_firsts, ← hlevel]
    simp [Node.outline, Node.key]
  rw [firsts_snoc, ← hlevel]
  rw [add, Node.outcome_addToLevel] at h
  rcases upsert_eq_ok h with ⟨none, rfl⟩ | ⟨before, x, after, y, rfl, -, here, absorbed, rfl⟩
  · rw [if_neg]
    · simp
    · intro mem
      obtain ⟨x, hx, e⟩ := keys.mp mem
      simpa [e] using none x hx
  · obtain ⟨attributes, children⟩ := Node.absorb_keeps absorbed
    rw [if_pos]
    · simp [Node.outline, attributes, children]
    · exact keys.mpr ⟨x, by simp, of_decide_eq_true here⟩

theorem outlines_addAll {ns : List Node} {seen : List (Attributes × Bool)}
    (hlevel : level.map Node.outline = firsts (fun o => o.1.key place.parent.name) seen)
    (h : (q.addAll place level ns).outcome = .ok nodes) :
    nodes.map Node.outline
      = firsts (fun o => o.1.key place.parent.name) (seen ++ ns.map Node.outline) := by
  induction ns generalizing level seen with
  | nil =>
    cases h
    simpa using hlevel
  | cons n rest ih =>
    rw [outcome_addAll_cons, bind_eq_ok] at h
    obtain ⟨next, added, h⟩ := h
    simpa using ih (outlines_add hlevel added) h

theorem outlines_expand (selections : List Selection) (seen : List (Attributes × Bool))
    (hlevel : level.map Node.outline = firsts (fun o => o.1.key place.parent.name) seen)
    (h : (q.expand place chain level selections).outcome = .ok nodes) :
    nodes.map Node.outline = firsts (fun o => o.1.key place.parent.name)
      (seen ++ (q.fragments.occurrences place chain selections).map q.outline) := by
  induction place, chain, selections using expand_induction q generalizing level seen nodes with
  | nil place chain =>
    cases (outcome_expand_nil q place chain level).symm.trans h
    simpa [Fragments.occurrences] using hlevel
  | field place chain head body rest _ hrest =>
    rw [outcome_expand_field, bind_eq_ok] at h
    obtain ⟨n, hn, h⟩ := h
    obtain ⟨next, added, h⟩ := bind_eq_ok.mp h
    rw [Fragments.occurrences]
    simpa [outline_node hn] using hrest _ (outlines_add hlevel added) h
  | opens place chain s condition chain' body rest opened hbody hrest =>
    rw [outcome_expand_opens q opened, bind_eq_ok] at h
    obtain ⟨inner, expanded, h⟩ := h
    obtain ⟨next, added, h⟩ := bind_eq_ok.mp h
    have inside := hbody [] rfl expanded
    have here := outlines_addAll hlevel added
    rw [inside, List.nil_append, firsts_append_firsts] at here
    rw [occurrences_opens opened]
    simpa using hrest _ here h
  | cyclic place chain name rest old _ =>
    rw [outcome_expand_spread_of_mem q place chain level rest old] at h
    cases h
  | undefined place chain name rest new missing _ =>
    rw [outcome_expand_spread_of_none q place chain level rest new missing] at h
    cases h

theorem nodup_keys_expand {selections : List Selection}
    (ok : (q.expand place chain [] selections).outcome = .ok nodes) :
    (nodes.map (Node.key · place.parent.name)).Nodup := by
  have level := nodup_map_firsts (fun o : Attributes × Bool => o.1.key place.parent.name)
    ((q.fragments.occurrences place chain selections).map q.outline)
  have outlines := outlines_expand selections [] rfl ok
  rw [List.nil_append] at outlines
  rw [← outlines, List.map_map] at level
  exact level

theorem add_of_new {n : Node}
    (new : n.key place.parent.name ∉ level.map (Node.key · place.parent.name)) :
    (q.add place level n).outcome = .ok (level ++ [n]) := by
  rw [add, Node.outcome_addToLevel]
  refine upsert_of_all_fail fun x hx => decide_eq_false fun same => new ?_
  exact same ▸ List.mem_map_of_mem hx

theorem addAll_of_new {ns : List Node}
    (once : ((level ++ ns).map (Node.key · place.parent.name)).Nodup) :
    (q.addAll place level ns).outcome = .ok (level ++ ns) := by
  induction ns generalizing level with
  | nil => rw [List.append_nil]; rfl
  | cons n rest ih =>
    have new : n.key place.parent.name ∉ level.map (Node.key · place.parent.name) := by
      rw [List.map_append, List.nodup_append'] at once
      exact fun mem => once.2.2 mem List.mem_cons_self
    rw [outcome_addAll_cons, add_of_new new, ok_bind, ih (by simpa using once), List.append_assoc]
    rfl

theorem outcome_expand_field_singleton (q : Request) (place : Place) (chain : List String)
    (head : FieldHead) (body : List Selection) :
    (q.expand place chain [] [.field head body]).outcome
      = q.node place chain head body >>= fun n => .ok [n] := by
  rw [outcome_expand_field]
  cases q.node place chain head body with
  | error e => rfl
  | ok n =>
    rw [ok_bind, add_of_new List.not_mem_nil, ok_bind, outcome_expand_nil]
    rfl

theorem outcome_expand_opens_singleton {chain' : List String} {s : Selection}
    {condition : Option String} {body : List Selection}
    (opened : q.Opens chain place.condition s condition chain' body) :
    (q.expand place chain [] [s]).outcome
      = (q.expand { place with condition } chain' [] body).outcome := by
  rw [outcome_expand_opens q opened]
  cases expanded : (q.expand { place with condition } chain' [] body).outcome with
  | error e => rfl
  | ok nodes =>
    have once := nodup_keys_expand expanded
    rw [ok_bind, addAll_of_new (by rwa [List.nil_append]), ok_bind, outcome_expand_nil]
    rfl

/-- A selection is expanded by itself, and the nodes that it brings are added to the level. -/
theorem outcome_expand_cons (q : Request) (place : Place) (chain : List String)
    (level : List Node) (s : Selection) (rest : List Selection) :
    (q.expand place chain level (s :: rest)).outcome = (do
      let nodes ← (q.expand place chain [] [s]).outcome
      let level ← (q.addAll place level nodes).outcome
      (q.expand place chain level rest).outcome) := by
  have opens : ∀ {condition chain' body}, q.Opens chain place.condition s condition chain' body →
      (q.expand place chain level (s :: rest)).outcome = (do
        let nodes ← (q.expand place chain [] [s]).outcome
        let level ← (q.addAll place level nodes).outcome
        (q.expand place chain level rest).outcome) := fun opened => by
    rw [outcome_expand_opens q opened, outcome_expand_opens_singleton opened]
  cases s with
  | field head body =>
    rw [outcome_expand_field, outcome_expand_field_singleton]
    cases q.node place chain head body with
    | error e => rfl
    | ok n =>
      simp only [ok_bind, outcome_addAll_cons]
      cases (q.add place level n).outcome <;> rfl
  | inline own body => exact opens (.inline own body)
  | spread name =>
    by_cases old : name ∈ chain
    · rw [outcome_expand_spread_of_mem q place chain level rest old,
        outcome_expand_spread_of_mem q place chain [] [] old]
      rfl
    · cases found : Dict.find? name q.fragments with
      | none =>
        rw [outcome_expand_spread_of_none q place chain level rest old found,
          outcome_expand_spread_of_none q place chain [] [] old found]
        rfl
      | some fragment => exact opens (.spread old found)

theorem outcome_expand_append (q : Request) (place : Place) (chain : List String)
    (level : List Node) (first second : List Selection) :
    (q.expand place chain level (first ++ second)).outcome
      = (q.expand place chain level first).outcome >>= fun level =>
          (q.expand place chain level second).outcome := by
  induction first generalizing level with
  | nil =>
    rw [List.nil_append, outcome_expand_nil]
    rfl
  | cons s rest ih =>
    rw [List.cons_append, outcome_expand_cons, outcome_expand_cons q place chain level s rest]
    simp only [ih, bind_assoc]

theorem slot_outline (s : Selected) : (q.outline s).1.slot s.place.parent.name = s.slot := rfl

theorem outlines_level {selections : List Selection}
    (names : ∀ s ∈ q.fragments.occurrences place chain selections, Undotted s.responseName)
    (ok : (q.expand place chain [] selections).outcome = .ok nodes) :
    nodes.map Node.outline
      = (firsts Selected.slot (q.fragments.occurrences place chain selections)).map q.outline := by
  have here := outlines_expand selections [] rfl ok
  rw [List.nil_append, ← map_firsts (fun o => o.1.key place.parent.name) q.outline] at here
  rw [here]
  congr 1
  apply firsts_congr
  intro s hs t ht
  -- a key is a text, and names without full stops make it as good as the slot
  have keys := Attributes.key_eq_key (a := (q.outline s).1) (b := (q.outline t).1) (names s hs)
    (names t ht) place.parent.name
  rw [keys, ← slot_outline (q := q) s, ← slot_outline (q := q) t, parent_of_mem_occurrences hs,
    parent_of_mem_occurrences ht]

/-- A level has one node for each response name and type among its fields, in the order in which
these first occur. The node says what the first of these fields says, and has a list of children
if that field has a selection set. -/
theorem expand_first_occurrences {selections : List Selection}
    (names : ∀ s ∈ q.fragments.occurrences place chain selections, Undotted s.responseName)
    (ok : (q.expand place chain [] selections).outcome = .ok nodes) :
    nodes.map (fun n => n.slot place.parent.name)
        = ((q.fragments.occurrences place chain selections).map Selected.slot).eraseDups ∧
      ∀ n ∈ nodes, ∃ s,
        (q.fragments.occurrences place chain selections).find?
            (fun s => s.slot = n.slot place.parent.name) = some s ∧
          n.attributes = q.attributes s.place s.head ∧ (n.children?.isSome ↔ s.body ≠ []) := by
  have level := outlines_level names ok
  have slots : ∀ s ∈ firsts Selected.slot (q.fragments.occurrences place chain selections),
      (q.outline s).1.slot place.parent.name = s.slot := fun s hs => by
    rw [← parent_of_mem_occurrences (mem_of_mem_firsts hs)]
    exact slot_outline s
  constructor
  · have outlined := congrArg (List.map fun o => o.1.slot place.parent.name) level
    rw [List.map_map, List.map_map] at outlined
    calc
      nodes.map (fun n => n.slot place.parent.name)
          = (firsts Selected.slot (q.fragments.occurrences place chain selections)).map
              Selected.slot := outlined.trans (List.map_congr_left slots)
      _ = _ := by rw [map_key_firsts, firsts_id]
  · intro n hn
    have mem : n.outline ∈ nodes.map Node.outline := List.mem_map_of_mem hn
    rw [level, List.mem_map] at mem
    obtain ⟨s, hs, outlined⟩ := mem
    have attributes : n.attributes = q.attributes s.place s.head := congrArg Prod.fst outlined.symm
    have body : n.children?.isSome = !s.body.isEmpty := congrArg Prod.snd outlined.symm
    refine ⟨s, ?_, attributes, by simp [body]⟩
    have slot : n.slot place.parent.name = s.slot := by
      rw [Node.slot, attributes]
      exact slots s hs
    rw [slot]
    exact find?_of_mem_firsts hs

end Request

namespace Films

def definitions : List Definition :=
  [.type false "Query" (.object [⟨"hero", .named "Character" true⟩]),
   .type false "Character" (.interface [⟨"id", .named "ID" false⟩, ⟨"name", .named "String" true⟩,
     ⟨"friends", .list (.named "Character" true) true⟩]),
   .type false "Droid" (.object [⟨"name", .named "String" true⟩,
     ⟨"friends", .list (.named "Character" true) true⟩])]

def schema : Schema := .ofDefinitions definitions

def select (name : String) (body : List Selection) : Selection :=
  .field { name } body

def names : Fragment := ⟨"Droid", [select "name" []]⟩

def circle : Fragment := ⟨"Character", [select "friends" [select "id" []], .spread "Names"]⟩

def request : Request where
  registry := schema.registry
  fragments := [("Names", names), ("Circle", circle)]

def root : Composite := ⟨"Query", .object, [⟨"hero", .named "Character" true⟩]⟩

def hero : Place :=
  ⟨⟨"Character", .interface, [⟨"id", .named "ID" false⟩, ⟨"name", .named "String" true⟩,
    ⟨"friends", .list (.named "Character" true) true⟩]⟩, "hero", none⟩

def selections : List Selection :=
  [select "friends" [select "name" []], .inline none [.spread "Circle", select "id" []],
   select "name" [], .inline (some "Droid") [select "name" []]]

end Films

open Films in
theorem expand_first_occurrences_hero :
    ∃ nodes, (request.expand hero [] [] selections).outcome = .ok nodes ∧
      nodes.map (fun n => n.slot "Character")
        = [("friends", "Character"), ("name", "Droid"), ("id", "Character"),
            ("name", "Character")] := by
  have names : ∀ s ∈ request.fragments.occurrences hero [] selections,
      Undotted s.responseName := by
    have checked : ((request.fragments.occurrences hero [] selections).all fun s =>
        decide (Undotted s.responseName)) = true := by cbv
    simpa using checked
  have converted : ∃ nodes, (request.expand hero [] [] selections).outcome = .ok nodes :=
    ⟨_, by cbv⟩
  obtain ⟨nodes, ok⟩ := converted
  have slots : ((request.fragments.occurrences hero [] selections).map Selected.slot).eraseDups
      = [("friends", "Character"), ("name", "Droid"), ("id", "Character"),
          ("name", "Character")] := by cbv
  exact ⟨nodes, ok, (Request.expand_first_occurrences names ok).1.trans slots⟩

end SelectionTree
