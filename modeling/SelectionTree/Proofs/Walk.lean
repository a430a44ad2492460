import SelectionTree.Proofs.Level
/-!
The walk over an operation: field selections in the order in which they are met, depth first, with
fields entered and fragments expanded, up to the first offence. The walk knows nothing of nodes, so
it is what the tree of an operation is compared with.
-/
set_option autoImplicit false

namespace SelectionTree

inductive Offence where
  | cyclic (fragment : String)
  | undefined (fragment : String)
  | mismatch (path : List String)
  deriving DecidableEq, Repr

/-- The error of an offence. A field is named by its path, with full stops between the names. -/
def Offence.error : Offence → ConversionError
  | cyclic fragment => .cyclicFragment fragment
  | undefined fragment => .unknownFragment fragment
  | mismatch path => .schemaMismatch (".".intercalate path)

structure Visit where
  above : List Selected
  here : Selected

namespace Visit

def trail (v : Visit) : List Selected := v.above ++ [v.here]

def path (v : Visit) : List String := v.trail.map Selected.responseName

/-- The response names from the root to this one, each with the type its field was selected on. -/
def slots (v : Visit) : List (String × String) := v.trail.map Selected.slot

theorem path_eq (v : Visit) :
    v.path = v.above.map Selected.responseName ++ [v.here.responseName] := List.map_append

theorem slots_eq (v : Visit) : v.slots = v.above.map Selected.slot ++ [v.here.slot] :=
  List.map_append

end Visit

structure Walk where
  visits : List Visit := []
  offence : Option Offence := none

namespace Walk

def stopped (o : Offence) : Walk := { offence := some o }

def visit (v : Visit) (w : Walk) : Walk := { w with visits := v :: w.visits }

def andThen (w w' : Walk) : Walk :=
  match w.offence with
  | some _ => w
  | none => ⟨w.visits ++ w'.visits, w'.offence⟩

@[simp] theorem visits_visit (v : Visit) (w : Walk) : (w.visit v).visits = v :: w.visits := rfl

@[simp] theorem offence_visit (v : Visit) (w : Walk) : (w.visit v).offence = w.offence := rfl

theorem offence_andThen (w w' : Walk) : (w.andThen w').offence = w.offence.or w'.offence := by
  unfold andThen
  cases h : w.offence <;> simp [h]

theorem visits_andThen {w w' : Walk} (h : w.offence = none) :
    (w.andThen w').visits = w.visits ++ w'.visits := by
  simp [andThen, h]

theorem andThen_of_offence {w w' : Walk} (h : w.offence ≠ none) : w.andThen w' = w := by
  unfold andThen
  cases offence : w.offence with
  | none => exact absurd offence h
  | some o => rfl

@[simp] theorem andThen_empty (w : Walk) : w.andThen {} = w := by
  unfold andThen
  split
  · rfl
  · next h => rw [List.append_nil, ← h]

theorem andThen_assoc (w w' w'' : Walk) :
    (w.andThen w').andThen w'' = w.andThen (w'.andThen w'') := by
  by_cases h : w.offence = none
  · unfold andThen
    cases h' : w'.offence <;> simp [h, h']
  · rw [andThen_of_offence h, andThen_of_offence h, andThen_of_offence h]

theorem sublist_andThen (w w' : Walk) : w.visits.Sublist (w.andThen w').visits := by
  unfold andThen
  split
  · exact List.Sublist.refl _
  · exact List.sublist_append_left _ _

theorem mem_andThen_left {w w' : Walk} {v : Visit} (h : v ∈ w.visits) :
    v ∈ (w.andThen w').visits := (w.sublist_andThen w').subset h

theorem sublist_andThen_right {w w' : Walk} (ended : w.offence = none) :
    w'.visits.Sublist (w.andThen w').visits := by
  rw [visits_andThen ended]
  exact List.sublist_append_right _ _

theorem mem_andThen_right {w w' : Walk} {v : Visit} (ended : w.offence = none)
    (h : v ∈ w'.visits) : v ∈ (w.andThen w').visits := (sublist_andThen_right ended).subset h

theorem mem_or_mem_of_mem_andThen {w w' : Walk} {v : Visit} (h : v ∈ (w.andThen w').visits) :
    v ∈ w.visits ∨ v ∈ w'.visits := by
  unfold andThen at h
  split at h
  · exact Or.inl h
  · exact List.mem_append.mp h

end Walk

/-- The walk over the selections at a place. `above` holds the fields around them and `chain` the
fragments that are being expanded. -/
def Request.walk (q : Request) (above : List Selected) (place : Place) (chain : List String) :
    List Selection → Walk
  | [] => {}
  | .field head body :: rest =>
    let here : Selected := ⟨place, head, body⟩
    let inside : Walk :=
      if body.isEmpty then {}
      else
        match q.registry.nested? place.parent place.condition head.name with
        | none => .stopped (.mismatch ((above ++ [here]).map Selected.responseName))
        | some type => q.walk (above ++ [here]) (place.below head type) chain body
    (inside.visit ⟨above, here⟩).andThen (q.walk above place chain rest)
  | .inline own body :: rest =>
    (q.walk above { place with condition := own <|> place.condition } chain body).andThen
      (q.walk above place chain rest)
  | .spread name :: rest =>
    if _ : name ∈ chain then .stopped (.cyclic name)
    else
      match _ : Dict.find? name q.fragments with
      | none => .stopped (.undefined name)
      | some fragment =>
        (q.walk above { place with condition := some fragment.condition } (name :: chain)
          fragment.body).andThen (q.walk above place chain rest)
termination_by selections => (q.fragments.unspread chain, sizeOf selections)
decreasing_by
  all_goals first
    | exact Prod.Lex.left _ _ (Fragments.unspread_cons_lt (by assumption) (by assumption))
    | (apply Prod.Lex.right
       simp only [List.cons.sizeOf_spec, Selection.field.sizeOf_spec, Selection.inline.sizeOf_spec]
       omega)

def Request.tour (q : Request) (root : Composite) (operation : Operation) : Walk :=
  q.walk [] ⟨root, "", none⟩ [] operation.selections

namespace Request

variable {q : Request} {above : List Selected} {place : Place} {chain : List String}
  {level nodes : List Node}

def inside (q : Request) (above : List Selected) (place : Place) (chain : List String)
    (head : FieldHead) (body : List Selection) : Walk :=
  let here : Selected := ⟨place, head, body⟩
  if body.isEmpty then {}
  else
    match q.registry.nested? place.parent place.condition head.name with
    | none => .stopped (.mismatch ((above ++ [here]).map Selected.responseName))
    | some type => q.walk (above ++ [here]) (place.below head type) chain body

theorem walk_field (head : FieldHead) (body rest : List Selection) :
    q.walk above place chain (.field head body :: rest)
      = ((q.inside above place chain head body).visit ⟨above, ⟨place, head, body⟩⟩).andThen
          (q.walk above place chain rest) := by
  rw [walk, inside]

theorem walk_spread_of_mem {name : String} {rest : List Selection} (old : name ∈ chain) :
    q.walk above place chain (.spread name :: rest) = .stopped (.cyclic name) := by
  rw [walk, dif_pos old]

theorem walk_spread_of_none {name : String} {rest : List Selection} (new : name ∉ chain)
    (missing : Dict.find? name q.fragments = none) :
    q.walk above place chain (.spread name :: rest) = .stopped (.undefined name) := by
  rw [walk, dif_neg new]
  split
  · rfl
  · simp_all

theorem walk_spread {name : String} {fragment : Fragment} {rest : List Selection}
    (new : name ∉ chain) (found : Dict.find? name q.fragments = some fragment) :
    q.walk above place chain (.spread name :: rest)
      = (q.walk above { place with condition := some fragment.condition } (name :: chain)
          fragment.body).andThen (q.walk above place chain rest) := by
  rw [walk, dif_neg new]
  split
  · simp_all
  · next h =>
    cases found.symm.trans h
    rfl

theorem walk_opens {chain' : List String} {s : Selection} {condition : Option String}
    {body rest : List Selection} (h : q.Opens chain place.condition s condition chain' body) :
    q.walk above place chain (s :: rest)
      = (q.walk above { place with condition } chain' body).andThen
          (q.walk above place chain rest) := by
  cases h with
  | inline own body => rw [walk]
  | spread new found => exact walk_spread new found

theorem walk_cons (s : Selection) (rest : List Selection) :
    q.walk above place chain (s :: rest)
      = (q.walk above place chain [s]).andThen (q.walk above place chain rest) := by
  have nil : q.walk above place chain [] = {} := by rw [walk]
  have opens : ∀ {condition chain' body}, q.Opens chain place.condition s condition chain' body →
      q.walk above place chain (s :: rest)
        = (q.walk above place chain [s]).andThen (q.walk above place chain rest) := fun opened => by
    rw [walk_opens opened, walk_opens opened, nil, Walk.andThen_empty]
  cases s with
  | field head body => rw [walk_field, walk_field, nil, Walk.andThen_empty]
  | inline own body => exact opens (.inline own body)
  | spread name =>
    by_cases old : name ∈ chain
    · rw [walk_spread_of_mem old, walk_spread_of_mem old]
      rfl
    · cases found : Dict.find? name q.fragments with
      | none =>
        rw [walk_spread_of_none old found, walk_spread_of_none old found]
        rfl
      | some fragment => exact opens (.spread old found)

theorem walk_append (first second : List Selection) :
    q.walk above place chain (first ++ second)
      = (q.walk above place chain first).andThen (q.walk above place chain second) := by
  induction first with
  | nil =>
    rw [List.nil_append, show q.walk above place chain [] = {} by rw [walk]]
    rfl
  | cons s rest ih => rw [List.cons_append, walk_cons, ih, walk_cons s rest, Walk.andThen_assoc]

theorem inside_nil (head : FieldHead) : q.inside above place chain head [] = {} := rfl

theorem inside_of_none {head : FieldHead} {body : List Selection} (full : body ≠ [])
    (missing : q.registry.nested? place.parent place.condition head.name = none) :
    q.inside above place chain head body
      = .stopped (.mismatch ((above.map Selected.responseName) ++ [head.responseName])) := by
  simp [inside, full, missing, Selected.responseName]

theorem inside_of_some {head : FieldHead} {body : List Selection} {type : Composite}
    (full : body ≠ [])
    (nested : q.registry.nested? place.parent place.condition head.name = some type) :
    q.inside above place chain head body
      = q.walk (above ++ [⟨place, head, body⟩]) (place.below head type) chain body := by
  simp [inside, full, nested]

theorem inside_cases (q : Request) (above : List Selected) (place : Place) (chain : List String)
    (head : FieldHead) (body : List Selection) :
    body = [] ∧ q.inside above place chain head body = {} ∨
      (body ≠ [] ∧ q.registry.nested? place.parent place.condition head.name = none ∧
        q.inside above place chain head body
          = .stopped (.mismatch (above.map Selected.responseName ++ [head.responseName]))) ∨
      ∃ type, body ≠ [] ∧ q.registry.nested? place.parent place.condition head.name = some type ∧
        q.inside above place chain head body
          = q.walk (above ++ [⟨place, head, body⟩]) (place.below head type) chain body := by
  by_cases full : body = []
  · subst full
    exact Or.inl ⟨rfl, inside_nil head⟩
  · cases nested : q.registry.nested? place.parent place.condition head.name with
    | none => exact Or.inr (Or.inl ⟨full, rfl, inside_of_none full nested⟩)
    | some type => exact Or.inr (Or.inr ⟨type, full, rfl, inside_of_some full nested⟩)

theorem here_mem_walk {head : FieldHead} {body rest : List Selection} :
    ⟨above, ⟨place, head, body⟩⟩
      ∈ (q.walk above place chain (.field head body :: rest)).visits := by
  rw [walk_field]
  exact Walk.mem_andThen_left List.mem_cons_self

theorem sublist_walk_of_below {head : FieldHead} {body rest : List Selection} {type : Composite}
    (full : body ≠ [])
    (nested : q.registry.nested? place.parent place.condition head.name = some type) :
    (q.walk (above ++ [⟨place, head, body⟩]) (place.below head type) chain body).visits.Sublist
      (q.walk above place chain (.field head body :: rest)).visits := by
  rw [walk_field, inside_of_some full nested]
  refine List.Sublist.trans ?_ (Walk.sublist_andThen _ _)
  exact List.sublist_cons_self _ _

theorem mem_walk_of_below {head : FieldHead} {body rest : List Selection} {type : Composite}
    (full : body ≠ [])
    (nested : q.registry.nested? place.parent place.condition head.name = some type) {v : Visit}
    (h : v ∈ (q.walk (above ++ [⟨place, head, body⟩]) (place.below head type) chain body).visits) :
    v ∈ (q.walk above place chain (.field head body :: rest)).visits :=
  (sublist_walk_of_below full nested).subset h

theorem sublist_walk_of_rest {head : FieldHead} {body rest : List Selection}
    (ended : (q.inside above place chain head body).offence = none) :
    (q.walk above place chain rest).visits.Sublist
      (q.walk above place chain (.field head body :: rest)).visits := by
  rw [walk_field]
  exact Walk.sublist_andThen_right ended

theorem mem_walk_of_rest {head : FieldHead} {body rest : List Selection}
    (ended : (q.inside above place chain head body).offence = none) {v : Visit}
    (h : v ∈ (q.walk above place chain rest).visits) :
    v ∈ (q.walk above place chain (.field head body :: rest)).visits :=
  (sublist_walk_of_rest ended).subset h

/-- What holds where a walk begins and is handed on, to the selections below a field, to those that
are expanded in place and to those behind, holds wherever the walk meets a field selection. -/
theorem holds_of_mem_walk {C : List Selected → Place → List String → List Selection → Prop}
    (below : ∀ {above place chain head body rest type},
      C above place chain (.field head body :: rest) → body ≠ [] →
      q.registry.nested? place.parent place.condition head.name = some type →
      C (above ++ [⟨place, head, body⟩]) (place.below head type) chain body)
    (within : ∀ {above place chain s condition chain' body rest}, C above place chain (s :: rest) →
      q.Opens chain place.condition s condition chain' body →
      C above { place with condition } chain' body)
    (behind : ∀ {above place chain s rest}, C above place chain (s :: rest) →
      C above place chain rest)
    {selections : List Selection} (start : C above place chain selections) {v : Visit}
    (h : v ∈ (q.walk above place chain selections).visits) :
    ∃ chain rest, C v.above v.here.place chain (.field v.here.head v.here.body :: rest) := by
  induction place, chain, selections using expand_induction q generalizing above with
  | nil place chain =>
    rw [walk] at h
    cases h
  | field place chain head body rest hbody hrest =>
    rw [walk_field] at h
    rcases Walk.mem_or_mem_of_mem_andThen h with h | h
    · rcases List.mem_cons.mp h with rfl | h
      · exact ⟨chain, rest, start⟩
      · rcases q.inside_cases above place chain head body with
          ⟨-, e⟩ | ⟨-, -, e⟩ | ⟨type, full, nested, e⟩
        · rw [e] at h
          cases h
        · rw [e] at h
          cases h
        · rw [e] at h
          exact hbody _ (below start full nested) h
    · exact hrest (behind start) h
  | opens place chain s condition chain' body rest opened hbody hrest =>
    rw [walk_opens opened] at h
    exact (Walk.mem_or_mem_of_mem_andThen h).elim (hbody (within start opened))
      (hrest (behind start))
  | cyclic place chain name rest old _ =>
    rw [walk_spread_of_mem old] at h
    cases h
  | undefined place chain name rest new missing _ =>
    rw [walk_spread_of_none new missing] at h
    cases h

theorem above_of_mem_walk {selections : List Selection} {v : Visit}
    (h : v ∈ (q.walk above place chain selections).visits) : above <+: v.above := by
  obtain ⟨-, -, stands⟩ := holds_of_mem_walk (C := fun above' _ _ _ => above <+: above')
    (fun stands _ _ => stands.trans (List.prefix_append _ _)) (fun stands _ => stands)
    (fun stands => stands) (List.prefix_refl above) h
  exact stands

theorem ended_inside {head : FieldHead} {body rest : List Selection}
    (ended : (q.walk above place chain (.field head body :: rest)).offence = none) :
    (q.inside above place chain head body).offence = none := by
  rw [walk_field, Walk.offence_andThen, Option.or_eq_none_iff] at ended
  exact ended.1

theorem ended_opens {chain' : List String} {s : Selection} {condition : Option String}
    {body rest : List Selection} (h : q.Opens chain place.condition s condition chain' body)
    (ended : (q.walk above place chain (s :: rest)).offence = none) :
    (q.walk above { place with condition } chain' body).offence = none := by
  rw [walk_opens h, Walk.offence_andThen, Option.or_eq_none_iff] at ended
  exact ended.1

theorem ended_behind {s : Selection} {rest : List Selection}
    (ended : (q.walk above place chain (s :: rest)).offence = none) :
    (q.walk above place chain rest).offence = none := by
  rw [walk_cons, Walk.offence_andThen, Option.or_eq_none_iff] at ended
  exact ended.2

theorem nested_of_mem_walk {selections : List Selection} {v : Visit}
    (ended : (q.walk above place chain selections).offence = none)
    (h : v ∈ (q.walk above place chain selections).visits) (full : v.here.body ≠ []) :
    ∃ type, q.registry.nested? v.here.place.parent v.here.place.condition v.here.head.name
      = some type := by
  obtain ⟨chain, rest, ended⟩ := holds_of_mem_walk
    (C := fun above place chain selections => (q.walk above place chain selections).offence = none)
    (fun ended full nested => inside_of_some full nested ▸ ended_inside ended)
    (fun ended opened => ended_opens opened ended) (fun ended => ended_behind ended) ended h
  have inside := ended_inside ended
  cases nested : q.registry.nested? v.here.place.parent v.here.place.condition v.here.head.name with
  | none =>
    rw [inside_of_none full nested] at inside
    cases inside
  | some type => exact ⟨type, rfl⟩

/-- Without offence, a walk has met the fields that stand around one that it meets, with selections
below them. -/
theorem above_mem_walk {selections : List Selection} {v : Visit} {above' inner : List Selected}
    {s : Selected} (ended : (q.walk above place chain selections).offence = none)
    (h : v ∈ (q.walk above place chain selections).visits) (inside : v.above = above' ++ s :: inner)
    (deep : above.length ≤ above'.length) :
    ⟨above', s⟩ ∈ (q.walk above place chain selections).visits ∧ s.body ≠ [] := by
  have stands := holds_of_mem_walk
    (C := fun around place' chain' rest => (q.walk around place' chain' rest).offence = none ∧
      (q.walk around place' chain' rest).visits ⊆ (q.walk above place chain selections).visits ∧
      ∀ above' s inner, around = above' ++ s :: inner → above.length ≤ above'.length →
        ⟨above', s⟩ ∈ (q.walk above place chain selections).visits ∧ s.body ≠ [])
    ?below ?within ?behind ?start h
  · obtain ⟨_, _, _, _, around⟩ := stands
    exact around above' s inner inside deep
  case start =>
    refine ⟨ended, List.Subset.refl _, ?_⟩
    rintro above' s inner rfl deep
    exact absurd deep (by simp)
  case below =>
    rintro above place' chain' head body rest type ⟨ended, sub, around⟩ full nested
    refine ⟨inside_of_some full nested ▸ ended_inside ended,
      fun w hw => sub (mem_walk_of_below full nested hw), fun above' s inner same deep => ?_⟩
    -- the innermost field is the one that the walk has just met
    rcases List.eq_nil_or_concat inner with rfl | ⟨inner, t, rfl⟩
    · obtain ⟨rfl, last⟩ := List.append_inj' same rfl
      cases last
      exact ⟨sub here_mem_walk, full⟩
    · rw [List.concat_eq_append, ← List.cons_append, ← List.append_assoc] at same
      exact around above' s inner (List.append_inj' same rfl).1 deep
  case within =>
    rintro above place' outer s condition chain' body rest ⟨ended, sub, around⟩ opened
    refine ⟨ended_opens opened ended, fun w hw => sub ?_, around⟩
    rw [walk_opens opened]
    exact Walk.mem_andThen_left hw
  case behind =>
    rintro above place' chain' s rest ⟨ended, sub, around⟩
    refine ⟨ended_behind ended, fun w hw => sub ?_, around⟩
    rw [walk_cons, Walk.offence_andThen, Option.or_eq_none_iff] at ended
    rw [walk_cons]
    exact Walk.mem_andThen_right ended.1 hw

/-- A walk without offence meets the fields of its level in the order in which they are written. -/
theorem sublist_walk_of_occurrences {selections : List Selection}
    (ended : (q.walk above place chain selections).offence = none) :
    ((q.fragments.occurrences place chain selections).map (Visit.mk above)).Sublist
      (q.walk above place chain selections).visits := by
  induction place, chain, selections using expand_induction q with
  | nil place chain =>
    rw [Fragments.occurrences]
    exact List.nil_sublist _
  | field place chain head body rest _ hrest =>
    have inside := ended_inside ended
    rw [Fragments.occurrences, walk_field, Walk.visits_andThen (by simpa using inside)]
    exact ((hrest (ended_behind ended)).trans (List.sublist_append_right _ _)).cons_cons _
  | opens place chain s condition chain' body rest opened hbody hrest =>
    have inside := ended_opens opened ended
    rw [occurrences_opens opened, walk_opens opened, Walk.visits_andThen inside, List.map_append]
    exact (hbody inside).append (hrest (ended_behind ended))
  | cyclic place chain name rest old _ =>
    rw [walk_spread_of_mem old] at ended
    cases ended
  | undefined place chain name rest new missing _ =>
    rw [walk_spread_of_none new missing] at ended
    cases ended

theorem offence_walk_of_ok (above : List Selected) {selections : List Selection}
    (ok : (q.expand place chain level selections).outcome = .ok nodes) :
    (q.walk above place chain selections).offence = none := by
  induction place, chain, selections using expand_induction q generalizing above level nodes with
  | nil place chain => rw [walk]
  | field place chain head body rest hbody hrest =>
    rw [outcome_expand_field, bind_eq_ok] at ok
    obtain ⟨n, hn, ok⟩ := ok
    obtain ⟨next, -, ok⟩ := bind_eq_ok.mp ok
    rw [walk_field, Walk.offence_andThen, Walk.offence_visit, hrest _ ok]
    rcases node_eq_ok hn with ⟨rfl, -⟩ | ⟨type, children, full, nested, expanded, -⟩
    · rw [inside_nil]
      rfl
    · rw [inside_of_some full nested, hbody _ _ expanded]
      rfl
  | opens place chain s condition chain' body rest opened hbody hrest =>
    rw [outcome_expand_opens q opened, bind_eq_ok] at ok
    obtain ⟨inner, expanded, ok⟩ := ok
    obtain ⟨next, -, ok⟩ := bind_eq_ok.mp ok
    rw [walk_opens opened, Walk.offence_andThen, hbody _ expanded, hrest _ ok]
    rfl
  | cyclic place chain name rest old _ =>
    rw [outcome_expand_spread_of_mem q place chain level rest old] at ok
    cases ok
  | undefined place chain name rest new missing _ =>
    rw [outcome_expand_spread_of_none q place chain level rest new missing] at ok
    cases ok

theorem offence_inside_of_ok (above : List Selected) {head : FieldHead} {body : List Selection}
    {n : Node}
    (ok : q.node place chain head body = .ok n) :
    (q.inside above place chain head body).offence = none := by
  rcases node_eq_ok ok with ⟨rfl, -⟩ | ⟨type, children, full, nested, expanded, -⟩
  · rw [inside_nil]
  · rw [inside_of_some full nested]
    exact offence_walk_of_ok _ expanded

end Request

end SelectionTree
