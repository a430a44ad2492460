import SelectionTree.Proofs.Mingling
import SelectionTree.Proofs.Paths
/-!
Selection sets that are written in another way. Where the fields that a set merges may be grouped in
any way, it makes no difference whether selections stand in an inline fragment without type
condition or in its place, nor whether a field is selected once or twice.
-/
set_option autoImplicit false

namespace SelectionTree

/-- What stands around a selection set: the field or inline fragment that it belongs to, and the
selections before and behind. -/
inductive Frame where
  | field (before : List Selection) (head : FieldHead) (rest : List Selection)
  | inline (before : List Selection) (own : Option String) (rest : List Selection)

def framed : List Frame → List Selection → List Selection
  | [], set => set
  | .field before head rest :: frames, set => before ++ .field head (framed frames set) :: rest
  | .inline before own rest :: frames, set => before ++ .inline own (framed frames set) :: rest

theorem framed_ne_nil {set : List Selection} (full : set ≠ []) (frames : List Frame) :
    framed frames set ≠ [] := by
  cases frames with
  | nil => exact full
  | cons frame frames => cases frame <;> simp [framed]

namespace Request

/-- Where the walk comes to a selection set within some frames, if it does: the fields around the
set and its place. -/
def arrive? (q : Request) (above : List Selected) (place : Place) (set : List Selection) :
    List Frame → Option (List Selected × Place)
  | [] => some (above, place)
  | .field before head _ :: frames =>
    if (q.walk above place [] before).offence = none then
      (q.registry.nested? place.parent place.condition head.name).bind fun type =>
        q.arrive? (above ++ [⟨place, head, framed frames set⟩]) (place.below head type) set frames
    else none
  | .inline before own _ :: frames =>
    if (q.walk above place [] before).offence = none then
      q.arrive? above { place with condition := own <|> place.condition } set frames
    else none

variable {q : Request} {above : List Selected} {place : Place} {set set' : List Selection}

theorem outcome_expand_congr (above : List Selected) {s s' : Selection}
    {before rest : List Selection}
    (same : (q.walk above place [] before).offence = none →
      (q.expand place [] [] [s]).outcome = (q.expand place [] [] [s']).outcome) :
    (q.expand place [] [] (before ++ s :: rest)).outcome
      = (q.expand place [] [] (before ++ s' :: rest)).outcome := by
  rw [outcome_expand_append, outcome_expand_append]
  cases expanded : (q.expand place [] [] before).outcome with
  | error e => rfl
  | ok level =>
    rw [ok_bind, ok_bind, q.outcome_expand_cons place [] level s rest,
      q.outcome_expand_cons place [] level s' rest, same (offence_walk_of_ok above expanded)]

/-- A selection set may be replaced by one that is expanded alike where it stands. -/
theorem outcome_expand_framed (full : set ≠ []) (full' : set' ≠ []) {frames : List Frame}
    (same : ∀ above' place', q.arrive? above place set frames = some (above', place') →
      (q.expand place' [] [] set).outcome = (q.expand place' [] [] set').outcome) :
    (q.expand place [] [] (framed frames set)).outcome
      = (q.expand place [] [] (framed frames set')).outcome := by
  induction frames generalizing above place with
  | nil => exact same above place rfl
  | cons frame frames ih =>
    cases frame with
    | field before head rest =>
      refine outcome_expand_congr above fun ended => ?_
      have filled := framed_ne_nil full frames
      have filled' := framed_ne_nil full' frames
      rw [outcome_expand_field_singleton, outcome_expand_field_singleton]
      cases nested : q.registry.nested? place.parent place.condition head.name with
      | none => rw [q.node_of_none _ _ filled nested, q.node_of_none _ _ filled' nested]
      | some type =>
        have inside := ih fun above' place' arrived =>
          same above' place' (by rwa [arrive?, if_pos ended, nested, Option.bind_some])
        rw [q.node_of_some _ _ filled nested, q.node_of_some _ _ filled' nested, inside]
    | inline before own rest =>
      refine outcome_expand_congr above fun ended => ?_
      have inside := ih fun above' place' arrived =>
        same above' place' (by rwa [arrive?, if_pos ended])
      rw [outcome_expand_opens_singleton (.inline own (framed frames set)),
        outcome_expand_opens_singleton (.inline own (framed frames set')), inside]

theorem outcome_convert_framed (full : set ≠ []) (full' : set' ≠ []) {kind : OperationKind}
    {frames : List Frame} (same : ∀ root above place, q.registry.root? kind = some root →
      q.arrive? [] ⟨root, "", none⟩ set frames = some (above, place) →
      (q.expand place [] [] set).outcome = (q.expand place [] [] set').outcome) :
    (q.convert ⟨kind, framed frames set'⟩).outcome
      = (q.convert ⟨kind, framed frames set⟩).outcome := by
  cases rooted : q.registry.root? kind with
  | none => simp [convert, tree, rooted]
  | some root =>
    have expanded := outcome_expand_framed full full' fun above place arrived =>
      same root above place rooted arrived
    have rooted' : ∀ selections,
        q.registry.root? (Operation.mk kind selections).kind = some root := fun _ => rooted
    rw [q.outcome_convert (rooted' _), q.outcome_convert (rooted' _), expanded]

/-- The fields that a walk over selections meets, if the selections can be expanded. -/
def met (q : Request) (above : List Selected) (place : Place) (selections : List Selection) :
    List Visit :=
  if (q.expand place [] [] selections).outcome.isOk then (q.walk above place [] selections).visits
  else []

/-- The selections of a fragment may stand in its place. Each of them mingles with what stands
before the fragment and with the selections of the fragment before it, as long as these can be
expanded. -/
def Dissolves (q : Request) (above : List Selected) (place : Place)
    (before body : List Selection) : Prop :=
  ∀ front s, front ++ [s] <+: body → (q.expand place [] [] front).outcome.isOk →
    Mingles q above (!(q.expand place [] [] (front ++ [s])).outcome.isOk)
      (q.met above place before) (q.met above place front) (q.met above place [s])

theorem dissolves_iff {before body : List Selection} : q.Dissolves above place before body ↔
    ∀ i, (h : i < body.length) → (q.expand place [] [] (body.take i)).outcome.isOk →
      Mingles q above (!(q.expand place [] [] (body.take i ++ [body[i]])).outcome.isOk)
        (q.met above place before) (q.met above place (body.take i))
        (q.met above place [body[i]]) := by
  refine ⟨fun h i hi => h _ _ ?_, fun h front s here => ?_⟩
  · rw [List.take_append_getElem]
    exact List.take_prefix _ _
  · obtain ⟨rest, rfl⟩ := here
    simpa using h front.length (by simp)

instance (before body : List Selection) : Decidable (q.Dissolves above place before body) :=
  decidable_of_iff _ dissolves_iff.symm

theorem met_of_ok {selections : List Selection} {nodes : List Node}
    (ok : (q.expand place [] [] selections).outcome = .ok nodes) :
    q.met above place selections = (q.walk above place [] selections).visits := by
  rw [met, ok]
  rfl

theorem met_of_error {selections : List Selection} {e : ConversionError}
    (failed : (q.expand place [] [] selections).outcome = .error e) :
    q.met above place selections = [] := by
  rw [met, failed]
  rfl

/-- A fragment that comes first in its set can be dissolved. -/
theorem dissolves_nil (body : List Selection) : q.Dissolves above place [] body := by
  have none : q.met above place [] = [] := by rw [met_of_ok (outcome_expand_nil _ _ _ _), walk]
  intro front s _ _
  rw [none]
  exact ⟨fun _ _ _ _ _ shared => absurd shared.1 List.not_mem_nil,
    fun _ _ hv => absurd hv List.not_mem_nil, fun _ _ hv => absurd hv List.not_mem_nil⟩

/-- A fragment with one selection can be dissolved. -/
theorem dissolves_singleton (before : List Selection) (s : Selection) :
    q.Dissolves above place before [s] := by
  have none : q.met above place [] = [] := by rw [met_of_ok (outcome_expand_nil _ _ _ _), walk]
  intro front t here _
  obtain ⟨rest, same⟩ := here
  obtain ⟨rfl, rfl⟩ : front = [] ∧ t = s := by
    cases front with
    | nil => exact ⟨rfl, (List.cons.inj same).1⟩
    | cons u front => simp at same
  rw [none, List.nil_append]
  cases expanded : (q.expand place [] [] [t]).outcome with
  | error e =>
    rw [met_of_error expanded]
    exact ⟨fun _ _ _ hw => absurd hw List.not_mem_nil, by simp, by simp⟩
  | ok nodes =>
    refine ⟨fun _ _ _ _ _ shared => ?_, fun _ _ _ _ mem => absurd mem List.not_mem_nil,
      fun _ _ _ _ hw => absurd hw List.not_mem_nil⟩
    rcases shared.2 with failed | ⟨mem, -⟩
    · cases failed
    · exact absurd mem List.not_mem_nil

/-- The last selections of a fragment may be expanded into what the ones before have made of the
fragment or of the whole set. -/
theorem outcome_expand_rest {before front rest : List Selection} {level own : List Node}
    (dissolves : q.Dissolves above place before (front ++ rest))
    (expanded : (q.expand place [] [] before).outcome = .ok level)
    (inside : (q.expand place [] [] front).outcome = .ok own) :
    ((q.expand place [] own rest).outcome >>= fun ns => (q.addAll place level ns).outcome)
      = ((q.addAll place level own).outcome >>= fun ns => (q.expand place [] ns rest).outcome) := by
  induction rest generalizing front own with
  | nil =>
    simp only [outcome_expand_nil, ok_bind]
    cases (q.addAll place level own).outcome <;> rfl
  | cons s rest ih =>
    have mingles := dissolves front s ⟨rest, by simp⟩ (by rw [inside]; rfl)
    have more : (q.expand place [] [] (front ++ [s])).outcome
        = (q.expand place [] [] [s]).outcome >>= fun ns => (q.addAll place own ns).outcome := by
      rw [outcome_expand_append, inside, ok_bind, q.outcome_expand_cons place [] own s []]
      simp only [outcome_expand_nil]
      exact congrArg _ (funext fun ns => by cases (q.addAll place own ns).outcome <;> rfl)
    have yields : q.Yields above place (q.met above place before) level :=
      ⟨_, _, (met_of_ok expanded).symm, expanded⟩
    have yields' : q.Yields above place (q.met above place front) own :=
      ⟨_, _, (met_of_ok inside).symm, inside⟩
    simp only [q.outcome_expand_cons place [] _ s rest]
    cases single : (q.expand place [] [] [s]).outcome with
    | error e =>
      rw [more, single, met_of_error single] at mingles
      obtain ⟨next, added⟩ := mingles.addAll_succeeds yields yields' yields_nil
      rw [added]
      rfl
    | ok ns =>
      have yields'' : q.Yields above place (q.met above place [s]) ns :=
        ⟨_, _, (met_of_ok single).symm, single⟩
      rw [single, ok_bind] at more
      rw [more] at mingles
      cases gathered : (q.addAll place own ns).outcome with
      | error e =>
        rw [gathered] at mingles
        have failed := mingles.addAll_assoc_error yields yields' yields'' gathered
        simp only [ok_bind, gathered, error_bind, ← bind_assoc, failed]
      | ok own' =>
        rw [gathered] at mingles more
        have either := mingles.addAll_assoc yields yields' yields'' gathered
        have dissolves' : q.Dissolves above place before ((front ++ [s]) ++ rest) := by
          simpa using dissolves
        have later := ih dissolves' more
        simp only [ok_bind, gathered, ← bind_assoc, ← either, later]

theorem outcome_expand_spliced {before body rest : List Selection}
    (dissolves : q.Dissolves above place before body) :
    (q.expand place [] [] (before ++ .inline none body :: rest)).outcome
      = (q.expand place [] [] (before ++ (body ++ rest))).outcome := by
  rw [outcome_expand_append, outcome_expand_append]
  cases expanded : (q.expand place [] [] before).outcome with
  | error e => rfl
  | ok level =>
    have dissolves' : q.Dissolves above place before ([] ++ body) := dissolves
    have gathered : ((q.expand place [] [] body).outcome >>= fun nodes =>
        (q.addAll place level nodes).outcome) = (q.expand place [] level body).outcome :=
      outcome_expand_rest dissolves' expanded (outcome_expand_nil _ _ _ _)
    -- the fragment gathers its nodes before they are added, its selections add theirs one by one
    rw [ok_bind, ok_bind, outcome_expand_append, ← gathered, bind_assoc]
    exact q.outcome_expand_inline place [] level none body rest

end Request

namespace Films

def friends (type : Option String) (name : String) : Selection :=
  select "hero" [.inline type [select "friends" [select name []]]]

end Films

namespace Films

def studios : Request where
  registry := (Schema.ofDefinitions (definitions ++
    [.type true "Query" (.object [⟨"studio", .named "Studio" true⟩]),
     .type false "Studio" (.object [⟨"mascot", .named "Character" true⟩])])).registry

def aliased (name : String) (body : List Selection) : Selection :=
  .field { name, aliasName := some "x" } body

def SplicingDiffers (frames : List Frame) (before body : List Selection) : Prop :=
  (studios.convert ⟨.query, framed frames (before ++ (body ++ []))⟩).outcome
    ≠ (studios.convert ⟨.query, framed frames (before ++ .inline none body :: [])⟩).outcome

end Films

namespace Request

variable {q : Request} {above : List Selected} {place : Place}

theorem outcome_expand_twice {before rest : List Selection} {s : Selection}
    (agree : Coherent q above (q.walk above place [] (before ++ [s, s])).visits) :
    (q.expand place [] [] (before ++ s :: rest)).outcome
      = (q.expand place [] [] (before ++ s :: s :: rest)).outcome := by
  rw [outcome_expand_append, outcome_expand_append]
  cases expanded : (q.expand place [] [] before).outcome with
  | error e => rfl
  | ok level =>
    rw [ok_bind, ok_bind, q.outcome_expand_cons place [] level s rest,
      q.outcome_expand_cons place [] level s (s :: rest)]
    cases inside : (q.expand place [] [] [s]).outcome with
    | error e => rfl
    | ok nodes =>
      rw [walk_append, Walk.visits_andThen (offence_walk_of_ok above expanded), walk_cons s [s],
        Walk.visits_andThen (offence_walk_of_ok above inside)] at agree
      have self := agree.addAll_self (List.sublist_append_right _ _) inside
      have either := (agree.mingles (List.Sublist.refl _)).addAll_assoc ⟨_, _, rfl, expanded⟩
        ⟨_, _, rfl, inside⟩ ⟨_, _, rfl, inside⟩ self
      rw [ok_bind, ok_bind]
      cases added : (q.addAll place level nodes).outcome with
      | error e => rfl
      | ok next =>
        rw [added, ok_bind] at either
        rw [ok_bind, ok_bind, q.outcome_expand_cons place [] next s rest, inside, ok_bind, ← either,
          ok_bind]

/-- A field may be selected twice in any selection set of an operation, if the fields that the walk
meets in it up to the second time may be grouped in any way: the operation is converted into the
same tree or fails with the same error. -/
theorem convert_repeated {kind : OperationKind} {frames : List Frame}
    {before body rest : List Selection} {head : FieldHead}
    (agree : ∀ root above place, q.registry.root? kind = some root →
      q.arrive? [] ⟨root, "", none⟩ (before ++ .field head body :: rest) frames
        = some (above, place) →
      Coherent q above
        (q.walk above place [] (before ++ [.field head body, .field head body])).visits) :
    (q.convert ⟨kind, framed frames
        (before ++ .field head body :: .field head body :: rest)⟩).outcome
      = (q.convert ⟨kind, framed frames (before ++ .field head body :: rest)⟩).outcome :=
  outcome_convert_framed (by simp) (by simp) fun root above place rooted arrived =>
    outcome_expand_twice (agree root above place rooted arrived)

end Request

open Films in
theorem convert_repeated_hero :
    (request.convert ⟨.query, framed [] ([friends (some "Droid") "name"]
        ++ friends none "id" :: friends none "id" :: [])⟩).outcome
      = (request.convert ⟨.query, framed [] ([friends (some "Droid") "name"]
        ++ friends none "id" :: [])⟩).outcome := by
  refine Request.convert_repeated fun root' above place rooted arrived => ?_
  have rooted' : request.registry.root? .query = some root := by cbv
  cases rooted.symm.trans rooted'
  cases arrived
  conv => arg 3; cbv
  decide +kernel

def Films.typed : Selection :=
  select "hero" [select "name" [], .inline (some "Droid") [select "name" []]]

open Films in
/-- Below a field that is selected twice, fields on different types do not stay apart. -/
theorem convert_repeated_differs :
    (∃ tree, (request.convert ⟨.query, framed [] ([] ++ typed :: [])⟩).outcome = .ok tree) ∧
      (request.convert ⟨.query, framed [] ([] ++ typed :: typed :: [])⟩).outcome
        ≠ (request.convert ⟨.query, framed [] ([] ++ typed :: [])⟩).outcome := by
  have paths : decide
      ((request.convert ⟨.query, [typed, typed]⟩).outcome.toOption.map Tree.paths
        ≠ (request.convert ⟨.query, [typed]⟩).outcome.toOption.map Tree.paths) = true := by cbv
  exact ⟨⟨_, by cbv⟩, fun same => of_decide_eq_true paths (same ▸ rfl)⟩

end SelectionTree
