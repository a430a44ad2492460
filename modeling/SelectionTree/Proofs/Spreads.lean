import SelectionTree.Proofs.Inlining
/-!
The spreads that a conversion comes to. A conversion that succeeds has reached defined fragments
only, and none that reaches itself; one that fails at a spread names a fragment that is reached and
is not defined, or is reached and reaches itself. The registry has no say in this.
-/
set_option autoImplicit false

namespace SelectionTree

namespace Fragments

variable {fragments : Fragments} {chain : List String} {name : String} {fragment : Fragment}
  {selections selections' rest : List Selection}

theorem Reaches.through (h : Reaches fragments selections name) :
    ∃ x ∈ Selection.spreadsAll selections, Reaches fragments [.spread x] name := by
  induction h with
  | spread here => exact ⟨_, here, reaches_spread⟩
  | step _ found next ih _ =>
    obtain ⟨x, here, reached⟩ := ih
    exact ⟨x, here, .step reached found next⟩

/-- A spread reaches its fragment and what is reached from there. -/
theorem Reaches.eq_or_within (h : Reaches fragments selections name) {other : String}
    (own : Selection.spreadsAll selections = [other])
    (found : Dict.find? other fragments = some fragment) :
    name = other ∨ Reaches fragments fragment.body name := by
  induction h with
  | spread here =>
    rw [own] at here
    exact Or.inl (List.mem_singleton.mp here)
  | step _ found' next ih _ =>
    right
    rcases ih own with rfl | reached
    · cases found.symm.trans found'
      exact next
    · exact .step reached found' next

theorem unfolds_iff : fragments.Unfolds chain selections ↔
    ∀ x ∈ Selection.spreadsAll selections, fragments.Unfolds chain [.spread x] := by
  constructor
  · intro h x here
    exact h.mono (List.cons_subset.mpr ⟨here, List.nil_subset _⟩)
  · intro h name reached
    obtain ⟨x, here, reached⟩ := reached.through
    exact h x here name reached

theorem unfolds_nil : fragments.Unfolds chain [] :=
  unfolds_iff.mpr fun _ none => absurd none List.not_mem_nil

theorem Unfolds.cons {s : Selection} (h : ∀ x ∈ s.spreads, fragments.Unfolds chain [.spread x])
    (after : fragments.Unfolds chain rest) : fragments.Unfolds chain (s :: rest) :=
  unfolds_iff.mpr (List.forall_mem_append.mpr ⟨h, unfolds_iff.mp after⟩)

/-- A fragment that is not on the chain may be spread if it unfolds once it is there. -/
theorem unfolds_spread (new : name ∉ chain) (found : Dict.find? name fragments = some fragment)
    (inside : fragments.Unfolds (name :: chain) fragment.body) :
    fragments.Unfolds chain [.spread name] := fun other reached => by
  rcases reached.eq_or_within rfl found with rfl | reached
  · exact ⟨new, fragment, found, fun again => (inside _ again).1 List.mem_cons_self⟩
  · obtain ⟨free, rest⟩ := inside other reached
    exact ⟨fun old => free (List.mem_cons_of_mem _ old), rest⟩

end Fragments

variable {α β ε : Type} {P Q : ε → Prop} {x : Except ε α}

def FailsOnly (P : ε → Prop) (x : Except ε α) : Prop := ∀ e, x = .error e → P e

theorem failsOnly_ok (P : ε → Prop) (a : α) : FailsOnly P (.ok a : Except ε α) :=
  fun _ h => nomatch h

theorem failsOnly_error {e : ε} (h : P e) : FailsOnly P (.error e : Except ε α) := by
  rintro _ ⟨⟩
  exact h

theorem FailsOnly.mono (h : FailsOnly P x) (weaker : ∀ e, P e → Q e) : FailsOnly Q x :=
  fun e failed => weaker e (h e failed)

theorem FailsOnly.bind {f : α → Except ε β} (h : FailsOnly P x)
    (next : ∀ a, FailsOnly P (f a)) : FailsOnly P (x >>= f) := by
  cases x with
  | error e => exact failsOnly_error (h e rfl)
  | ok a => exact next a

theorem failsOnly_upsert {test : α → Bool} {update : α → Except ε α} {new : α}
    (h : ∀ x, FailsOnly P (update x)) (xs : List α) :
    FailsOnly P (upsert test update new xs) := by
  induction xs with
  | nil => exact failsOnly_ok P _
  | cons x xs ih =>
    rw [upsert]
    split
    · exact (h x).bind fun _ => failsOnly_ok P _
    · exact ih.bind fun _ => failsOnly_ok P _

def ConversionError.Mismatch (e : ConversionError) : Prop := ∃ path, e = .schemaMismatch path

namespace Node

open ConversionError (Mismatch)

variable {r : Registry} {parent : Composite} {path : String}

theorem failsOnly_typeBelow (a : Attributes) : FailsOnly Mismatch (typeBelow r parent path a) := by
  unfold typeBelow
  split
  · exact failsOnly_ok _ _
  · exact failsOnly_error ⟨_, rfl⟩

theorem failsOnly_combine {mergeChildren : Composite → String → List Node →
      Except ConversionError (List Node)}
    (hmerge : ∀ type path children, FailsOnly Mismatch (mergeChildren type path children))
    (second first : Node) :
    FailsOnly Mismatch (combine r parent path mergeChildren second first) := by
  unfold combine
  split
  · exact failsOnly_ok _ _
  · cases first with
    | leaf a => exact failsOnly_ok _ _
    | branch a children =>
      exact (failsOnly_typeBelow a).bind fun type =>
        (hmerge type _ _).bind fun _ => failsOnly_ok _ _

mutual

theorem failsOnly_mergeLists {parent : Composite} {path : String} (first : List Node) :
    (second : List Node) → FailsOnly Mismatch (mergeLists r parent path first second)
  | [] => by
    rw [mergeLists]
    exact failsOnly_ok _ _
  | n :: rest => by
    rw [mergeLists]
    exact (failsOnly_mergeNode first n).bind fun merged => failsOnly_mergeLists merged rest

theorem failsOnly_mergeNode {parent : Composite} {path : String} (first : List Node) :
    (n : Node) → FailsOnly Mismatch (mergeNode r parent path first n)
  | .leaf a => by
    rw [mergeNode]
    exact failsOnly_upsert (failsOnly_combine (fun _ _ _ => failsOnly_ok _ _) (leaf a)) first
  | .branch a children => by
    rw [mergeNode]
    exact failsOnly_upsert (failsOnly_combine (fun _ _ firstChildren =>
      failsOnly_mergeLists firstChildren children) (branch a children)) first

end

theorem failsOnly_absorb (again first : Node) :
    FailsOnly Mismatch (absorb r parent path again first).outcome := by
  cases again with
  | leaf b => exact failsOnly_ok _ _
  | branch b more =>
    cases first with
    | leaf a => exact failsOnly_ok _ _
    | branch a children =>
      simp only [absorb, Run.outcome_bind, Run.outcome_ofExcept, Run.outcome_pure]
      exact (failsOnly_typeBelow a).bind fun type =>
        (failsOnly_mergeLists _ more).bind fun _ => failsOnly_ok _ _

end Node

/-- What the spreads that some selections reach have to do with an error. `chain` holds the
fragments whose expansion the selections belong to. -/
inductive Fragments.Explains (fragments : Fragments) (chain : List String)
    (selections : List Selection) : ConversionError → Prop
  | schema {e : ConversionError} (mismatch : e.Mismatch) : Explains fragments chain selections e
  | root (kind : OperationKind) : Explains fragments chain selections (.missingRoot kind)
  | undefined {name : String} (reached : Reaches fragments selections name)
      (missing : Dict.find? name fragments = none) :
      Explains fragments chain selections (.unknownFragment name)
  | cyclic {name : String} {fragment : Fragment} (reached : Reaches fragments selections name)
      (found : Dict.find? name fragments = some fragment)
      (again : Reaches fragments fragment.body name) :
      Explains fragments chain selections (.cyclicFragment name)
  | chained {name : String} (reached : Reaches fragments selections name) (old : name ∈ chain) :
      Explains fragments chain selections (.cyclicFragment name)

namespace Fragments

variable {fragments : Fragments} {chain : List String} {name : String} {fragment : Fragment}
  {selections selections' rest : List Selection} {e : ConversionError}

theorem Explains.mono (h : fragments.Explains chain selections e)
    (sub : Selection.spreadsAll selections ⊆ Selection.spreadsAll selections') :
    fragments.Explains chain selections' e := by
  cases h with
  | schema mismatch => exact .schema mismatch
  | root kind => exact .root kind
  | undefined reached missing => exact .undefined (reached.mono sub) missing
  | cyclic reached found again => exact .cyclic (reached.mono sub) found again
  | chained reached old => exact .chained (reached.mono sub) old

/-- Where a fragment is spread, it is no longer on the chain: if it was reached again within its
expansion, it reaches itself. -/
theorem Explains.spread (found : Dict.find? name fragments = some fragment)
    (h : fragments.Explains (name :: chain) fragment.body e) :
    fragments.Explains chain (.spread name :: rest) e := by
  have here : Reaches fragments (.spread name :: rest) name := reaches_spread
  cases h with
  | schema mismatch => exact .schema mismatch
  | root kind => exact .root kind
  | undefined reached missing => exact .undefined (.step here found reached) missing
  | cyclic reached found' again => exact .cyclic (.step here found reached) found' again
  | chained reached old =>
    rcases List.mem_cons.mp old with rfl | old
    · exact .cyclic here found reached
    · exact .chained (.step here found reached) old

end Fragments

namespace Request

variable {q : Request} {place : Place} {chain : List String} {level nodes : List Node}
  {selections : List Selection}

theorem failsOnly_add (q : Request) (place : Place) (level : List Node) (n : Node) :
    FailsOnly ConversionError.Mismatch (q.add place level n).outcome := by
  rw [add, Node.outcome_addToLevel]
  exact failsOnly_upsert (fun x => Node.failsOnly_absorb n x) level

theorem failsOnly_addAll (q : Request) (place : Place) (level ns : List Node) :
    FailsOnly ConversionError.Mismatch (q.addAll place level ns).outcome := by
  induction ns generalizing level with
  | nil => exact failsOnly_ok _ _
  | cons n rest ih =>
    rw [outcome_addAll_cons]
    exact (failsOnly_add q place level n).bind fun next => ih next

theorem failsOnly_node (place : Place) (head : FieldHead) {body : List Selection}
    (h : ∀ inner, FailsOnly (q.fragments.Explains chain body)
      (q.expand inner chain [] body).outcome) :
    FailsOnly (q.fragments.Explains chain body) (q.node place chain head body) := by
  by_cases full : body = []
  · subst full
    exact failsOnly_ok _ _
  · cases nested : q.registry.nested? place.parent place.condition head.name with
    | none =>
      rw [q.node_of_none place chain full nested]
      exact failsOnly_error (.schema ⟨_, rfl⟩)
    | some type =>
      rw [q.node_of_some place chain full nested]
      exact (h _).bind fun _ => failsOnly_ok _ _

theorem Opens.explains {s : Selection} {outer condition : Option String} {chain' : List String}
    {body rest : List Selection} {e : ConversionError}
    (opened : q.Opens chain outer s condition chain' body)
    (h : q.fragments.Explains chain' body e) : q.fragments.Explains chain (s :: rest) e := by
  cases opened with
  | inline own body => exact h.mono (List.subset_append_left _ _)
  | spread new found => exact h.spread found

theorem failsOnly_expand (level : List Node) (selections : List Selection) :
    FailsOnly (q.fragments.Explains chain selections)
      (q.expand place chain level selections).outcome := by
  induction place, chain, selections using expand_induction q generalizing level with
  | nil place chain =>
    rw [outcome_expand_nil]
    exact failsOnly_ok _ _
  | field place chain head body rest hbody hrest =>
    rw [outcome_expand_field]
    have here := failsOnly_node place head fun inner => hbody inner []
    refine (here.mono fun e h => h.mono (List.subset_append_left _ _)).bind fun n => ?_
    refine ((failsOnly_add q place level n).mono fun e h => .schema h).bind fun next => ?_
    exact (hrest next).mono fun e h => h.mono (List.subset_append_right _ _)
  | opens place chain s condition chain' body rest opened hbody hrest =>
    rw [outcome_expand_opens q opened]
    refine ((hbody []).mono fun e h => opened.explains h).bind fun ns => ?_
    refine ((failsOnly_addAll q place level ns).mono fun e h => .schema h).bind fun next => ?_
    exact (hrest next).mono fun e h => h.mono (List.subset_append_right _ _)
  | cyclic place chain name rest old _ =>
    rw [outcome_expand_spread_of_mem q place chain level rest old]
    exact failsOnly_error (.chained Fragments.reaches_spread old)
  | undefined place chain name rest new missing _ =>
    rw [outcome_expand_spread_of_none q place chain level rest new missing]
    exact failsOnly_error (.undefined Fragments.reaches_spread missing)

theorem failsOnly_convert (q : Request) (operation : Operation) :
    FailsOnly (q.fragments.Explains [] operation.selections) (q.convert operation).outcome := by
  cases rooted : q.registry.root? operation.kind with
  | none =>
    rw [q.outcome_convert_of_none rooted]
    exact failsOnly_error (.root operation.kind)
  | some root =>
    rw [q.outcome_convert rooted]
    exact (failsOnly_expand [] operation.selections).bind fun _ => failsOnly_ok _ _

theorem Opens.unfolds {s : Selection} {outer condition : Option String} {chain' : List String}
    {body : List Selection} (opened : q.Opens chain outer s condition chain' body)
    (h : q.fragments.Unfolds chain' body) :
    ∀ x ∈ s.spreads, q.fragments.Unfolds chain [.spread x] := by
  cases opened with
  | inline own body => exact Fragments.unfolds_iff.mp h
  | spread new found => exact List.forall_mem_singleton.mpr (Fragments.unfolds_spread new found h)

/-- Selections that are expanded unfold: the expansion has come to all that they reach. -/
theorem unfolds_of_ok (ok : (q.expand place chain level selections).outcome = .ok nodes) :
    q.fragments.Unfolds chain selections := by
  induction place, chain, selections using expand_induction q generalizing level nodes with
  | nil place chain => exact Fragments.unfolds_nil
  | field place chain head body rest hbody hrest =>
    rw [outcome_expand_field, bind_eq_ok] at ok
    obtain ⟨n, hn, ok⟩ := ok
    obtain ⟨next, -, ok⟩ := bind_eq_ok.mp ok
    have inside : q.fragments.Unfolds chain body := by
      rcases node_eq_ok hn with ⟨rfl, -⟩ | ⟨type, children, -, -, expanded, -⟩
      · exact Fragments.unfolds_nil
      · exact hbody _ expanded
    exact .cons (Fragments.unfolds_iff.mp inside) (hrest ok)
  | opens place chain s condition chain' body rest opened hbody hrest =>
    rw [outcome_expand_opens q opened, bind_eq_ok] at ok
    obtain ⟨inner, expanded, ok⟩ := ok
    obtain ⟨next, -, ok⟩ := bind_eq_ok.mp ok
    exact .cons (opened.unfolds (hbody expanded)) (hrest ok)
  | cyclic place chain name rest old _ =>
    rw [outcome_expand_spread_of_mem q place chain level rest old] at ok
    cases ok
  | undefined place chain name rest new missing _ =>
    rw [outcome_expand_spread_of_none q place chain level rest new missing] at ok
    cases ok

/-- A conversion that succeeds reaches defined fragments only, none of which reaches itself. An
error that names a cyclic or an unknown fragment is right about it. -/
theorem convert_reaches (q : Request) (operation : Operation) :
    (∀ tree, (q.convert operation).outcome = .ok tree → ∀ name,
        q.fragments.Reaches operation.selections name →
          ∃ fragment, Dict.find? name q.fragments = some fragment ∧
            ¬ q.fragments.Reaches fragment.body name) ∧
      (∀ name, (q.convert operation).outcome = .error (.cyclicFragment name) →
        q.fragments.Reaches operation.selections name ∧
          ∃ fragment, Dict.find? name q.fragments = some fragment ∧
            q.fragments.Reaches fragment.body name) ∧
      ∀ name, (q.convert operation).outcome = .error (.unknownFragment name) →
        q.fragments.Reaches operation.selections name ∧ Dict.find? name q.fragments = none := by
  refine ⟨fun tree ok name reached => ?_, fun name failed => ?_, fun name failed => ?_⟩
  · obtain ⟨root, nodes, -, expanded, -⟩ := convert_eq_ok ok
    exact (unfolds_of_ok expanded name reached).2
  · cases q.failsOnly_convert operation _ failed with
    | schema mismatch => nomatch mismatch
    | cyclic reached found again => exact ⟨reached, _, found, again⟩
    | chained _ old => cases old
  · cases q.failsOnly_convert operation _ failed with
    | schema mismatch => nomatch mismatch
    | undefined reached missing => exact ⟨reached, missing⟩

end Request

namespace Films

def looping : Request :=
  { request with
    fragments := request.fragments ++
      [("Orbit", ⟨"Character", [select "friends" [.spread "Moon"]]⟩),
       ("Moon", ⟨"Droid", [.inline none [select "name" [], .spread "Orbit"]]⟩),
       ("Lost", ⟨"Character", [select "friends" [.spread "Nowhere"]]⟩)] }

def revisiting (name : String) : Operation where
  kind := .query
  selections :=
    [select "hero" [.spread "Circle", select "friends" [.spread "Circle"], .spread name]]

end Films

open Films in
theorem convert_reaches_hero :
    ¬ looping.fragments.Reaches circle.body "Circle" ∧
      (looping.fragments.Reaches (revisiting "Orbit").selections "Orbit" ∧
        ∃ fragment, Dict.find? "Orbit" looping.fragments = some fragment ∧
          looping.fragments.Reaches fragment.body "Orbit") ∧
      looping.fragments.Reaches (revisiting "Lost").selections "Nowhere" ∧
        Dict.find? "Nowhere" looping.fragments = none := by
  have converted : ∃ tree, (looping.convert (revisiting "Names")).outcome = .ok tree :=
    ⟨_, by cbv⟩
  have looped : (looping.convert (revisiting "Orbit")).outcome = .error (.cyclicFragment "Orbit") :=
    by cbv
  have lost : (looping.convert (revisiting "Lost")).outcome = .error (.unknownFragment "Nowhere") :=
    by cbv
  have reached : looping.fragments.Reaches (revisiting "Names").selections "Circle" :=
    .spread (by decide)
  obtain ⟨tree, ok⟩ := converted
  obtain ⟨fragment, found, acyclic⟩ :=
    (Request.convert_reaches looping (revisiting "Names")).1 tree ok "Circle" reached
  have defined : Dict.find? "Circle" looping.fragments = some circle := by cbv
  cases found.symm.trans defined
  exact ⟨acyclic, (Request.convert_reaches looping (revisiting "Orbit")).2.1 "Orbit" looped,
    (Request.convert_reaches looping (revisiting "Lost")).2.2 "Nowhere" lost⟩

end SelectionTree
