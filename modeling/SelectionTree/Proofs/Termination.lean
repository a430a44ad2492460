import Mathlib.Data.List.Perm.Subperm
import SelectionTree.Proofs.MergeDepth
import SelectionTree.Proofs.Spreads
/-!
Conversions end. A merge is repeated on fewer nodes, an expansion on fewer selections or with one
more fragment on the chain, and there are only so many fragments. So a bound on the depth of the
calls that is known beforehand is never met, whatever spreads itself.
-/
set_option autoImplicit false

namespace SelectionTree

mutual

def Selection.count : Selection → Nat
  | .field _ body => countAll body + 1
  | .inline _ body => countAll body + 1
  | .spread _ => 1

def Selection.countAll : List Selection → Nat
  | [] => 0
  | s :: rest => s.count + countAll rest

end

namespace Selection

theorem count_le_of_mem {s : Selection} {selections : List Selection} (h : s ∈ selections) :
    s.count ≤ countAll selections := by
  induction selections with
  | nil => exact absurd h List.not_mem_nil
  | cons t selections ih =>
    rw [countAll]
    rcases List.mem_cons.mp h with rfl | later
    · exact Nat.le_add_right _ _
    · exact Nat.le_trans (ih later) (Nat.le_add_left _ _)

end Selection

namespace Fragments

def pending (chain : List String) : Fragments → Nat
  | [] => 0
  | (name, fragment) :: rest =>
    (if name ∈ chain then 0 else Selection.countAll fragment.body) + pending chain rest

theorem pending_cons_le (name : String) (chain : List String) (fragments : Fragments) :
    fragments.pending (name :: chain) ≤ fragments.pending chain := by
  induction fragments with
  | nil => exact Nat.le_refl _
  | cons e rest ih =>
    obtain ⟨k, fragment⟩ := e
    rw [pending, pending]
    refine Nat.add_le_add ?_ ih
    split
    · exact Nat.zero_le _
    · next new => exact Nat.le_of_eq (if_neg fun old => new (List.mem_cons_of_mem _ old)).symm

theorem count_add_pending_le {fragments : Fragments} {chain : List String} {name : String}
    {fragment : Fragment} (new : name ∉ chain)
    (found : Dict.find? name fragments = some fragment) :
    Selection.countAll fragment.body + fragments.pending (name :: chain)
      ≤ fragments.pending chain := by
  induction fragments with
  | nil => cases found
  | cons e rest ih =>
    obtain ⟨k, f⟩ := e
    rw [pending, pending]
    rw [Dict.find?] at found
    split at found
    · next here =>
      cases found
      subst here
      have later := pending_cons_le k chain rest
      rw [if_pos List.mem_cons_self, if_neg new]
      omega
    · next other =>
      have same : k ∈ name :: chain ↔ k ∈ chain := by simp [other]
      have later := ih found
      simp only [same]
      omega

end Fragments

/-- How a call makes another one: with fewer nodes, with fewer selections and the same chain, or
for the body of a fragment that is spread and put on the chain. -/
inductive Call.Makes (fragments : Fragments) : Call → Call → Prop
  | merge {first second first' second' : List Node}
      (fewer : Node.countAll first' + Node.countAll second'
        < Node.countAll first + Node.countAll second) :
      Makes fragments (.merge first second) (.merge first' second')
  | enter {chain : List String} {selections body : List Selection}
      (fewer : Selection.countAll body < Selection.countAll selections) :
      Makes fragments (.expansion chain selections) (.expansion chain body)
  | spread {chain : List String} {selections : List Selection} {name : String}
      {fragment : Fragment} (here : .spread name ∈ selections) (new : name ∉ chain)
      (found : Dict.find? name fragments = some fragment) :
      Makes fragments (.expansion chain selections) (.expansion (name :: chain) fragment.body)

/-- A chain that is another one, or has been made from it by putting defined fragments on it that
are not there. -/
inductive Fragments.Extends (fragments : Fragments) (chain : List String) : List String → Prop
  | refl : Extends fragments chain chain
  | spread {longer : List String} {name : String} {fragment : Fragment} (new : name ∉ longer)
      (found : Dict.find? name fragments = some fragment) (h : Extends fragments chain longer) :
      Extends fragments chain (name :: longer)

def Call.Above (fragments : Fragments) (chain : List String) : Call → Prop
  | .expansion longer _ => fragments.Extends chain longer
  | .merge _ _ => True

/-- The chain of a call has no repetition and holds defined names only, so it is not longer than
there are fragments. -/
def Call.Chained (fragments : Fragments) : Call → Prop
  | .expansion chain _ => chain.Nodup ∧
      (∀ name ∈ chain, ∃ fragment, Dict.find? name fragments = some fragment) ∧
      chain.length ≤ fragments.length
  | .merge _ _ => True

namespace Fragments

variable {fragments : Fragments} {chain longer longest : List String}

theorem Extends.trans (h : fragments.Extends chain longer)
    (h' : fragments.Extends longer longest) : fragments.Extends chain longest := by
  induction h' with
  | refl => exact h
  | spread new found _ ih => exact .spread new found ih

theorem nodup_of_extends (h : fragments.Extends [] chain) : chain.Nodup := by
  induction h with
  | refl => exact List.nodup_nil
  | spread new _ _ ih => exact List.nodup_cons.mpr ⟨new, ih⟩

theorem defined_of_extends (h : fragments.Extends [] chain) :
    ∀ name ∈ chain, ∃ fragment, Dict.find? name fragments = some fragment := by
  induction h with
  | refl => exact fun _ none => absurd none List.not_mem_nil
  | spread _ found _ ih => exact List.forall_mem_cons.mpr ⟨⟨_, found⟩, ih⟩

theorem length_le_of_defined (once : chain.Nodup)
    (defined : ∀ name ∈ chain, ∃ fragment, Dict.find? name fragments = some fragment) :
    chain.length ≤ fragments.length := by
  have sub : chain ⊆ Dict.keys fragments := fun name here => by
    obtain ⟨fragment, found⟩ := defined name here
    exact List.mem_map_of_mem (f := Prod.fst) (Dict.mem_of_find? found)
  have fits := (List.subperm_of_subset once sub).length_le
  rwa [Dict.keys, List.length_map] at fits

end Fragments

theorem Call.chained_of_above {fragments : Fragments} {c : Call} (h : c.Above fragments []) :
    c.Chained fragments := by
  cases c with
  | merge first second => trivial
  | expansion chain selections =>
    have once := Fragments.nodup_of_extends h
    have defined := Fragments.defined_of_extends h
    exact ⟨once, defined, Fragments.length_le_of_defined once defined⟩

theorem Call.Above.mono {fragments : Fragments} {chain longer : List String} {c : Call}
    (h : c.Above fragments longer) (h' : fragments.Extends chain longer) :
    c.Above fragments chain := by
  cases c with
  | merge first second => trivial
  | expansion longest selections => exact h'.trans h

namespace Request

open Bounded

def addWithin (q : Request) (place : Place) (level : List Node) (n : Node) :
    Bounded (List Node) :=
  upsert (fun x => x.key place.parent.name = n.key place.parent.name)
    (Node.absorbWithin q.registry place.parent place.path n) n level

def addEach (q : Request) (place : Place) : List Node → List Node → Bounded (List Node)
  | level, [] => pure level
  | level, n :: rest => do
    let level ← q.addWithin place level n
    q.addEach place level rest

def childrenWithin (q : Request) (recur : Place → List Selection → Bounded (List Node))
    (place : Place) (head : FieldHead) (body : List Selection) : Bounded (Option (List Node)) :=
  if body.isEmpty then pure none
  else do
    let inner ← ofExcept (q.enter place head)
    let nodes ← recur inner body
    pure (some nodes)

def expandEach (q : Request) (recur : Place → List Selection → Bounded (List Node))
    (place : Place) : List Node → List Selection → Bounded (List Node)
  | level, [] => pure level
  | level, .field head body :: rest => do
    let children ← q.childrenWithin recur place head body
    let level ← q.addWithin place level (Node.ofChildren (q.attributes place head) children)
    q.expandEach recur place level rest
  | level, .inline own body :: rest => do
    let nodes ← recur { place with condition := own <|> place.condition } body
    let level ← q.addEach place level nodes
    q.expandEach recur place level rest
  | level, .spread name :: rest => do
    let chain ← chain
    if name ∈ chain then ofExcept (.error (.cyclicFragment name))
    else
      match Dict.find? name q.fragments with
      | none => ofExcept (.error (.unknownFragment name))
      | some fragment => do
        let nodes ← within name
          (recur { place with condition := some fragment.condition } fragment.body)
        let level ← q.addEach place level nodes
        q.expandEach recur place level rest

def expandWithin (q : Request) : Nat → Place → List Selection → Bounded (List Node)
  | 0, _, _ => tooDeep
  | depth + 1, place, selections => do
    let outer ← chain
    q.expandEach (fun inner body => do
      let chain ← chain
      noting (.expansion outer selections) (.expansion chain body)
        (q.expandWithin depth inner body)) place [] selections

def convertWithin (q : Request) (depth : Nat) (operation : Operation) : Bounded Tree := do
  let root ← ofExcept (match q.registry.root? operation.kind with
    | some root => .ok root
    | none => .error (.missingRoot operation.kind))
  let roots ← q.expandWithin depth ⟨root, "", none⟩ operation.selections
  pure ⟨operation.kind, roots⟩

variable {P : Call → Call → Prop} {q : Request} {place : Place} {chain : List String}

theorem runs_addWithin (fewer : Node.MergesFewer P) (level : List Node) (n : Node) :
    Runs P chain (q.addWithin place level n) (q.add place level n).outcome := by
  rw [add, Node.outcome_addToLevel]
  exact runs_upsert fun x _ _ => Node.runs_absorbWithin fewer n x

theorem runs_addEach (fewer : Node.MergesFewer P) (level ns : List Node) :
    Runs P chain (q.addEach place level ns) (q.addAll place level ns).outcome := by
  induction ns generalizing level with
  | nil => exact runs_pure P chain level
  | cons n rest ih =>
    rw [outcome_addAll_cons]
    exact (runs_addWithin fewer level n).bind fun next _ => ih next

theorem runs_childrenWithin {recur : Place → List Selection → Bounded (List Node)}
    {body : List Selection} (h : ∀ inner, Runs P chain (recur inner body)
      (q.expand inner chain [] body).outcome) (head : FieldHead) :
    Runs P chain (q.childrenWithin recur place head body) (q.children place chain head body) := by
  unfold childrenWithin children
  split
  · exact runs_pure P chain none
  · refine (runs_ofExcept P chain _).bind fun inner _ => ?_
    exact (h inner).bind fun nodes _ => runs_pure P chain (some nodes)

/-- One call of an expansion runs if those that it makes do. -/
theorem runs_expandEach {recur : Place → List Selection → Bounded (List Node)}
    {selections : List Selection} (fewer : Node.MergesFewer P)
    (hsmaller : ∀ inner body, Selection.countAll body < Selection.countAll selections →
      Runs P chain (recur inner body) (q.expand inner chain [] body).outcome)
    (hspread : ∀ inner name fragment, .spread name ∈ selections → name ∉ chain →
      Dict.find? name q.fragments = some fragment →
      Runs P (name :: chain) (recur inner fragment.body)
        (q.expand inner (name :: chain) [] fragment.body).outcome)
    (rest : List Selection) (sub : rest ⊆ selections) (level : List Node) :
    Runs P chain (q.expandEach recur place level rest)
      (q.expand place chain level rest).outcome := by
  induction rest generalizing level with
  | nil =>
    rw [outcome_expand_nil]
    exact runs_pure P chain level
  | cons s rest ih =>
    obtain ⟨here, later⟩ := List.cons_subset.mp sub
    have counts := Selection.count_le_of_mem here
    cases s with
    | field head body =>
      rw [Selection.count] at counts
      rw [expandEach, outcome_expand_field, node, bind_assoc]
      refine (runs_childrenWithin (fun inner => hsmaller inner body counts) head).bind ?_
      exact fun children _ => (runs_addWithin fewer level _).bind fun next _ => ih later next
    | inline own body =>
      rw [Selection.count] at counts
      rw [expandEach, outcome_expand_inline]
      refine (hsmaller _ body counts).bind fun nodes _ => ?_
      exact (runs_addEach fewer level nodes).bind fun next _ => ih later next
    | spread name =>
      rw [expandEach]
      refine Runs.chain_bind ?_
      split
      · next old =>
        rw [outcome_expand_spread_of_mem q place chain level rest old]
        exact runs_ofExcept P chain _
      · next new =>
        split
        · next missing =>
          rw [outcome_expand_spread_of_none q place chain level rest new missing]
          exact runs_ofExcept P chain _
        · next fragment found =>
          rw [outcome_expand_spread_of_some q place chain level rest new found]
          refine (hspread _ name fragment here new found).within.bind fun nodes _ => ?_
          exact (runs_addEach fewer level nodes).bind fun next _ => ih later next

/-- An expansion never meets a bound that exceeds the selections that it is given together with
those of the fragments that are not yet on the chain. -/
theorem runs_expandWithin (q : Request) {depth : Nat} (place : Place) (chain : List String)
    (selections : List Selection)
    (enough : Selection.countAll selections + q.fragments.pending chain < depth) :
    Runs (fun c d => c.Makes q.fragments d ∧ d.Above q.fragments chain) chain
      (q.expandWithin depth place selections) (q.expand place chain [] selections).outcome := by
  induction depth generalizing place chain selections with
  | zero => exact absurd enough (Nat.not_lt_zero _)
  | succ depth ih =>
    rw [expandWithin]
    refine Runs.chain_bind (runs_expandEach (fun _ _ _ _ less => ⟨.merge less, trivial⟩) ?_ ?_
      selections (List.Subset.refl _) [])
    · intro inner body less
      exact Runs.chain_bind ((ih inner chain body (by omega)).noting ⟨.enter less, .refl⟩)
    -- the spread pays for the step, and the selections of the fragment are pending no longer
    · intro inner name fragment here new found
      have counts := Selection.count_le_of_mem here
      have pending := Fragments.count_add_pending_le new found
      have longer : q.fragments.Extends chain (name :: chain) := .spread new found .refl
      rw [Selection.count] at counts
      have inside := ih inner (name :: chain) fragment.body (by omega)
      refine Runs.chain_bind ((inside.mono ?_).noting ⟨.spread here new found, longer⟩)
      exact fun c d ⟨made, above⟩ => ⟨made, above.mono longer⟩

theorem runs_convertWithin (q : Request) {depth : Nat} (operation : Operation)
    (enough : Selection.countAll operation.selections + q.fragments.pending [] < depth) :
    Runs (fun c d => c.Makes q.fragments d ∧ d.Chained q.fragments) []
      (q.convertWithin depth operation) (q.convert operation).outcome := by
  simp only [convert, tree, Run.outcome_within, Run.outcome_bind, Run.outcome_ofExcept,
    Run.outcome_tell, Run.outcome_pure, ok_bind]
  unfold convertWithin
  refine (runs_ofExcept _ [] _).bind fun root _ => ?_
  have expanded := q.runs_expandWithin ⟨root, "", none⟩ [] operation.selections enough
  refine (expanded.mono fun c d made => ?_).bind fun nodes _ => runs_pure _ [] _
  exact ⟨made.1, Call.chained_of_above made.2⟩

/-- Whatever is asked for, a conversion ends, and so do the expansions and the merges in it: within
a bound on the depth of their calls they come to the same outcome, leave the chain as they found it,
and make recursive calls for fewer nodes, for fewer selections or with a longer chain only. No chain
of a conversion has a repetition, an undefined name or more names than there are fragments. -/
theorem convert_terminates (q : Request) :
    (∀ (operation : Operation) (depth : Nat),
        Selection.countAll operation.selections + q.fragments.pending [] < depth →
        Runs (fun c d => c.Makes q.fragments d ∧ d.Chained q.fragments) []
          (q.convertWithin depth operation) (q.convert operation).outcome) ∧
      (∀ (place : Place) (chain : List String) (selections : List Selection) (depth : Nat),
        Selection.countAll selections + q.fragments.pending chain < depth →
        Runs (Call.Makes q.fragments) chain (q.expandWithin depth place selections)
          (q.expand place chain [] selections).outcome) ∧
      ∀ (parent : Composite) (path : String) (first second : List Node) (chain : List String)
        (depth : Nat), Node.countAll first + Node.countAll second < depth →
        Runs (Call.Makes q.fragments) chain
          (Node.mergeWithin q.registry depth parent path first second)
          (Node.merge q.registry parent path first second) := by
  refine ⟨fun operation depth enough => q.runs_convertWithin operation enough,
    fun place chain selections depth enough => ?_,
    fun parent path first second chain depth enough => ?_⟩
  · exact (q.runs_expandWithin place chain selections enough).mono fun _ _ made => made.1
  · exact Node.runs_mergeWithin (fun _ _ _ _ less => .merge less) q.registry chain parent path first
      second enough

end Request

open Films Bounded in
theorem convert_terminates_hero :
    Runs (fun c d => c.Makes looping.fragments d ∧ d.Chained looping.fragments) []
        (looping.convertWithin 20 (revisiting "Orbit")) (.error (.cyclicFragment "Orbit")) ∧
      Runs (Call.Makes looping.fragments) ["Moon"]
        (looping.expandWithin 20 hero [.spread "Orbit"]) (.error (.cyclicFragment "Moon")) ∧
      ∃ merged, Runs (Call.Makes looping.fragments) ["Moon"]
        (Node.mergeWithin looping.registry 11 hero.parent "hero" early late) (.ok merged) := by
  have looped : (looping.convert (revisiting "Orbit")).outcome = .error (.cyclicFragment "Orbit") :=
    by cbv
  have inside : (looping.expand hero ["Moon"] [] [.spread "Orbit"]).outcome
      = .error (.cyclicFragment "Moon") := by cbv
  obtain ⟨merged, done⟩ : ∃ merged,
    Node.merge looping.registry hero.parent "hero" early late = .ok merged := ⟨_, by cbv⟩
  obtain ⟨conversions, expansions, merges⟩ := Request.convert_terminates looping
  exact ⟨looped ▸ conversions (revisiting "Orbit") 20 (by decide),
    inside ▸ expansions hero ["Moon"] [.spread "Orbit"] 20 (by decide), merged,
    done ▸ merges hero.parent "hero" early late ["Moon"] 11 (by decide)⟩

end SelectionTree
