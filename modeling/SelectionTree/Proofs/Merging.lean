import SelectionTree.Proofs.Tracking
/-!
Merges that succeed. Merging nodes can fail only where the type below a branch is not found. The
types have to be known where both lists have branches, so positions at which no others are merged
may leave the type open.
-/
set_option autoImplicit false

namespace SelectionTree.Tracking

variable {ι : Type} {t : Tracking ι} {i : ι} {r : Registry} {path : String} {parent : Composite}

/-- Wherever a branch may stand at a position with a known type, the type below it is found, and it
is the one that is known there, if one is. -/
def Resolves (t : Tracking ι) (r : Registry) (type? : ι → Option Composite) : Prop :=
  ∀ ⦃i a parent⦄, type? i = some parent → t.holds i a true →
    ∃ type, r.nested? parent a.condition a.name = some type ∧
      ∀ known, type? (t.below i a) = some known → known = type

def Known (type? : ι → Option Composite) (i : ι) (_ : List Node) : Prop := (type? i).isSome

variable {type? : ι → Option Composite}

theorem combine_succeeds (resolves : t.Resolves r type?) (here : type? i = some parent)
    {mergeChildren : Composite → String → List Node → Except ConversionError (List Node)}
    {first second : Node} (hfirst : first.Tracked t i)
    (hmerge : ∀ {a children type}, first = .branch a children →
      first.condition = second.condition →
      (∀ known, type? (t.below i a) = some known → known = type) →
      t.All (t.below i a) (Node.distinct children) →
      ∀ path, ∃ merged, mergeChildren type path (Node.distinct children) = .ok merged) :
    ∃ n, Node.combine r parent path mergeChildren second first = .ok n := by
  unfold Node.combine
  split
  · exact ⟨second, rfl⟩
  · next same =>
    cases hfirst with
    | leaf _ => exact ⟨second, rfl⟩
    | @branch _ a children stands inside =>
      obtain ⟨type, nested, known⟩ := resolves here stands
      obtain ⟨merged, done⟩ := hmerge rfl (not_not.mp same) known (All.distinct inside)
        (joinPath path a.responseName)
      refine ⟨.branch a merged, ?_⟩
      simp only [Node.typeBelow, nested, ok_bind, done]

mutual

theorem mergeLists_succeeds (resolves : t.Resolves r type?) {i : ι} {parent : Composite}
    (here : type? i = some parent) (path : String) {first : List Node} :
    (second : List Node) → t.All i first → t.Arranges (Known type?) i second →
      ∃ merged, Node.mergeLists r parent path first second = .ok merged
  | [], _, _ => ⟨first, rfl⟩
  | n :: rest, hfirst, hsecond => by
    have hn := hsecond n List.mem_cons_self
    obtain ⟨next, hnext⟩ := mergeNode_succeeds resolves here path n hfirst hn
    rw [Node.mergeLists, hnext, ok_bind]
    exact mergeLists_succeeds resolves here path rest
      (all_mergeNode hnext hfirst (tracked_of_arranged hn)) fun x hx =>
        hsecond x (List.mem_cons_of_mem n hx)

theorem mergeNode_succeeds (resolves : t.Resolves r type?) {i : ι} {parent : Composite}
    (here : type? i = some parent) (path : String) {first : List Node} :
    (n : Node) → t.All i first → n.Arranged t (Known type?) i →
      ∃ merged, Node.mergeNode r parent path first n = .ok merged
  | .leaf a, hfirst, hn => by
    rw [Node.mergeNode]
    refine upsert_succeeds fun x hx _ => ?_
    exact combine_succeeds resolves here (hfirst x hx) fun _ _ _ _ _ => ⟨_, rfl⟩
  | .branch a children, hfirst, hn => by
    rw [Node.mergeNode]
    refine upsert_succeeds fun x hx name => ?_
    refine combine_succeeds resolves here (hfirst x hx) fun {b _ type} e same found all path => ?_
    subst e
    have below : t.below i b = t.below i a := t.below_eq (holds_of_tracked (hfirst _ hx))
      (holds_of_arranged hn) (of_decide_eq_true name) same
    rw [below] at all found
    cases hn with
    | branch _ list inside =>
      -- the type is known here, so it is the one that has been found
      obtain ⟨known, hknown⟩ := Option.isSome_iff_exists.mp list
      obtain rfl := found known hknown
      exact mergeLists_succeeds resolves hknown path children all inside

end

theorem absorb_succeeds (resolves : t.Resolves r type?) (here : type? i = some parent)
    (keyed : t.Keyed i parent) {again first : Node} (hfirst : first.Tracked t i)
    (hagain : again.Arranged t (Known type?) i)
    (key : first.key parent.name = again.key parent.name) :
    ∃ n, (Node.absorb r parent path again first).outcome = .ok n := by
  cases hagain with
  | leaf _ => exact ⟨first, rfl⟩
  | branch hagain list more =>
    cases hfirst with
    | leaf stands => exact ⟨_, rfl⟩
    | @branch _ a children stands inside =>
      rw [← keyed stands hagain key] at more list
      obtain ⟨type, nested, found⟩ := resolves here stands
      obtain ⟨known, hknown⟩ := Option.isSome_iff_exists.mp list
      obtain rfl := found known hknown
      obtain ⟨merged, hmerged⟩ := mergeLists_succeeds resolves hknown
        (joinPath path a.responseName) _ (All.distinct inside) more
      refine ⟨.branch a merged, ?_⟩
      simp only [Node.absorb, Run.outcome_bind, Run.outcome_ofExcept, Run.outcome_pure,
        Node.typeBelow, nested, ok_bind, Node.merge, hmerged]

variable {q : Request} {place : Place} {level : List Node}

theorem add_succeeds (resolves : t.Resolves q.registry type?) (here : type? i = some place.parent)
    (keyed : t.Keyed i place.parent) {n : Node} (hlevel : t.All i level)
    (hn : n.Arranged t (Known type?) i) : ∃ nodes, (q.add place level n).outcome = .ok nodes := by
  rw [Request.add, Node.outcome_addToLevel]
  exact upsert_succeeds fun x hx key =>
    absorb_succeeds resolves here keyed (hlevel x hx) hn (of_decide_eq_true key)

theorem addAll_succeeds (resolves : t.Resolves q.registry type?)
    (here : type? i = some place.parent) (keyed : t.Keyed i place.parent) {ns : List Node}
    (hlevel : t.All i level) (hns : t.Arranges (Known type?) i ns) :
    ∃ nodes, (q.addAll place level ns).outcome = .ok nodes := by
  induction ns generalizing level with
  | nil => exact ⟨level, rfl⟩
  | cons n rest ih =>
    have hn := hns n List.mem_cons_self
    obtain ⟨next, added⟩ := add_succeeds resolves here keyed hlevel hn
    rw [Request.outcome_addAll_cons, added, ok_bind]
    exact ih (all_add keyed added hlevel (tracked_of_arranged hn)) fun x hx =>
      hns x (List.mem_cons_of_mem n hx)

end SelectionTree.Tracking
