import SelectionTree.Proofs.Bounded
/-!
How deep the calls of a merge are nested. A merge makes another one for lists that stand below nodes
of its own lists, and nodes do not become more on the way: the nodes of both lists are a bound.
-/
set_option autoImplicit false

namespace SelectionTree

mutual

def Node.count : Node → Nat
  | .leaf _ => 1
  | .branch _ children => countAll children + 1

def Node.countAll : List Node → Nat
  | [] => 0
  | n :: rest => n.count + countAll rest

end

namespace Node

variable {n x y : Node} {ns xs ys : List Node}

theorem countAll_cons (n : Node) (ns : List Node) : countAll (n :: ns) = n.count + countAll ns := by
  rw [countAll]

theorem count_eq (n : Node) : n.count = countAll n.children + 1 := by
  cases n with
  | leaf a => rw [count, children_leaf, countAll]
  | branch a ns => rw [count, children_branch]

theorem count_le_of_mem (h : n ∈ ns) : n.count ≤ countAll ns := by
  induction ns with
  | nil => exact absurd h List.not_mem_nil
  | cons x ns ih =>
    rw [countAll_cons]
    rcases List.mem_cons.mp h with rfl | later
    · exact Nat.le_add_right _ _
    · exact Nat.le_trans (ih later) (Nat.le_add_left _ _)

theorem countAll_blend {update : Node → Node} (key : Node → String)
    (h : ∀ x, (update x).count ≤ x.count + n.count) (ns : List Node) :
    countAll (blend key update n ns) ≤ countAll ns + n.count := by
  induction ns with
  | nil =>
    rw [blend, countAll_cons]
    exact Nat.le_of_eq (Nat.add_comm _ _)
  | cons x ns ih =>
    have here := h x
    rw [blend, countAll_cons]
    split
    all_goals
      rw [countAll_cons]
      omega

theorem countAll_blendAll {join : Node → Node → Node} (key : Node → String)
    (h : ∀ x y, (join x y).count ≤ x.count + y.count) (xs ys : List Node) :
    countAll (blendAll key join xs ys) ≤ countAll xs + countAll ys := by
  induction ys generalizing xs with
  | nil => exact Nat.le_add_right _ _
  | cons y ys ih =>
    have here := countAll_blend key (fun x => h x y) xs
    have later := ih (blend key (fun x => join x y) y xs)
    rw [blendAll_cons, countAll_cons]
    omega

theorem countAll_distinct (ns : List Node) : countAll (distinct ns) ≤ countAll ns := by
  have none : countAll [] = 0 := by rw [countAll]
  rw [distinct_eq]
  refine Nat.le_trans (countAll_blendAll responseName (fun _ _ => Nat.le_add_left _ _) [] ns) ?_
  exact Nat.le_of_eq (by rw [none, Nat.zero_add])

theorem count_joined {mergeChildren : List Node → List Node}
    (h : ∀ ns, countAll (mergeChildren ns) ≤ countAll ns + countAll y.children) (x : Node) :
    (joined mergeChildren y x).count ≤ x.count + y.count := by
  unfold joined
  split
  · exact Nat.le_add_left _ _
  · cases x with
    | leaf a => exact Nat.le_add_left _ _
    | branch a ns =>
      have merged := h (distinct ns)
      have fewer := countAll_distinct ns
      have more := count_eq y
      simp only [count]
      omega

mutual

theorem countAll_overlay (xs : List Node) :
    (ys : List Node) → countAll (overlay xs ys) ≤ countAll xs + countAll ys
  | [] => by
    rw [overlay]
    exact Nat.le_add_right _ _
  | y :: ys => by
    have here := countAll_overlayNode xs y
    have later := countAll_overlay (overlayNode xs y) ys
    rw [overlay, countAll_cons]
    omega

theorem countAll_overlayNode (xs : List Node) :
    (y : Node) → countAll (overlayNode xs y) ≤ countAll xs + y.count
  | .leaf a => by
    rw [overlayNode]
    refine countAll_blend responseName (count_joined fun ns => ?_) xs
    exact Nat.le_add_right _ _
  | .branch a more => by
    rw [overlayNode]
    refine countAll_blend responseName (count_joined fun ns => ?_) xs
    exact countAll_overlay ns more

end

variable {r : Registry} {parent : Composite} {path : String}

/-- What becomes of a node when one of its name is merged into its list. `recur` merges the lists
below. -/
def combineWithin (r : Registry) (parent : Composite) (path : String)
    (recur : Composite → String → List Node → List Node → Bounded (List Node))
    (second first : Node) : Bounded Node :=
  if first.condition ≠ second.condition then pure second
  else
    match first with
    | leaf _ => pure second
    | branch a children => do
      let type ← Bounded.ofExcept (typeBelow r parent path a)
      let merged ← recur type (joinPath path a.responseName) children second.children
      pure (branch a merged)

def mergeEach (r : Registry) (parent : Composite) (path : String)
    (recur : Composite → String → List Node → List Node → Bounded (List Node)) :
    List Node → List Node → Bounded (List Node)
  | merged, [] => pure merged
  | merged, n :: rest => do
    let merged ← upsert (fun x => x.responseName = n.responseName)
      (combineWithin r parent path recur n) n merged
    mergeEach r parent path recur merged rest

def mergeWithin (r : Registry) : Nat → Composite → String → List Node → List Node →
    Bounded (List Node)
  | 0, _, _, _, _ => Bounded.tooDeep
  | depth + 1, parent, path, first, second =>
    mergeEach r parent path (fun type below children more =>
      Bounded.noting (.merge first second) (.merge children more)
        (mergeWithin r depth type below children more)) (distinct first) second

open Bounded

variable {P : Call → Call → Prop} {stack : List String}
  {recur : Composite → String → List Node → List Node → Bounded (List Node)}

theorem runs_combineWithin {first second : Node}
    (h : ∀ type below, Runs P stack (recur type below first.children second.children)
      (merge r type below first.children second.children)) :
    Runs P stack (combineWithin r parent path recur second first)
      (combine r parent path (fun type path children =>
        mergeLists r type path children second.children) second first) := by
  unfold combineWithin combine
  split
  · exact runs_pure P stack _
  · cases first with
    | leaf a => exact runs_pure P stack _
    | branch a children =>
      refine (runs_ofExcept P stack _).bind fun type _ => ?_
      exact (h type _).bind fun merged _ => runs_pure P stack _

/-- One merge runs if the merges of fewer nodes do. -/
theorem runs_mergeEach (total : Nat)
    (h : ∀ type below first second, countAll first + countAll second < total →
      Runs P stack (recur type below first second) (merge r type below first second))
    (rest merged : List Node) (enough : countAll merged + countAll rest ≤ total) :
    Runs P stack (mergeEach r parent path recur merged rest)
      (mergeLists r parent path merged rest) := by
  induction rest generalizing merged with
  | nil =>
    rw [mergeEach, mergeLists]
    exact runs_pure P stack merged
  | cons n rest ih =>
    rw [countAll_cons] at enough
    rw [mergeEach, mergeLists, mergeNode_eq]
    refine (runs_upsert fun x mem _ => runs_combineWithin fun type below => ?_).bind
      fun next added => ih next ?_
    -- the node that is found may come from either list, but what stands below it and below `n` is
    -- without the two of them
    · have here := count_le_of_mem mem
      have counts := count_eq x
      have counts' := count_eq n
      exact h type below _ _ (by omega)
    · rw [← mergeNode_eq] at added
      have grown := countAll_overlayNode merged n
      rw [mergeNode_eq_ok n added]
      omega

def MergesFewer (P : Call → Call → Prop) : Prop :=
  ∀ ⦃first second first' second'⦄, countAll first' + countAll second'
    < countAll first + countAll second → P (.merge first second) (.merge first' second')

theorem runs_mergeWithin (fewer : MergesFewer P) (r : Registry) (stack : List String) {depth : Nat}
    (parent : Composite) (path : String) (first second : List Node)
    (enough : countAll first + countAll second < depth) :
    Runs P stack (mergeWithin r depth parent path first second)
      (merge r parent path first second) := by
  induction depth generalizing parent path first second with
  | zero => exact absurd enough (Nat.not_lt_zero _)
  | succ depth ih =>
    have start := countAll_distinct first
    rw [mergeWithin, merge]
    refine runs_mergeEach (countAll first + countAll second) ?_ second _ (by omega)
    intro type below children more less
    exact (ih type below children more (by omega)).noting (fewer less)

def absorbWithin (r : Registry) (parent : Composite) (path : String) (again first : Node) :
    Bounded Node :=
  match again, first with
  | leaf _, first => pure first
  | branch _ _, leaf a => pure (leaf a)
  | branch _ more, branch a children => do
    let type ← Bounded.ofExcept (typeBelow r parent path a)
    let merged ← mergeWithin r (countAll children + countAll more + 1) type
      (joinPath path a.responseName) children more
    pure (branch a merged)

theorem runs_absorbWithin (fewer : MergesFewer P) (again first : Node) :
    Runs P stack (absorbWithin r parent path again first)
      (absorb r parent path again first).outcome := by
  cases again with
  | leaf b => exact runs_pure P stack first
  | branch b more =>
    cases first with
    | leaf a => exact runs_pure P stack _
    | branch a children =>
      simp only [absorb, Run.outcome_bind, Run.outcome_ofExcept, Run.outcome_pure]
      refine (runs_ofExcept P stack _).bind fun type _ => ?_
      refine (runs_mergeWithin fewer r stack type _ children more (Nat.lt_succ_self _)).bind ?_
      exact fun merged _ => runs_pure P stack _

end Node

end SelectionTree
