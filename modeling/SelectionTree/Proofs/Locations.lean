import SelectionTree.Proofs.Siblings
import SelectionTree.Proofs.Typing
/-!
Nodes that say where they stand. The path of a node is fixed before the node is merged with others,
put in the place of another one or moved into another list, and still leads from the root of the
tree to the node.
-/
set_option autoImplicit false

namespace SelectionTree

def dotted (names : List String) : String := ".".intercalate names

namespace Request

variable {q : Request} {above : List Selected} {place : Place} {chain : List String}
  {visits : List Visit}

theorem pathOf_eq_dotted (full : ∀ s ∈ above, s.responseName ≠ "") :
    pathOf above = dotted (above.map Selected.responseName) := by
  induction above using List.reverseRecOn with
  | nil => rfl
  | append_singleton above s ih =>
    have full' : ∀ x ∈ above.map Selected.responseName, x ≠ "" := by
      simpa using fun t ht => full t (by simp [ht])
    rw [pathOf_snoc, ih fun t ht => full t (by simp [ht]), dotted, joinPath_intercalate full',
      List.map_append]
    rfl

theorem path_of_visit {root : Composite} {operation : Operation} {v : Visit}
    (ended : (q.tour root operation).offence = none)
    (full : ∀ w ∈ (q.tour root operation).visits, w.here.responseName ≠ "")
    (met : v ∈ (q.tour root operation).visits) :
    joinPath v.here.place.path v.here.responseName = dotted v.path := by
  have around : ∀ s ∈ v.above, s.responseName ≠ "" := fun s hs => by
    obtain ⟨above, inner, inside⟩ := List.append_of_mem hs
    exact full _ (above_mem_walk ended met inside (Nat.zero_le _)).1
  have full' : ∀ s ∈ v.above ++ [v.here], s.responseName ≠ "" := by
    simpa [or_imp, forall_and] using ⟨around, full v met⟩
  have start : (⟨root, "", none⟩ : Place).path = pathOf [] := rfl
  calc
    joinPath v.here.place.path v.here.responseName = pathOf (v.above ++ [v.here]) := by
      rw [path_of_mem_walk start met, pathOf_snoc]
    _ = dotted v.path := pathOf_eq_dotted full'

end Request

/-- Nodes that name, as their path, the names that lead to them, if paths are asked for. -/
def located (paths : Bool) : Tracking (List String) where
  holds p a _ := Undotted a.responseName ∧
    a.path = if paths then some (dotted (p ++ [a.responseName])) else none
  below p a := p ++ [a.responseName]
  below_eq _ _ name _ := by rw [name]

def unlocated : Tracking Unit where
  holds _ a _ := a.path = none
  below _ _ := ()
  below_eq _ _ _ _ := rfl

namespace Request

variable {q : Request}

theorem foldl_below_located (paths : Bool) (p : List String) (trail : List Attributes) :
    trail.foldl (located paths).below p = p ++ trail.map Attributes.responseName := by
  induction trail generalizing p with
  | nil => simp
  | cons a trail ih =>
    rw [List.foldl_cons, ih]
    exact List.append_assoc p [a.responseName] _

theorem follows_located :
    (located q.options.paths).Follows q fun above _ => above.map Selected.responseName where
  keyed above parent := by
    intro a b x y ha hb keys
    have slots := (Attributes.key_eq_key ha.1 hb.1 parent.name).mp keys
    exact congrArg (fun x => above.map Selected.responseName ++ [x]) (congrArg Prod.fst slots)
  below := by
    intro above place head body type _ _ _
    exact List.map_append

theorem follows_unlocated : unlocated.Follows q fun _ _ => () where
  keyed _ _ _ _ _ _ _ _ _ := rfl
  below _ _ _ := rfl

/-- Whatever was merged, the path of a node anywhere in a tree holds the names from the root of the
tree down to the node. No node has a path if paths are not asked for. -/
theorem convert_located {operation : Operation} {tree : Tree}
    (ok : (q.convert operation).outcome = .ok tree) {trail : List Attributes}
    {siblings : List Node} (found : Node.Siblings tree.roots trail siblings) :
    (q.options.paths = true →
        (∀ root, q.registry.root? operation.kind = some root →
          ∀ v ∈ (q.tour root operation).visits,
            v.here.responseName ≠ "" ∧ Undotted v.here.responseName) →
        ∀ n ∈ siblings, n.attributes.path
          = some (dotted (trail.map Attributes.responseName ++ [n.responseName]))) ∧
      (q.options.paths = false → ∀ n ∈ siblings, n.attributes.path = none) := by
  obtain ⟨root, nodes, rooted, expanded, rfl⟩ := convert_eq_ok ok
  constructor
  · intro asked names
    have names := names root rooted
    have ended : (q.tour root operation).offence = none := offence_walk_of_ok [] expanded
    have all : (located q.options.paths).All [] nodes := by
      refine Tracking.all_expand follows_located (fun v hv => ⟨(names v hv).2, ?_⟩)
        Tracking.all_nil expanded
      have path := path_of_visit ended (fun w hw => (names w hw).1) hv
      rw [Visit.path_eq] at path
      exact congrArg (fun p => if q.options.paths then some p else none) path
    have here := ((all.arranges fun _ _ => trivial).siblings trivial found).2.all
    intro n hn
    have located := (Tracking.holds_of_tracked (here n hn)).2
    rw [foldl_below_located, List.nil_append, asked, if_pos rfl] at located
    exact located
  · intro unasked n hn
    have all : unlocated.All () nodes := by
      have met : ∀ v ∈ (q.walk [] ⟨root, "", none⟩ [] operation.selections).visits,
          unlocated.HoldsAt q (fun _ _ => ()) v := fun v _ => if_neg (by simp [unasked])
      exact Tracking.all_expand follows_unlocated met Tracking.all_nil expanded
    exact Tracking.holds_of_tracked
      (((all.arranges fun _ _ => trivial).siblings trivial found).2.all n hn)

end Request

open Films in
theorem convert_located_hero :
    (∃ tree, (tracing.convert aliasing).outcome = .ok tree ∧
      ∀ trail siblings, Node.Siblings tree.roots trail siblings → ∀ n ∈ siblings,
        n.attributes.path
          = some (dotted (trail.map Attributes.responseName ++ [n.responseName]))) ∧
      ∃ tree, (request.convert aliasing).outcome = .ok tree ∧
        ∀ trail siblings, Node.Siblings tree.roots trail siblings → ∀ n ∈ siblings,
          n.attributes.path = none := by
  have names : ∀ r, tracing.registry.root? aliasing.kind = some r →
      ∀ v ∈ (tracing.tour r aliasing).visits,
        v.here.responseName ≠ "" ∧ Undotted v.here.responseName := by
    have rooted : tracing.registry.root? aliasing.kind = some root := by cbv
    have checked : ((tracing.tour root aliasing).visits.all fun v =>
        decide (v.here.responseName ≠ "" ∧ Undotted v.here.responseName)) = true := by cbv
    intro r found
    cases rooted.symm.trans found
    simpa only [List.all_eq_true, decide_eq_true_eq] using checked
  have traced : ∃ tree, (tracing.convert aliasing).outcome = .ok tree := ⟨_, by cbv⟩
  have converted : ∃ tree, (request.convert aliasing).outcome = .ok tree := ⟨_, by cbv⟩
  obtain ⟨tree, ok⟩ := traced
  obtain ⟨tree', ok'⟩ := converted
  exact ⟨⟨tree, ok, fun _ _ found => (Request.convert_located ok found).1 rfl names⟩,
    tree', ok', fun _ _ found => (Request.convert_located ok' found).2 rfl⟩

end SelectionTree
