import SelectionTree.Proofs.Entries
/-!
Merges of three lists. Lists in which a name stands once at every depth, and whose nodes of one path
were selected under one type condition, may be merged from either side: what becomes of a leaf, of a
branch and of the children of a branch does not depend on which two lists come together first.
-/
set_option autoImplicit false

namespace SelectionTree

namespace Node

mutual

/-- A node and the nodes below it, each with the response names that lead to it. -/
def withPaths : Node → List (List String × Node)
  | leaf a => [([a.responseName], leaf a)]
  | branch a children =>
    ([a.responseName], branch a children)
      :: (withPathsAll children).map fun e => (a.responseName :: e.1, e.2)

def withPathsAll : List Node → List (List String × Node)
  | [] => []
  | n :: rest => n.withPaths ++ withPathsAll rest

end

/-- Nodes to which the same response names lead have one type condition. -/
def Agree (ns : List Node) : Prop :=
  ∀ e ∈ withPathsAll ns, ∀ f ∈ withPathsAll ns, e.1 = f.1 → e.2.condition = f.2.condition

instance (ns : List Node) : Decidable (Agree ns) :=
  inferInstanceAs (Decidable (∀ e ∈ withPathsAll ns, ∀ f ∈ withPathsAll ns,
    e.1 = f.1 → e.2.condition = f.2.condition))

variable {r : Registry} {parent : Composite} {path : String} {n : Node}
  {xs ys zs xy yz left right : List Node}

theorem withPathsAll_eq (ns : List Node) : withPathsAll ns = ns.flatMap withPaths := by
  induction ns with
  | nil => rfl
  | cons n rest ih => rw [withPathsAll, ih, List.flatMap_cons]

theorem mem_withPaths (n : Node) : ([n.responseName], n) ∈ n.withPaths := by
  cases n <;> exact List.mem_cons_self

theorem mem_withPaths_of_child {e : List String × Node} (h : e ∈ withPathsAll n.children) :
    (n.responseName :: e.1, e.2) ∈ n.withPaths := by
  cases n with
  | leaf a => cases h
  | branch a children => exact List.mem_cons_of_mem _ (List.mem_map_of_mem h)

theorem agree_children {ns ms : List Node} (h : Agree ns) (name : String)
    (mem : ∀ m ∈ ms, m ∈ ns ∧ m.responseName = name) : Agree (ms.flatMap children) := by
  have lift : ∀ e ∈ withPathsAll (ms.flatMap children), (name :: e.1, e.2) ∈ withPathsAll ns := by
    intro e he
    rw [withPathsAll_eq, List.flatMap_assoc, List.mem_flatMap] at he
    obtain ⟨m, hm, he⟩ := he
    obtain ⟨here, rfl⟩ := mem m hm
    rw [withPathsAll_eq, List.mem_flatMap]
    exact ⟨m, here, mem_withPaths_of_child (withPathsAll_eq m.children ▸ he)⟩
  intro e he f hf same
  exact h (name :: e.1, e.2) (lift e he) (name :: f.1, f.2) (lift f hf)
    (congrArg (name :: ·) same)

theorem supersedes_of_nodup (once : (ys.map responseName).Nodup) (xs : List Node) :
    Supersedes ys xs :=
  (List.pairwise_map.mp once).imp fun other name => absurd name other

theorem aligned_of_agree (hxs : Single xs) (hys : Single ys) (hzs : Single zs)
    (agree : Agree (xs ++ ys ++ zs)) : Aligned xs ys zs := by
  induction hxs generalizing ys zs with
  | @intro xs once inside ih =>
    cases hys with | intro oncey insidey =>
    cases hzs with | intro oncez insidez =>
    refine .intro (supersedes_of_nodup oncey xs) (supersedes_of_nodup oncez xs)
      (fun x hx _ y hy z hz name _ _ => ?_) fun x hx _ y hy _ z hz name name' _ _ => ?_
    · have memx : x ∈ xs ++ ys ++ zs := by simp [hx]
      have memy : y ∈ xs ++ ys ++ zs := by simp [hy]
      rw [Agree, withPathsAll_eq] at agree
      exact agree _ (List.mem_flatMap_of_mem memy y.mem_withPaths) _
        (List.mem_flatMap_of_mem memx x.mem_withPaths) (by rw [name])
    · have below : Agree ([x, y, z].flatMap children) :=
        agree_children agree y.responseName (by simp [hx, hy, hz, name, name'])
      refine ih x hx (insidey y hy) (insidez z hz) ?_
      simpa using below

/-- Three lists may be merged from either side. -/
theorem merge_assoc (hxs : Single xs) (hys : Single ys) (hzs : Single zs)
    (agree : Agree (xs ++ ys ++ zs)) (first : merge r parent path xs ys = .ok xy)
    (fromLeft : merge r parent path xy zs = .ok left) (last : merge r parent path ys zs = .ok yz)
    (fromRight : merge r parent path xs yz = .ok right) : left = right := by
  have once : (xy.map responseName).Nodup := by
    rw [mergeLists_eq_ok ys first]
    exact nodup_overlay (nodup_distinct xs) ys
  calc
    left = overlay (distinct xy) zs := mergeLists_eq_ok zs fromLeft
    _ = overlay (overlay (distinct xs) ys) zs := by
      rw [distinct_of_nodup once, mergeLists_eq_ok ys first]
    _ = overlay (distinct xs) (overlay (distinct ys) zs) :=
      overlay_assoc (aligned_of_agree hxs hys hzs agree)
    _ = overlay (distinct xs) yz := by rw [mergeLists_eq_ok zs last]
    _ = right := (mergeLists_eq_ok yz fromRight).symm

end Node

namespace Films

def opening : List Node :=
  [.branch { name := "friends" } [.leaf { name := "id" },
     .branch { name := "friends" } [.leaf { name := "name" }]],
   .leaf { name := "name" }]

def middle : List Node :=
  [.leaf { name := "friends", path := some "middle" },
   .branch { name := "friends", aliasName := some "name" } [.leaf { name := "id" }],
   .leaf { name := "id", condition := some "Droid" }]

def ending : List Node :=
  [.branch { name := "friends" } [.leaf { name := "friends" }, .leaf { name := "name" }],
   .leaf { name := "id", aliasName := some "name" },
   .leaf { name := "id", condition := some "Droid", path := some "ending" }]

end Films

open Films in
theorem merge_assoc_hero : ∃ xy yz left right,
    Node.merge request.registry hero.parent "hero" opening middle = .ok xy ∧
      Node.merge request.registry hero.parent "hero" xy ending = .ok left ∧
      Node.merge request.registry hero.parent "hero" middle ending = .ok yz ∧
      Node.merge request.registry hero.parent "hero" opening yz = .ok right ∧
      Node.pathsAll left = [["friends"], ["friends", "id"], ["friends", "friends"],
        ["friends", "friends", "name"], ["friends", "name"], ["name"], ["name", "id"], ["id"]] ∧
      left = right := by
  have leaves : Node.Single [] := ⟨by decide, by simp⟩
  have id : Node.Single [.leaf { name := "id" }] := ⟨by decide, by simpa using leaves⟩
  have name : Node.Single [.leaf { name := "name" }] := ⟨by decide, by simpa using leaves⟩
  have friends : Node.Single [.leaf { name := "id" },
      .branch { name := "friends" } [.leaf { name := "name" }]] :=
    ⟨by decide, by simpa using ⟨leaves, name⟩⟩
  have both : Node.Single [.leaf { name := "friends" }, .leaf { name := "name" }] :=
    ⟨by decide, by simpa using leaves⟩
  have single : Node.Single opening := ⟨by decide, by simpa [opening] using ⟨friends, leaves⟩⟩
  have single' : Node.Single middle := ⟨by decide, by simpa [middle] using ⟨leaves, id, leaves⟩⟩
  have single'' : Node.Single ending := ⟨by decide, by simpa [ending] using ⟨both, leaves⟩⟩
  have agree : Node.Agree (opening ++ middle ++ ending) := by decide
  have first : Node.merge request.registry hero.parent "hero" opening middle
      = .ok [.branch { name := "friends" } [.leaf { name := "id" },
            .branch { name := "friends" } [.leaf { name := "name" }]],
          .branch { name := "friends", aliasName := some "name" } [.leaf { name := "id" }],
          .leaf { name := "id", condition := some "Droid" }] := by cbv
  have last : Node.merge request.registry hero.parent "hero" middle ending
      = .ok [.branch { name := "friends" } [.leaf { name := "friends" }, .leaf { name := "name" }],
          .branch { name := "friends", aliasName := some "name" } [.leaf { name := "id" }],
          .leaf { name := "id", condition := some "Droid", path := some "ending" }] := by cbv
  exact ⟨_, _, _, _, first, by cbv, last, by cbv, by cbv,
    Node.merge_assoc single single' single'' agree first (by cbv) last (by cbv)⟩

end SelectionTree
