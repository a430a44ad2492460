import SelectionTree.Proofs.Blending
import SelectionTree.Proofs.Names
/-!
What merges make of nodes, with the types left aside that decide only whether they succeed. Lists
that are merged are blended by response name and levels by key, so a merge may be grouped in any way
as long as no node stands between two of another type condition that would be merged.
-/
set_option autoImplicit false

namespace SelectionTree

theorem upsert_eq_blend {α κ ε : Type} [DecidableEq κ] {key : α → κ} {new : α} {f : α → α}
    {update : α → Except ε α} {xs ys : List α}
    (h : upsert (fun x => decide (key x = key new)) update new xs = .ok ys)
    (same : ∀ x y, update x = .ok y → y = f x) : ys = blend key f new xs := by
  induction xs generalizing ys with
  | nil =>
    cases h
    rfl
  | cons x xs ih =>
    rw [upsert] at h
    rw [blend]
    by_cases here : key x = key new
    · rw [if_pos (decide_eq_true here), bind_eq_ok] at h
      obtain ⟨y, updated, h⟩ := h
      cases h
      rw [if_pos here, same x y updated]
    · rw [if_neg (by simpa using here), bind_eq_ok] at h
      obtain ⟨rest, done, h⟩ := h
      cases h
      rw [if_neg here, ih done]

namespace Node

def children (n : Node) : List Node := n.children?.getD []

@[simp] theorem children_leaf (a : Attributes) : (leaf a).children = [] := rfl

@[simp] theorem children_branch (a : Attributes) (ns : List Node) :
    (branch a ns).children = ns := rfl

/-- What two nodes of one response name become in a list below a field. -/
def joined (mergeChildren : List Node → List Node) (second first : Node) : Node :=
  if first.condition ≠ second.condition then second
  else
    match first with
    | leaf _ => second
    | branch a children => branch a (mergeChildren (distinct children))

mutual

def overlay (first : List Node) : List Node → List Node
  | [] => first
  | n :: rest => overlay (overlayNode first n) rest

def overlayNode (first : List Node) : Node → List Node
  | leaf a => blend responseName (joined id (leaf a)) (leaf a) first
  | branch a more =>
    blend responseName (joined (fun children => overlay children more) (branch a more))
      (branch a more) first

end

def overlaid (first second : Node) : Node :=
  joined (fun children => overlay children second.children) second first

def absorbed (first again : Node) : Node :=
  match again, first with
  | leaf _, first => first
  | branch _ _, leaf a => leaf a
  | branch _ more, branch a children => branch a (overlay (distinct children) more)

theorem overlay_nil (first : List Node) : overlay first [] = first := by rw [overlay]

theorem overlayNode_eq (first : List Node) (n : Node) :
    overlayNode first n = blend responseName (fun x => overlaid x n) n first := by
  cases n with
  | leaf a =>
    rw [overlayNode]
    rfl
  | branch a more =>
    rw [overlayNode]
    rfl

theorem overlay_eq (first second : List Node) :
    overlay first second = blendAll responseName overlaid first second := by
  induction second generalizing first with
  | nil => exact overlay_nil first
  | cons n rest ih => rw [overlay, overlayNode_eq, ih, blendAll_cons]

theorem put_eq (n : Node) (ns : List Node) : put n ns = blend responseName (fun _ => n) n ns := by
  induction ns with
  | nil => rfl
  | cons x ns ih => rw [put, blend, ih]

theorem distinct_eq (ns : List Node) :
    distinct ns = blendAll responseName (fun _ n => n) [] ns := by
  simp only [distinct, blendAll, put_eq]

theorem names_distinct (ns : List Node) :
    (distinct ns).map responseName = firsts id (ns.map responseName) := by
  have keeps : KeepsKey responseName fun _ n => n := fun _ _ name => name.symm
  have start : (([] : List Node).map responseName).Nodup := List.nodup_nil
  rw [distinct_eq, map_key_blendAll keeps start]
  rfl

theorem nodup_distinct (ns : List Node) : ((distinct ns).map responseName).Nodup := by
  rw [names_distinct]
  simpa using nodup_map_firsts id (ns.map responseName)

theorem distinct_eq_nil {ns : List Node} (h : distinct ns = []) : ns = [] := by
  have names := names_distinct ns
  rw [h] at names
  cases ns with
  | nil => rfl
  | cons n ns => cases names

variable {r : Registry} {parent : Composite} {path : String} {n first second : Node}

theorem combine_eq_ok {mergeChildren : Composite → String → List Node →
      Except ConversionError (List Node)} {f : List Node → List Node}
    (h : combine r parent path mergeChildren second first = .ok n)
    (same : ∀ type path children merged, mergeChildren type path children = .ok merged →
      merged = f children) : n = joined f second first := by
  unfold combine at h
  unfold joined
  split at h
  · next other =>
    cases h
    rw [if_pos other]
  · next same' =>
    rw [if_neg same']
    cases first with
    | leaf a =>
      cases h
      rfl
    | branch a children =>
      obtain ⟨type, -, h⟩ := bind_eq_ok.mp h
      obtain ⟨merged, done, h⟩ := bind_eq_ok.mp h
      cases h
      rw [same _ _ _ _ done]

mutual

theorem mergeLists_eq_ok {parent : Composite} {path : String} {first merged : List Node} :
    (second : List Node) → mergeLists r parent path first second = .ok merged →
      merged = overlay first second
  | [], h => by
    cases h
    rw [overlay]
  | n :: rest, h => by
    rw [mergeLists, bind_eq_ok] at h
    obtain ⟨next, hnext, h⟩ := h
    rw [overlay, mergeLists_eq_ok rest h, mergeNode_eq_ok n hnext]

theorem mergeNode_eq_ok {parent : Composite} {path : String} {first merged : List Node} :
    (n : Node) → mergeNode r parent path first n = .ok merged → merged = overlayNode first n
  | .leaf a, h => by
    rw [mergeNode] at h
    rw [overlayNode]
    refine upsert_eq_blend h fun x y combined => combine_eq_ok combined ?_
    intro type path children merged done
    cases done
    rfl
  | .branch a more, h => by
    rw [mergeNode] at h
    rw [overlayNode]
    refine upsert_eq_blend h fun x y combined => combine_eq_ok combined ?_
    exact fun type path children merged done => mergeLists_eq_ok more done

end

theorem absorb_eq_ok {again : Node} (h : (absorb r parent path again first).outcome = .ok n) :
    n = absorbed first again := by
  cases again with
  | leaf _ =>
    cases h
    rfl
  | branch b more =>
    cases first with
    | leaf a =>
      cases h
      rfl
    | branch a children =>
      simp only [absorb, Run.outcome_bind, Run.outcome_ofExcept, bind_eq_ok, Run.outcome_pure,
        Except.ok.injEq] at h
      obtain ⟨type, -, merged, done, rfl⟩ := h
      rw [absorbed, mergeLists_eq_ok more done]

end Node

namespace Request

variable {q : Request} {place : Place} {level nodes : List Node}

theorem add_eq_ok {n : Node} (h : (q.add place level n).outcome = .ok nodes) :
    nodes = blend (Node.key · place.parent.name) (fun x => x.absorbed n) n level := by
  rw [add, Node.outcome_addToLevel] at h
  exact upsert_eq_blend h fun x y absorbed => Node.absorb_eq_ok absorbed

theorem addAll_eq_ok {ns : List Node} (h : (q.addAll place level ns).outcome = .ok nodes) :
    nodes = blendAll (Node.key · place.parent.name) Node.absorbed level ns := by
  induction ns generalizing level with
  | nil =>
    cases h
    rfl
  | cons n rest ih =>
    rw [outcome_addAll_cons, bind_eq_ok] at h
    obtain ⟨next, added, h⟩ := h
    rw [blendAll_cons, ← add_eq_ok added]
    exact ih h

end Request

namespace Node

variable {a b : Attributes} {x y z : Node} {xs ys zs : List Node}

theorem mem_distinct (h : x ∈ distinct xs) : x ∈ xs := by
  rw [distinct_eq] at h
  exact forall_mem_blendAll (P := (· ∈ xs)) (fun _ none => absurd none List.not_mem_nil)
    (fun _ here => here) (fun _ _ later _ _ => later) x h

theorem distinct_snoc (n : Node) (ns : List Node) :
    distinct (ns ++ [n]) = blend responseName (fun _ => n) n (distinct ns) := by
  rw [distinct_eq, distinct_eq, blendAll_snoc]

theorem overlaid_of_ne (other : x.condition ≠ y.condition) : overlaid x y = y := by
  unfold overlaid joined
  rw [if_pos other]

theorem overlaid_leaf (a : Attributes) (y : Node) : overlaid (leaf a) y = y := by
  unfold overlaid joined
  rw [ite_self]

theorem overlaid_branch (same : (branch a xs).condition = y.condition) :
    overlaid (branch a xs) y = branch a (overlay (distinct xs) y.children) := by
  rw [overlaid, joined, if_neg (not_not.mpr same)]

theorem keeps_overlaid : KeepsKey responseName overlaid := by
  intro x y name
  unfold overlaid joined
  split
  · exact name.symm
  · cases x with
    | leaf a => exact name.symm
    | branch a xs => rfl

theorem nodup_overlay (once : (xs.map responseName).Nodup) (ys : List Node) :
    ((overlay xs ys).map responseName).Nodup := by
  rw [overlay_eq]
  exact nodup_blendAll keeps_overlaid once ys

theorem overlay_eq_nil (h : overlay xs ys = []) : xs = [] := by
  rw [overlay_eq] at h
  exact (blendAll_eq_nil h).1

theorem condition_overlaid (x y : Node) : (overlaid x y).condition = y.condition := by
  by_cases same : x.condition = y.condition
  · cases x with
    | leaf a => rw [overlaid_leaf]
    | branch a xs =>
      rw [overlaid_branch same]
      exact same
  · rw [overlaid_of_ne same]

/-- Of the nodes that have one name in the second list only the first may have the type condition of
a branch in the first list, and they have different ones. When they are merged into the first list,
each takes the place of the one before. -/
def Supersedes (second first : List Node) : Prop :=
  second.Pairwise fun y z => y.responseName = z.responseName → y.condition ≠ z.condition ∧
    ∀ x ∈ first, x.children?.isSome → x.responseName = z.responseName → x.condition ≠ z.condition

theorem Supersedes.distinct (h : Supersedes ys xs) : Supersedes ys (distinct xs) := by
  refine List.Pairwise.imp (fun here name => ?_) h
  exact ⟨(here name).1, fun x hx => (here name).2 x (mem_distinct hx)⟩

/-- A node that a leaf or a node under another type condition is merged with takes its place. -/
theorem overlaid_of_branch_ne (other : x.children?.isSome → x.condition ≠ y.condition) :
    overlaid x y = y := by
  cases x with
  | leaf a => exact overlaid_leaf a y
  | branch a xs => exact overlaid_of_ne (other rfl)

/-- Where they supersede each other, the last nodes of each name are all that is merged. -/
theorem overlay_distinct (once : (xs.map responseName).Nodup) (h : Supersedes ys xs) :
    overlay xs (distinct ys) = overlay xs ys := by
  induction ys using List.reverseRecOn with
  | nil => rfl
  | append_singleton ys n ih =>
    obtain ⟨before, -, last⟩ := List.pairwise_append.mp h
    have last := fun y hy => last y hy n List.mem_cons_self
    have put : KeepsKey responseName fun _ n => n := fun _ _ name => name.symm
    have nodup := nodup_distinct ys
    have nodup' := nodup_blend (fun x => put x n) nodup
    have ih := ih before
    simp only [overlay_eq] at ih ⊢
    rw [distinct_snoc, blendAll_snoc, ← ih]
    refine eq_of_entries ?_ (nodup_blendAll keeps_overlaid once _) fun k => ?_
    · rw [map_key_blendAll keeps_overlaid once, firsts_id_blend (fun x => put x n) nodup,
        firsts_id_blend (fun x => keeps_overlaid x n) (nodup_blendAll keeps_overlaid once _),
        map_key_blendAll keeps_overlaid once, firsts_append_firsts, firsts_firsts_append,
        List.append_assoc]
    · rw [withKey?_blendAll keeps_overlaid nodup', withKey?_blend fun x => put x n,
        withKey?_blend fun x => keeps_overlaid x n, withKey?_blendAll keeps_overlaid nodup]
      split
      · next here =>
        cases hy : withKey? responseName k (distinct ys) with
        | none => cases withKey? responseName k xs <;> rfl
        | some y =>
          obtain ⟨memy, namey⟩ := mem_of_withKey? hy
          obtain ⟨other, first⟩ := last y (mem_distinct memy) (namey.trans here.symm)
          cases hx : withKey? responseName k xs with
          | none => exact congrArg some (overlaid_of_ne other).symm
          | some x =>
            -- the first node and the one that is superseded are replaced alike
            obtain ⟨memx, namex⟩ := mem_of_withKey? hx
            have whole : overlaid (overlaid x y) n = n :=
              overlaid_of_ne (condition_overlaid x y ▸ other)
            have right : overlaid x n = n :=
              overlaid_of_branch_ne fun full => first x memx full (namex.trans here.symm)
            exact congrArg some (right.trans whole.symm)
      · rfl

/-- Three nodes of one name may be merged from either side, unless the second parts the others,
a branch and a node with its type condition. -/
theorem overlaid_assoc
    (runs : x.children?.isSome → x.condition = z.condition → y.condition = x.condition)
    (assoc : x.children?.isSome → y.children?.isSome → x.condition = y.condition →
      y.condition = z.condition →
      overlay (overlay (distinct x.children) y.children) z.children
        = overlay (distinct x.children) (overlay (distinct y.children) z.children)) :
    overlaid (overlaid x y) z = overlaid x (overlaid y z) := by
  cases x with
  | leaf a => rw [overlaid_leaf, overlaid_leaf]
  | branch a xs =>
    by_cases hyz : y.condition = z.condition
    · by_cases hxy : (branch a xs).condition = y.condition
      · have whole : (branch a xs).condition = (overlaid y z).condition := by
          rw [condition_overlaid, hxy, hyz]
        have merged : (branch a (overlay (distinct xs) y.children)).condition = z.condition :=
          hxy.trans hyz
        have once := nodup_overlay (nodup_distinct xs) y.children
        rw [overlaid_branch hxy, overlaid_branch merged, overlaid_branch whole,
          distinct_of_nodup once]
        cases y with
        | leaf b => rw [overlaid_leaf, children_leaf, overlay_nil]
        | branch b ys => exact overlaid_branch hyz ▸ congrArg (branch a) (assoc rfl rfl hxy hyz)
      · have whole : (branch a xs).condition ≠ (overlaid y z).condition := by
          rwa [condition_overlaid, ← hyz]
        rw [overlaid_of_ne hxy, overlaid_of_ne whole]
    · have first : (branch a xs).condition ≠ z.condition :=
        fun same => hyz ((runs rfl same).trans same)
      have whole : (overlaid (branch a xs) y).condition ≠ z.condition := by
        rwa [condition_overlaid]
      rw [overlaid_of_ne hyz, overlaid_of_ne first, overlaid_of_ne whole]

theorem mem_overlay (h : y ∈ overlay ys zs) : y ∈ ys ∨
    ∃ z ∈ zs, y.responseName = z.responseName ∧ y.condition = z.condition := by
  rw [overlay_eq] at h
  refine forall_mem_blendAll (P := fun y => y ∈ ys ∨
    ∃ z ∈ zs, y.responseName = z.responseName ∧ y.condition = z.condition)
    (fun y hy => .inl hy) (fun z hz => .inr ⟨z, hz, rfl, rfl⟩) (fun y z hz name _ => ?_) y h
  exact .inr ⟨z, hz, (keeps_overlaid y z name).trans name, condition_overlaid y z⟩

/-- Three lists may be merged from either side if nodes of one name may. -/
theorem overlay_overlay (oncex : (xs.map responseName).Nodup) (oncey : (ys.map responseName).Nodup)
    (supersedes : Supersedes zs xs)
    (assoc : ∀ x ∈ xs, ∀ y ∈ ys, ∀ z ∈ zs, x.responseName = y.responseName →
      y.responseName = z.responseName → overlaid (overlaid x y) z = overlaid x (overlaid y z)) :
    overlay (overlay xs ys) zs = overlay xs (overlay ys zs) := by
  induction zs using List.reverseRecOn with
  | nil => rw [overlay_nil, overlay_nil]
  | append_singleton zs z ih =>
    obtain ⟨before, -, last⟩ := List.pairwise_append.mp supersedes
    have ih := ih before fun x hx y hy z hz => assoc x hx y hy z (List.mem_append_left _ hz)
    have single : ([z].map responseName).Nodup := List.nodup_singleton _
    simp only [overlay_eq] at ih ⊢
    rw [blendAll_snoc, blendAll_snoc, ih]
    refine blendAll_assoc keeps_overlaid oncex (nodup_blendAll keeps_overlaid oncey zs) single
      fun x hx y hy z' hz' name name' => ?_
    obtain rfl := List.mem_singleton.mp hz'
    rcases mem_overlay (overlay_eq ys zs ▸ hy) with hy | ⟨earlier, mem, same, same'⟩
    · exact assoc x hx y hy z' (List.mem_append_right _ hz') name name'
    · -- what has come of an earlier node of the name is superseded by the last one
      obtain ⟨other, first⟩ := last earlier mem z' List.mem_cons_self (same.symm.trans name')
      rw [← same'] at other
      have whole : (overlaid x y).condition ≠ z'.condition := condition_overlaid x y ▸ other
      rw [overlaid_of_ne other, overlaid_of_ne whole]
      exact (overlaid_of_branch_ne fun full => first x hx full (name.trans name')).symm

/-- Three lists in which a branch and a node of its name and type condition are not parted by a node
with another condition, on all levels that would be merged. -/
inductive Aligned : List Node → List Node → List Node → Prop
  | intro {xs ys zs : List Node} (hxy : Supersedes ys xs) (hxz : Supersedes zs xs)
      (runs : ∀ x ∈ xs, x.children?.isSome → ∀ y ∈ ys, ∀ z ∈ zs,
        x.responseName = y.responseName → y.responseName = z.responseName →
        x.condition = z.condition → y.condition = x.condition)
      (inside : ∀ x ∈ xs, x.children?.isSome → ∀ y ∈ ys, y.children?.isSome → ∀ z ∈ zs,
        x.responseName = y.responseName → y.responseName = z.responseName →
        x.condition = y.condition → y.condition = z.condition →
        Aligned x.children y.children z.children) : Aligned xs ys zs

theorem overlay_assoc (h : Aligned xs ys zs) :
    overlay (overlay (distinct xs) ys) zs
      = overlay (distinct xs) (overlay (distinct ys) zs) := by
  induction h with
  | @intro xs ys zs hxy hxz runs inside ih =>
    have oncex := nodup_distinct xs
    rw [← overlay_distinct oncex hxy.distinct]
    refine overlay_overlay oncex (nodup_distinct ys) hxz.distinct
      fun x hx y hy z hz name name' => ?_
    have hx := mem_distinct hx
    have hy := mem_distinct hy
    exact overlaid_assoc (fun full => runs x hx full y hy z hz name name') fun full full' =>
      ih x hx full y hy full' z hz name name'

inductive Single : List Node → Prop
  | intro {ns : List Node} (once : (ns.map responseName).Nodup)
      (inside : ∀ n ∈ ns, Single n.children) : Single ns

theorem Single.once (h : Single xs) : (xs.map responseName).Nodup := by
  cases h with | intro once _ => exact once

theorem overlay_self (h : Single xs) : overlay xs xs = xs := by
  induction h with
  | @intro xs once inside ih =>
    rw [overlay_eq]
    refine blendAll_self keeps_overlaid once fun x hx => ?_
    have below := ih x hx
    have once' := (inside x hx).once
    cases x with
    | leaf a => exact overlaid_leaf a _
    | branch a children =>
      rw [children_branch] at below once'
      rw [overlaid_branch rfl, children_branch, distinct_of_nodup once', below]

theorem key_absorbed (x y : Node) (parent : String) :
    (absorbed x y).key parent = x.key parent := by
  cases y with
  | leaf b => rfl
  | branch b more => cases x <;> rfl

theorem keeps_absorbed (parent : String) : KeepsKey (Node.key · parent) absorbed :=
  fun x y _ => key_absorbed x y parent

theorem absorbed_assoc (full : x.children?.isSome → z.children?.isSome → y.children?.isSome)
    (aligned : x.children?.isSome → y.children?.isSome → z.children?.isSome →
      Aligned x.children y.children z.children) :
    absorbed (absorbed x y) z = absorbed x (absorbed y z) := by
  cases x with
  | leaf a => cases y <;> cases z <;> rfl
  | branch a xs =>
    cases y with
    | leaf b =>
      cases z with
      | leaf c => rfl
      | branch c zs => cases full rfl rfl
    | branch b ys =>
      cases z with
      | leaf c => rfl
      | branch c zs =>
        have once := nodup_overlay (nodup_distinct xs) ys
        simp only [absorbed, distinct_of_nodup once]
        exact congrArg (branch a) (overlay_assoc (aligned rfl rfl rfl))

theorem absorbed_self (h : Single x.children) : absorbed x x = x := by
  cases x with
  | leaf a => rfl
  | branch a xs =>
    rw [children_branch] at h
    rw [absorbed, distinct_of_nodup h.once, overlay_self h]

end Node

end SelectionTree
