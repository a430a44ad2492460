import SelectionTree.Proofs.Overlay
import SelectionTree.Proofs.Walk
/-!
Properties of nodes that depend on where the nodes stand. Merging moves nodes from one list into
another, puts some in the place of others and leaves the rest alone, so a property is kept by every
merge once nodes that are merged agree on where their children stand. A list below a field is either
the level that its selections have made or the outcome of a merge, so a property of levels is found
everywhere in a tree if every merged list has it too.
-/
set_option autoImplicit false

namespace SelectionTree

/-- A property of nodes at positions. `holds i a b` speaks of a leaf or a branch with the
attributes, `below i a` is the position of the children. -/
structure Tracking (ι : Type) where
  holds : ι → Attributes → Bool → Prop
  below : ι → Attributes → ι
  below_eq : ∀ {i a b x y}, holds i a x → holds i b y → a.responseName = b.responseName →
    a.condition = b.condition → below i a = below i b

variable {ι : Type}

/-- A node that has a property at a position, like all nodes below it at theirs. -/
inductive Node.Tracked (t : Tracking ι) : ι → Node → Prop
  | leaf {i : ι} {a : Attributes} (here : t.holds i a false) : Tracked t i (.leaf a)
  | branch {i : ι} {a : Attributes} {children : List Node} (here : t.holds i a true)
      (inside : ∀ n ∈ children, Tracked t (t.below i a) n) : Tracked t i (.branch a children)

/-- A node that has a property at a position, like all nodes below it, and whose lists of children
have a property at theirs. -/
inductive Node.Arranged (t : Tracking ι) (P : ι → List Node → Prop) : ι → Node → Prop
  | leaf {i : ι} {a : Attributes} (here : t.holds i a false) : Arranged t P i (.leaf a)
  | branch {i : ι} {a : Attributes} {children : List Node} (here : t.holds i a true)
      (list : P (t.below i a) children)
      (inside : ∀ n ∈ children, Arranged t P (t.below i a) n) : Arranged t P i (.branch a children)

namespace Tracking

def All (t : Tracking ι) (i : ι) (ns : List Node) : Prop := ∀ n ∈ ns, n.Tracked t i

/-- Lists that are merged keep the property: no name stands twice in a merged list, and there is
something in it if there is something in the first one. -/
def Settles (t : Tracking ι) (P : ι → List Node → Prop) : Prop :=
  ∀ ⦃i first merged⦄, P i first → t.All i merged → (merged.map Node.responseName).Nodup →
    (merged = [] → first = []) → P i merged

def Arranges (t : Tracking ι) (P : ι → List Node → Prop) (i : ι) (ns : List Node) : Prop :=
  ∀ n ∈ ns, n.Arranged t P i

variable {t : Tracking ι} {P : ι → List Node → Prop} {i : ι} {r : Registry} {parent : Composite}
  {path : String} {first second n : Node}

theorem all_nil : t.All i [] := fun _ h => absurd h List.not_mem_nil

theorem holds_of_tracked {n : Node} (h : n.Tracked t i) :
    t.holds i n.attributes n.children?.isSome := by
  cases h with
  | leaf here => exact here
  | branch here _ => exact here

theorem All.distinct {ns : List Node} (h : t.All i ns) : t.All i (Node.distinct ns) :=
  fun n hn => h n (Node.mem_distinct hn)

theorem arranges_nil : t.Arranges P i [] := fun _ h => absurd h List.not_mem_nil

theorem tracked_of_arranged (h : n.Arranged t P i) : n.Tracked t i := by
  induction h with
  | leaf here => exact .leaf here
  | branch here _ _ ih => exact .branch here ih

theorem Arranges.all {ns : List Node} (h : t.Arranges P i ns) : t.All i ns :=
  fun n hn => tracked_of_arranged (h n hn)

theorem holds_of_arranged (h : n.Arranged t P i) : t.holds i n.attributes n.children?.isSome :=
  holds_of_tracked (tracked_of_arranged h)

/-- Where all lists have a property, nodes have to be tracked only. -/
theorem arranged_of_tracked (all : ∀ i ns, P i ns) (h : n.Tracked t i) : n.Arranged t P i := by
  induction h with
  | leaf here => exact .leaf here
  | branch here _ ih => exact .branch here (all _ _) ih

theorem All.arranges {ns : List Node} (all : ∀ i ns, P i ns) (h : t.All i ns) :
    t.Arranges P i ns := fun n hn => arranged_of_tracked all (h n hn)

theorem settles_true : t.Settles fun _ _ => True := fun _ _ _ _ _ _ _ => trivial

theorem Arranges.distinct {ns : List Node} (h : t.Arranges P i ns) :
    t.Arranges P i (Node.distinct ns) := fun n hn => h n (Node.mem_distinct hn)

theorem arranged_branch (settles : t.Settles P) {a : Attributes} {children merged : List Node}
    (h : (Node.branch a children).Arranged t P i) (all : t.Arranges P (t.below i a) merged)
    (once : (merged.map Node.responseName).Nodup) (full : merged = [] → children = []) :
    (Node.branch a merged).Arranged t P i := by
  cases h with
  | branch here list _ => exact .branch here (settles list all.all once full) all

theorem arranged_combine (settles : t.Settles P) {mergeChildren : Composite → String → List Node →
      Except ConversionError (List Node)}
    (h : Node.combine r parent path mergeChildren second first = .ok n)
    (hfirst : first.Arranged t P i) (hsecond : second.Arranged t P i)
    (hmerge : ∀ {a children type path merged}, first = .branch a children →
      first.condition = second.condition → t.Arranges P (t.below i a) (Node.distinct children) →
      mergeChildren type path (Node.distinct children) = .ok merged →
      t.Arranges P (t.below i a) merged ∧
        ∃ more, merged = Node.overlay (Node.distinct children) more) :
    n.Arranged t P i := by
  unfold Node.combine at h
  split at h
  · cases h
    exact hsecond
  · next same =>
    cases first with
    | leaf a =>
      cases h
      exact hsecond
    | branch a children =>
      obtain ⟨type, -, h⟩ := bind_eq_ok.mp h
      obtain ⟨merged, done, h⟩ := bind_eq_ok.mp h
      cases h
      have inside : t.Arranges P (t.below i a) children := by
        cases hfirst with | branch _ _ inside => exact inside
      obtain ⟨all, more, rfl⟩ := hmerge rfl (not_not.mp same) inside.distinct done
      exact arranged_branch settles hfirst all
        (Node.nodup_overlay (Node.nodup_distinct children) more)
        fun empty => Node.distinct_eq_nil (Node.overlay_eq_nil empty)

mutual

theorem arranges_mergeLists (settles : t.Settles P) {i : ι} {parent : Composite} {path : String}
    {first merged : List Node} :
    (second : List Node) → Node.mergeLists r parent path first second = .ok merged →
      t.Arranges P i first → t.Arranges P i second → t.Arranges P i merged
  | [], h, hfirst, _ => by
    cases h
    exact hfirst
  | n :: rest, h, hfirst, hsecond => by
    rw [Node.mergeLists, bind_eq_ok] at h
    obtain ⟨next, hnext, h⟩ := h
    have all := arranges_mergeNode settles n hnext hfirst (hsecond n List.mem_cons_self)
    exact arranges_mergeLists settles rest h all fun x hx => hsecond x (List.mem_cons_of_mem n hx)

theorem arranges_mergeNode (settles : t.Settles P) {i : ι} {parent : Composite} {path : String}
    {first merged : List Node} :
    (n : Node) → Node.mergeNode r parent path first n = .ok merged → t.Arranges P i first →
      n.Arranged t P i → t.Arranges P i merged
  | .leaf a, h, hfirst, hn => by
    rw [Node.mergeNode] at h
    refine forall_mem_upsert h hfirst hn fun x hx _ y combined => ?_
    refine arranged_combine settles combined (hfirst x hx) hn fun _ _ all done => ?_
    cases done
    exact ⟨all, [], (Node.overlay_nil _).symm⟩
  | .branch a more, h, hfirst, hn => by
    rw [Node.mergeNode] at h
    refine forall_mem_upsert h hfirst hn fun x hx name y combined => ?_
    refine arranged_combine settles combined (hfirst x hx) hn
      fun {b _} _ _ _ e same all done => ?_
    subst e
    have below : t.below i b = t.below i a := t.below_eq (holds_of_arranged (hfirst _ hx))
      (holds_of_arranged hn) (of_decide_eq_true name) same
    refine ⟨?_, more, Node.mergeLists_eq_ok more done⟩
    cases hn with
    | branch _ _ inside => exact arranges_mergeLists settles more done all (below ▸ inside)

end

theorem all_mergeNode {level merged : List Node}
    (h : Node.mergeNode r parent path level n = .ok merged) (hlevel : t.All i level)
    (hn : n.Tracked t i) : t.All i merged :=
  (arranges_mergeNode settles_true n h (hlevel.arranges fun _ _ => trivial)
    (arranged_of_tracked (fun _ _ => trivial) hn)).all

/-- Nodes of one key have their children at one position. -/
def Keyed (t : Tracking ι) (i : ι) (parent : Composite) : Prop :=
  ∀ ⦃a b x y⦄, t.holds i a x → t.holds i b y → a.key parent.name = b.key parent.name →
    t.below i a = t.below i b

theorem arranged_absorb (settles : t.Settles P) (keyed : t.Keyed i parent) {again : Node}
    (h : (Node.absorb r parent path again first).outcome = .ok n) (hfirst : first.Arranged t P i)
    (hagain : again.Arranged t P i) (key : first.key parent.name = again.key parent.name) :
    n.Arranged t P i := by
  have below := keyed (holds_of_arranged hfirst) (holds_of_arranged hagain) key
  cases again with
  | leaf b =>
    cases h
    exact hfirst
  | branch b more =>
    cases first with
    | leaf a =>
      cases h
      exact hfirst
    | branch a children =>
      simp only [Node.absorb, Run.outcome_bind, Run.outcome_ofExcept, bind_eq_ok,
        Run.outcome_pure, Except.ok.injEq] at h
      obtain ⟨type, -, merged, done, rfl⟩ := h
      have inside : t.Arranges P (t.below i a) children := by
        cases hfirst with | branch _ _ inside => exact inside
      have inside' : t.Arranges P (t.below i a) more := by
        cases hagain with | branch _ _ inside => exact below.symm ▸ inside
      have all := arranges_mergeLists settles more done inside.distinct inside'
      obtain rfl := Node.mergeLists_eq_ok more done
      exact arranged_branch settles hfirst all
        (Node.nodup_overlay (Node.nodup_distinct children) more)
        fun empty => Node.distinct_eq_nil (Node.overlay_eq_nil empty)

variable {q : Request} {place : Place} {level nodes : List Node}

theorem arranges_add (settles : t.Settles P) (keyed : t.Keyed i place.parent)
    (h : (q.add place level n).outcome = .ok nodes) (hlevel : t.Arranges P i level)
    (hn : n.Arranged t P i) : t.Arranges P i nodes := by
  rw [Request.add, Node.outcome_addToLevel] at h
  exact forall_mem_upsert h hlevel hn fun x hx key y absorbed =>
    arranged_absorb settles keyed absorbed (hlevel x hx) hn (of_decide_eq_true key)

theorem arranges_addAll (settles : t.Settles P) (keyed : t.Keyed i place.parent) {ns : List Node}
    (h : (q.addAll place level ns).outcome = .ok nodes) (hlevel : t.Arranges P i level)
    (hns : t.Arranges P i ns) : t.Arranges P i nodes := by
  induction ns generalizing level with
  | nil =>
    cases h
    exact hlevel
  | cons n rest ih =>
    rw [Request.outcome_addAll_cons, bind_eq_ok] at h
    obtain ⟨next, added, h⟩ := h
    exact ih h (arranges_add settles keyed added hlevel (hns n List.mem_cons_self)) fun x hx =>
      hns x (List.mem_cons_of_mem n hx)

theorem all_add (keyed : t.Keyed i place.parent) (h : (q.add place level n).outcome = .ok nodes)
    (hlevel : t.All i level) (hn : n.Tracked t i) : t.All i nodes :=
  (arranges_add settles_true keyed h (hlevel.arranges fun _ _ => trivial)
    (arranged_of_tracked (fun _ _ => trivial) hn)).all

theorem all_addAll (keyed : t.Keyed i place.parent) {ns : List Node}
    (h : (q.addAll place level ns).outcome = .ok nodes) (hlevel : t.All i level)
    (hns : t.All i ns) : t.All i nodes :=
  (arranges_addAll settles_true keyed h (hlevel.arranges fun _ _ => trivial)
    (hns.arranges fun _ _ => trivial)).all

/-- The property holds of the node of a field selection where the walk meets it. -/
def HoldsAt (t : Tracking ι) (q : Request) (position : List Selected → Composite → ι)
    (v : Visit) : Prop :=
  t.holds (position v.above v.here.place.parent) (q.attributes v.here.place v.here.head)
    (!v.here.body.isEmpty)

structure Follows (t : Tracking ι) (q : Request) (position : List Selected → Composite → ι) :
    Prop where
  keyed : ∀ above parent, t.Keyed (position above parent) parent
  below : ∀ {above : List Selected} {place : Place} {head : FieldHead} {body : List Selection}
    {type : Composite}, t.HoldsAt q position ⟨above, ⟨place, head, body⟩⟩ → body ≠ [] →
    q.registry.nested? place.parent place.condition head.name = some type →
    position (above ++ [⟨place, head, body⟩]) type
      = t.below (position above place.parent) (q.attributes place head)

/-- What the selections below a field are expanded into has the property where the walk goes on,
which meets some of the given fields there. -/
def FreshAt (P : ι → List Node → Prop) (q : Request) (position : List Selected → Composite → ι)
    (visits : List Visit) (v : Visit) : Prop :=
  ∀ type chain nodes, v.here.body ≠ [] →
    q.registry.nested? v.here.place.parent v.here.place.condition v.here.head.name = some type →
    (q.walk (v.above ++ [v.here]) (v.here.place.below v.here.head type) chain
      v.here.body).visits.Sublist visits →
    (q.expand (v.here.place.below v.here.head type) chain [] v.here.body).outcome = .ok nodes →
    P (position (v.above ++ [v.here]) type) nodes

variable {position : List Selected → Composite → ι} {above : List Selected} {chain : List String}
  {visits : List Visit}

/-- The node of a field is arranged where the field is met, if the nodes below it are where the walk
goes on, and their list has its property there. -/
theorem arranged_node (follows : t.Follows q position) {head : FieldHead} {body : List Selection}
    (here : t.HoldsAt q position ⟨above, ⟨place, head, body⟩⟩)
    (inside : ∀ type children, body ≠ [] →
      q.registry.nested? place.parent place.condition head.name = some type →
      (q.expand (place.below head type) chain [] body).outcome = .ok children →
      P (position (above ++ [⟨place, head, body⟩]) type) children ∧
        t.Arranges P (position (above ++ [⟨place, head, body⟩]) type) children)
    (hn : q.node place chain head body = .ok n) : n.Arranged t P (position above place.parent) := by
  rcases Request.node_eq_ok hn with ⟨rfl, rfl⟩ | ⟨type, children, full, nested, expanded, rfl⟩
  · exact .leaf here
  · obtain ⟨list, all⟩ := inside type children full nested expanded
    rw [follows.below here full nested] at all list
    exact .branch (by simpa [HoldsAt, List.isEmpty_eq_false_iff.mpr full] using here) list all

theorem tracked_node (follows : t.Follows q position) {head : FieldHead} {body : List Selection}
    (here : t.HoldsAt q position ⟨above, ⟨place, head, body⟩⟩)
    (inside : ∀ type children, body ≠ [] →
      q.registry.nested? place.parent place.condition head.name = some type →
      (q.expand (place.below head type) chain [] body).outcome = .ok children →
      t.All (position (above ++ [⟨place, head, body⟩]) type) children)
    (hn : q.node place chain head body = .ok n) : n.Tracked t (position above place.parent) :=
  tracked_of_arranged (arranged_node follows here (fun type children full nested expanded =>
    ⟨trivial, (inside type children full nested expanded).arranges fun _ _ => trivial⟩) hn)

/-- What holds of all field selections met by the walk, and of what the selections below them are
expanded into, holds of all nodes that come of them and of their lists. -/
theorem arranges_expand (follows : t.Follows q position) (settles : t.Settles P)
    {selections : List Selection}
    (sub : (q.walk above place chain selections).visits.Sublist visits)
    (met : ∀ v ∈ visits, t.HoldsAt q position v ∧ FreshAt P q position visits v)
    (hlevel : t.Arranges P (position above place.parent) level)
    (ok : (q.expand place chain level selections).outcome = .ok nodes) :
    t.Arranges P (position above place.parent) nodes := by
  induction place, chain, selections using Request.expand_induction q
    generalizing above level nodes with
  | nil place chain =>
    cases (q.outcome_expand_nil place chain level).symm.trans ok
    exact hlevel
  | field place chain head body rest hbody hrest =>
    rw [Request.outcome_expand_field, bind_eq_ok] at ok
    obtain ⟨n, hn, ok⟩ := ok
    obtain ⟨next, added, ok⟩ := bind_eq_ok.mp ok
    have here := met _ (sub.subset Request.here_mem_walk)
    have arranged : n.Arranged t P (position above place.parent) := by
      refine arranged_node follows here.1 (fun type children full nested expanded => ?_) hn
      have inside := (Request.sublist_walk_of_below full nested).trans sub
      exact ⟨here.2 type chain children full nested inside expanded,
        hbody (place.below head type) inside arranges_nil expanded⟩
    refine hrest ((Request.sublist_walk_of_rest
      (Request.offence_inside_of_ok above hn)).trans sub) ?_ ok
    exact arranges_add settles (follows.keyed above place.parent) added hlevel arranged
  | opens place chain s condition chain' body rest opened hbody hrest =>
    rw [Request.outcome_expand_opens q opened, bind_eq_ok] at ok
    obtain ⟨inner, expanded, ok⟩ := ok
    obtain ⟨next, added, ok⟩ := bind_eq_ok.mp ok
    rw [Request.walk_opens opened] at sub
    have all := hbody ((Walk.sublist_andThen _ _).trans sub) arranges_nil expanded
    refine hrest ((Walk.sublist_andThen_right
      (Request.offence_walk_of_ok above expanded)).trans sub) ?_ ok
    exact arranges_addAll settles (follows.keyed above place.parent) added hlevel all
  | cyclic place chain name rest old _ =>
    rw [Request.outcome_expand_spread_of_mem q place chain level rest old] at ok
    cases ok
  | undefined place chain name rest new missing _ =>
    rw [Request.outcome_expand_spread_of_none q place chain level rest new missing] at ok
    cases ok

theorem all_expand (follows : t.Follows q position) {selections : List Selection}
    (met : ∀ v ∈ (q.walk above place chain selections).visits, t.HoldsAt q position v)
    (hlevel : t.All (position above place.parent) level)
    (ok : (q.expand place chain level selections).outcome = .ok nodes) :
    t.All (position above place.parent) nodes :=
  (arranges_expand follows settles_true (List.Sublist.refl _)
    (fun v hv => ⟨met v hv, fun _ _ _ _ _ _ _ => trivial⟩)
    (hlevel.arranges fun _ _ => trivial) ok).all

end Tracking

end SelectionTree
