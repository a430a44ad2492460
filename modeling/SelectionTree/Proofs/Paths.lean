import SelectionTree.Proofs.Names
import SelectionTree.Proofs.Merging
/-!
The paths of a tree and those of the walk over its operation. Where fields of one path agree, every
merge joins the nodes that it is given, so the tree has the paths that the walk meets.
-/
set_option autoImplicit false

namespace SelectionTree

def Reached (visits : List Visit) (p : List String) (a : Attributes) (full : Bool) : Prop :=
  ∃ v ∈ visits, v.path = p ++ [a.responseName] ∧ v.here.place.condition = a.condition ∧
    (v.here.body ≠ [] ↔ full = true)

/-- Fields of one path have one type condition, and all or none of them have a selection set. -/
def SameFields (visits : List Visit) : Prop :=
  ∀ v ∈ visits, ∀ w ∈ visits, v.path = w.path →
    v.here.place.condition = w.here.place.condition ∧ (v.here.body ≠ [] ↔ w.here.body ≠ [])

def reaches (visits : List Visit) : Tracking (List String) where
  holds := Reached visits
  below p a := p ++ [a.responseName]
  below_eq _ _ name _ := by rw [name]

section Reached

variable {visits : List Visit} {p : List String}

theorem Reached.agree (agree : SameFields visits) {a b : Attributes} {x y : Bool}
    (ha : Reached visits p a x) (hb : Reached visits p b y)
    (name : a.responseName = b.responseName) : a.condition = b.condition ∧ x = y := by
  obtain ⟨v, hv, path, condition, full⟩ := ha
  obtain ⟨w, hw, path', condition', full'⟩ := hb
  have same := agree v hv w hw (by rw [path, path', name])
  refine ⟨by rw [← condition, ← condition', same.1], ?_⟩
  rw [Bool.eq_iff_iff, ← full, ← full', same.2]

theorem Reached.undotted (names : ∀ v ∈ visits, Undotted v.here.responseName) {a : Attributes}
    {full : Bool} (h : Reached visits p a full) : Undotted a.responseName := by
  obtain ⟨v, hv, path, -⟩ := h
  rw [Visit.path_eq] at path
  rw [← List.singleton_inj.mp (List.append_inj' path rfl).2]
  exact names v hv

theorem keyed_reaches (names : ∀ v ∈ visits, Undotted v.here.responseName) (p : List String)
    (parent : Composite) : (reaches visits).Keyed p parent := by
  intro a b x y ha hb keys
  have slots := (Attributes.key_eq_key (Reached.undotted names ha) (Reached.undotted names hb)
    parent.name).mp keys
  exact congrArg (fun x => p ++ [x]) (congrArg Prod.fst slots)

end Reached

namespace Node

variable {visits : List Visit} {p : List String} {x n y : Node} {first second joined : List Node}
  {r : Registry} {parent : Composite} {path : String}

/-- Two nodes that come of fields of one path are both leaves or both branches. -/
theorem tracked_cases (agree : SameFields visits) (hx : x.Tracked (reaches visits) p)
    (hn : n.Tracked (reaches visits) p) (name : x.responseName = n.responseName) :
    (∃ a b, x = leaf a ∧ n = leaf b) ∨
      ∃ a b children more, x = branch a children ∧ n = branch b more ∧
        x.condition = n.condition ∧ (reaches visits).All (p ++ [a.responseName]) children ∧
        (reaches visits).All (p ++ [a.responseName]) more := by
  have same := Reached.agree agree (Tracking.holds_of_tracked hx) (Tracking.holds_of_tracked hn)
    name
  cases hx with
  | @leaf _ a _ =>
    cases hn with
    | @leaf _ b _ => exact Or.inl ⟨a, b, rfl, rfl⟩
    | branch _ _ => cases same.2
  | @branch _ a children _ inside =>
    cases hn with
    | leaf _ => cases same.2
    | @branch _ b more _ inside' =>
      refine Or.inr ⟨a, b, children, more, rfl, rfl, same.1, inside, ?_⟩
      have e : a.responseName = b.responseName := name
      rw [e]
      exact inside'

theorem joins_combine (agree : SameFields visits)
    {mergeChildren : Composite → String → List Node → Except ConversionError (List Node)}
    (h : combine r parent path mergeChildren n x = .ok y) (hx : x.Tracked (reaches visits) p)
    (hn : n.Tracked (reaches visits) p) (tidy : Tidy [x]) (name : x.responseName = n.responseName)
    (hmerge : ∀ {a b children more type path merged}, x = branch a children → n = branch b more →
      (reaches visits).All (p ++ [a.responseName]) children →
      (reaches visits).All (p ++ [a.responseName]) more → Tidy children →
      mergeChildren type path children = .ok merged → Joins children more merged) :
    Joins [x] [n] [y] := by
  rcases tracked_cases agree hx hn name with
    ⟨a, b, rfl, rfl⟩ | ⟨a, b, children, more, rfl, rfl, condition, all, all'⟩
  · unfold combine at h
    split at h
    · cases h
      exact joins_leaf name.symm name.symm
    · cases h
      exact joins_leaf name.symm name.symm
  · have children := tidy_branch.mp tidy
    rw [combine, if_neg (not_not.mpr condition), bind_eq_ok] at h
    obtain ⟨type, -, h⟩ := h
    obtain ⟨merged, done, h⟩ := bind_eq_ok.mp h
    rw [children.distinct] at done
    cases h
    exact joins_branch name.symm rfl (hmerge rfl rfl all all' children done)

mutual

theorem joins_mergeLists (agree : SameFields visits) {p : List String} {parent : Composite}
    {path : String} {first merged : List Node} :
    (second : List Node) → mergeLists r parent path first second = .ok merged →
      (reaches visits).All p first → (reaches visits).All p second → Tidy first → Tidy second →
      Joins first second merged
  | [], h, _, _, tidy, _ => by
    cases h
    exact joins_nil tidy
  | n :: rest, h, hfirst, hsecond, tidy, tidy' => by
    rw [mergeLists, bind_eq_ok] at h
    obtain ⟨next, hnext, h⟩ := h
    have parts := Tidy.of_cons tidy'
    have hn := hsecond n List.mem_cons_self
    have here := joins_mergeNode agree n hnext hfirst hn tidy parts.1
    have all := Tracking.all_mergeNode hnext hfirst hn
    exact here.cons (joins_mergeLists agree rest h all
      (fun x hx => hsecond x (List.mem_cons_of_mem n hx)) here.tidy parts.2)

theorem joins_mergeNode (agree : SameFields visits) {p : List String} {parent : Composite}
    {path : String} {first merged : List Node} :
    (n : Node) → mergeNode r parent path first n = .ok merged →
      (reaches visits).All p first → n.Tracked (reaches visits) p → Tidy first → Tidy [n] →
      Joins first [n] merged
  | .leaf a, h, hfirst, hn, tidy, tidy' => by
    rw [mergeNode] at h
    refine joins_upsert h tidy tidy' (fun x _ => decide_eq_true_iff)
      fun x hx name y combined => ?_
    refine joins_combine agree combined (hfirst x hx) hn (tidy.of_mem hx) name ?_
    intro b c children more type path merged _ e
    cases e
  | .branch a children, h, hfirst, hn, tidy, tidy' => by
    rw [mergeNode] at h
    refine joins_upsert h tidy tidy' (fun x _ => decide_eq_true_iff)
      fun x hx name y combined => ?_
    refine joins_combine agree combined (hfirst x hx) hn (tidy.of_mem hx) name ?_
    intro b c first more type path merged _ e all all' tidy done
    cases e
    exact joins_mergeLists agree children done all all' tidy (tidy_branch.mp tidy')

end

theorem joins_absorb (agree : SameFields visits)
    (h : (absorb r parent path n x).outcome = .ok y) (hx : x.Tracked (reaches visits) p)
    (hn : n.Tracked (reaches visits) p) (tidy : Tidy [x]) (tidy' : Tidy [n])
    (name : x.responseName = n.responseName) : Joins [x] [n] [y] := by
  rcases tracked_cases agree hx hn name with
    ⟨a, b, rfl, rfl⟩ | ⟨a, b, children, more, rfl, rfl, -, all, all'⟩
  · cases h
    exact joins_leaf name.symm rfl
  · have htidy := tidy_branch.mp tidy
    simp only [absorb, Run.outcome_bind, Run.outcome_ofExcept, bind_eq_ok, Run.outcome_pure,
      Except.ok.injEq] at h
    obtain ⟨type, -, merged, hmerged, rfl⟩ := h
    rw [merge, htidy.distinct] at hmerged
    exact joins_branch name.symm rfl
      (joins_mergeLists agree more hmerged all all' htidy (tidy_branch.mp tidy'))

end Node

namespace Request

open Node

variable {q : Request} {visits : List Visit} {p : List String} {above : List Selected}
  {place : Place} {chain : List String} {level nodes : List Node} {n : Node}

theorem joins_add (agree : SameFields visits) (names : ∀ v ∈ visits, Undotted v.here.responseName)
    (h : (q.add place level n).outcome = .ok nodes) (hlevel : (reaches visits).All p level)
    (hn : n.Tracked (reaches visits) p) (tidy : Tidy level) (tidy' : Tidy [n]) :
    Joins level [n] nodes := by
  rw [add, outcome_addToLevel] at h
  refine joins_upsert h tidy tidy' (fun x hx => ?_) fun x hx name y absorbed =>
    joins_absorb agree absorbed (hlevel x hx) hn (tidy.of_mem hx) tidy' name
  have hx := Tracking.holds_of_tracked (hlevel x hx)
  have hn := Tracking.holds_of_tracked hn
  rw [decide_eq_true_iff, key, key,
    Attributes.key_eq_key (Reached.undotted names hx) (Reached.undotted names hn)]
  constructor
  · exact fun slots => congrArg Prod.fst slots
  · intro name
    have same := (Reached.agree agree hx hn name).1
    rw [Attributes.slot, Attributes.slot, same]
    exact congrArg (Prod.mk · _) name

theorem joins_addAll (agree : SameFields visits)
    (names : ∀ v ∈ visits, Undotted v.here.responseName) {ns : List Node}
    (h : (q.addAll place level ns).outcome = .ok nodes) (hlevel : (reaches visits).All p level)
    (hns : (reaches visits).All p ns) (tidy : Tidy level) (tidy' : Tidy ns) :
    Joins level ns nodes := by
  induction ns generalizing level with
  | nil =>
    cases h
    exact joins_nil tidy
  | cons n rest ih =>
    rw [outcome_addAll_cons, bind_eq_ok] at h
    obtain ⟨next, added, h⟩ := h
    have parts := Tidy.of_cons tidy'
    have here := joins_add agree names added hlevel (hns n List.mem_cons_self) tidy parts.1
    have all := Tracking.all_add (keyed_reaches names p place.parent) added hlevel
      (hns n List.mem_cons_self)
    exact here.cons (ih h all (fun x hx => hns x (List.mem_cons_of_mem n hx)) here.tidy parts.2)

end Request

namespace Walk

variable {w w' : Walk} {above : List Selected} {here : Selected} {p : List String} {x : String}

/-- The names that a walk has met one step below some fields and a path from there. -/
def names (above : List Selected) (p : List String) (w : Walk) : List String :=
  namesBelow (above.map Selected.responseName ++ p) (w.visits.map Visit.path)

@[simp] theorem names_empty (above : List Selected) (p : List String) :
    ({} : Walk).names above p = [] := rfl

theorem names_andThen (ended : w.offence = none) :
    (w.andThen w').names above p = w.names above p ++ w'.names above p := by
  rw [names, visits_andThen ended, List.map_append, namesBelow_append]
  rfl

theorem names_visit (w : Walk) :
    (w.visit ⟨above, here⟩).names above p
      = namesBelow p [[here.responseName]] ++ w.names above p := by
  rw [names, visits_visit, List.map_cons, Visit.path_eq]
  have first := below?_append (above.map Selected.responseName) p [here.responseName]
  simp only [namesBelow, List.filterMap_cons, List.filterMap_nil, first]
  cases below? p [here.responseName] <;> rfl

theorem path_of_mem (h : ∀ v ∈ w.visits, above ++ [here] <+: v.above) {v : Visit}
    (hv : v ∈ w.visits) : ∃ rest, rest ≠ [] ∧
      v.path = above.map Selected.responseName ++ here.responseName :: rest := by
  obtain ⟨rest, e⟩ := h v hv
  refine ⟨rest.map Selected.responseName ++ [v.here.responseName], by simp, ?_⟩
  rw [Visit.path_eq, ← e]
  simp

theorem names_root (h : ∀ v ∈ w.visits, above ++ [here] <+: v.above) : w.names above [] = [] := by
  refine List.eq_nil_iff_forall_not_mem.mpr fun x hx => ?_
  rw [names, mem_namesBelow, List.append_nil, List.mem_map] at hx
  obtain ⟨v, hv, path⟩ := hx
  obtain ⟨rest, full, path'⟩ := path_of_mem h hv
  rw [path'] at path
  exact full (List.cons.inj (List.append_cancel_left path)).2

theorem names_step (h : ∀ v ∈ w.visits, above ++ [here] <+: v.above) :
    w.names above (x :: p)
      = if x = here.responseName then w.names (above ++ [here]) p else [] := by
  split
  · next same => simp [names, same]
  · next other =>
    refine List.eq_nil_iff_forall_not_mem.mpr fun y hy => ?_
    rw [names, mem_namesBelow, List.append_assoc, List.mem_map] at hy
    obtain ⟨v, hv, path⟩ := hy
    obtain ⟨rest, -, path'⟩ := path_of_mem h hv
    rw [path'] at path
    exact other (List.cons.inj (List.append_cancel_left path)).1.symm

end Walk

namespace Request

variable {q : Request} {visits : List Visit} {above : List Selected} {place : Place}
  {chain : List String} {level nodes : List Node} {n : Node}

theorem follows_reaches (names : ∀ v ∈ visits, Undotted v.here.responseName) :
    (reaches visits).Follows q fun above _ => above.map Selected.responseName where
  keyed above parent := keyed_reaches names _ parent
  below := by
    intro above place head body type _ _ _
    exact List.map_append

theorem holdsAt_reaches {v : Visit} (met : v ∈ visits) :
    (reaches visits).HoldsAt q (fun above _ => above.map Selected.responseName) v :=
  ⟨v, met, v.path_eq, rfl, by simp⟩

theorem names_node (above : List Selected) {head : FieldHead} {body : List Selection}
    (h : q.node place chain head body = .ok n)
    (inside : ∀ type children, body ≠ [] →
      q.registry.nested? place.parent place.condition head.name = some type →
      (q.expand (place.below head type) chain [] body).outcome = .ok children → ∀ p,
        Node.names p children = firsts id ((q.walk (above ++ [⟨place, head, body⟩])
          (place.below head type) chain body).names (above ++ [⟨place, head, body⟩]) p))
    (p : List String) :
    Node.names p [n] = firsts id (((q.inside above place chain head body).visit
      ⟨above, ⟨place, head, body⟩⟩).names above p) := by
  rw [Walk.names_visit]
  rcases node_eq_ok h with ⟨rfl, rfl⟩ | ⟨type, children, full, nested, expanded, rfl⟩
  · rw [inside_nil]
    cases p with
    | nil => rfl
    | cons x p => simp [Node.names_leaf]
  · have stand : ∀ v ∈ (q.walk (above ++ [⟨place, head, body⟩]) (place.below head type) chain
        body).visits, above ++ [⟨place, head, body⟩] <+: v.above := fun v hv => above_of_mem_walk hv
    have name : (Node.branch (q.attributes place head) children).responseName
        = head.responseName := rfl
    have name' : (q.attributes place head).responseName = head.responseName := rfl
    have name'' : (Selected.mk place head body).responseName = head.responseName := rfl
    rw [inside_of_some full nested, name'']
    cases p with
    | nil =>
      rw [Walk.names_root stand, Node.names_singleton, name]
      rfl
    | cons x p =>
      rw [Walk.names_step stand, Node.names_branch, namesBelow_cons_singleton, name', name'']
      split
      · exact inside type children full nested expanded p
      · rfl

/-- Nodes that are gathered into a level bring in the names of the walk they come of. -/
theorem names_gathered {inner next : List Node} {w w' : Walk} {p : List String}
    (joins : Node.Joins level inner next) (ended : w.offence = none)
    (hinner : Node.names p inner = firsts id (w.names above p))
    (hrest : Node.names p nodes = firsts id (Node.names p next ++ w'.names above p)) :
    Node.names p nodes
      = firsts id (Node.names p level ++ (w.andThen w').names above p) := by
  rw [hrest, joins p, hinner, firsts_append_firsts, firsts_firsts_append,
    Walk.names_andThen ended, List.append_assoc]

/-- Below every path, an expansion brings in the names that its walk meets. -/
theorem names_expand (agree : SameFields visits)
    (names : ∀ v ∈ visits, Undotted v.here.responseName) {selections : List Selection}
    (met : ∀ v ∈ (q.walk above place chain selections).visits, v ∈ visits)
    (hlevel : (reaches visits).All (above.map Selected.responseName) level)
    (tidy : Node.Tidy level) (ok : (q.expand place chain level selections).outcome = .ok nodes)
    (p : List String) :
    Node.names p nodes = firsts id (Node.names p level
      ++ (q.walk above place chain selections).names above p) := by
  have follows := follows_reaches (q := q) names
  -- every selection joins its nodes with the level before the rest is expanded
  induction place, chain, selections using expand_induction q
    generalizing above level nodes p with
  | nil place chain =>
    cases (q.outcome_expand_nil place chain level).symm.trans ok
    rw [walk, Walk.names_empty, List.append_nil, Node.firsts_names tidy]
  | field place chain head body rest hbody hrest =>
    rw [outcome_expand_field, bind_eq_ok] at ok
    obtain ⟨n, hn, ok⟩ := ok
    obtain ⟨next, added, ok⟩ := bind_eq_ok.mp ok
    have ended := offence_inside_of_ok above hn
    have here := holdsAt_reaches (q := q) (met _ here_mem_walk)
    have within : ∀ type, body ≠ [] →
        q.registry.nested? place.parent place.condition head.name = some type →
        ∀ v ∈ (q.walk (above ++ [⟨place, head, body⟩]) (place.below head type) chain body).visits,
          v ∈ visits := fun type full nested v hv => met v (mem_walk_of_below full nested hv)
    have tracked : n.Tracked (reaches visits) (above.map Selected.responseName) :=
      Tracking.tracked_node follows here (fun type children full nested expanded =>
        Tracking.all_expand follows (fun v hv => holdsAt_reaches (within type full nested v hv))
          Tracking.all_nil expanded) hn
    have named := names_node above hn fun type children full nested expanded p =>
      hbody (place.below head type) (within type full nested) Tracking.all_nil Node.tidy_nil
        expanded p
    have joins := joins_add agree names added hlevel tracked tidy (Node.tidy_of_names named)
    rw [walk_field]
    refine names_gathered joins ended (named p) (hrest ?_ ?_ joins.tidy ok p)
    · exact fun v hv => met v (mem_walk_of_rest ended hv)
    · exact Tracking.all_add (keyed_reaches names _ _) added hlevel tracked
  | opens place chain s condition chain' body rest opened hbody hrest =>
    rw [outcome_expand_opens q opened, bind_eq_ok] at ok
    obtain ⟨inner, expanded, ok⟩ := ok
    obtain ⟨next, added, ok⟩ := bind_eq_ok.mp ok
    rw [walk_opens opened] at met ⊢
    have ended := offence_walk_of_ok above expanded
    have within := fun v hv => met v (Walk.mem_andThen_left hv)
    have all := Tracking.all_expand follows (fun v hv => holdsAt_reaches (within v hv))
      Tracking.all_nil expanded
    have named := fun p => hbody within Tracking.all_nil Node.tidy_nil expanded p
    have joins := joins_addAll agree names added hlevel all tidy (Node.tidy_of_names named)
    refine names_gathered joins ended (named p) (hrest ?_ ?_ joins.tidy ok p)
    · exact fun v hv => met v (Walk.mem_andThen_right ended hv)
    · exact Tracking.all_addAll (keyed_reaches names _ _) added hlevel all
  | cyclic place chain name rest old _ =>
    rw [outcome_expand_spread_of_mem q place chain level rest old] at ok
    cases ok
  | undefined place chain name rest new missing _ =>
    rw [outcome_expand_spread_of_none q place chain level rest new missing] at ok
    cases ok

/-- Where fields of one path agree, the walk of a converted operation runs to its end, and the tree
has the path of every field that the walk meets, once and without any other. Below every path the
names stand in the order in which the walk meets them first. -/
theorem convert_paths {root : Composite} {operation : Operation} {tree : Tree}
    (rooted : q.registry.root? operation.kind = some root)
    (names : ∀ v ∈ (q.tour root operation).visits, Undotted v.here.responseName)
    (agree : ∀ v ∈ (q.tour root operation).visits, ∀ w ∈ (q.tour root operation).visits,
      v.path = w.path → v.here.head.name = w.here.head.name ∧
        v.here.place.condition = w.here.place.condition ∧
        (v.here.body ≠ [] ↔ w.here.body ≠ []))
    (ok : (q.convert operation).outcome = .ok tree) :
    (q.tour root operation).offence = none ∧ tree.paths.Nodup ∧
      (∀ p, p ∈ tree.paths ↔ p ∈ (q.tour root operation).visits.map Visit.path) ∧
      ∀ p, namesBelow p tree.paths
        = (namesBelow p ((q.tour root operation).visits.map Visit.path)).eraseDups := by
  rw [q.outcome_convert rooted, bind_eq_ok] at ok
  obtain ⟨nodes, expanded, ok⟩ := ok
  cases ok
  have same : SameFields (q.tour root operation).visits := fun v hv w hw path =>
    (agree v hv w hw path).2
  have order : ∀ p, namesBelow p (Tree.mk operation.kind nodes).paths
      = firsts id (namesBelow p ((q.tour root operation).visits.map Visit.path)) := fun p =>
    names_expand same names (fun v hv => hv) Tracking.all_nil Node.tidy_nil expanded p
  have full := Node.nil_not_mem_pathsAll nodes
  have full' : [] ∉ (q.tour root operation).visits.map Visit.path := by
    simp [Visit.path_eq]
  refine ⟨offence_walk_of_ok [] expanded, nodup_of_namesBelow full (Node.tidy_of_names order), ?_,
    fun p => (order p).trans (firsts_id _)⟩
  refine mem_iff_of_namesBelow full full' fun p x => ?_
  have mem := mem_map_firsts id (namesBelow p ((q.tour root operation).visits.map Visit.path)) x
  rw [List.map_id, List.map_id] at mem
  rw [order p, mem]

end Request

def Films.repeating : Operation where
  kind := .query
  selections :=
    [select "hero" [select "friends" [select "name" []], .spread "Names"],
     select "hero" [.inline none [select "friends" [select "id" [], select "name" []]],
       select "id" []]]

open Films in
theorem convert_paths_hero : ∃ tree, (request.convert repeating).outcome = .ok tree ∧
    tree.paths.Nodup ∧ namesBelow ["hero"] tree.paths = ["friends", "name", "id"] ∧
      namesBelow ["hero", "friends"] tree.paths = ["name", "id"] := by
  have rooted : request.registry.root? repeating.kind = some root := by cbv
  have names : ∀ v ∈ (request.tour root repeating).visits, Undotted v.here.responseName := by
    have checked : ((request.tour root repeating).visits.all fun v =>
        decide (Undotted v.here.responseName)) = true := by cbv
    simpa using checked
  have agree : ∀ v ∈ (request.tour root repeating).visits,
      ∀ w ∈ (request.tour root repeating).visits, v.path = w.path →
        v.here.head.name = w.here.head.name ∧
          v.here.place.condition = w.here.place.condition ∧
          (v.here.body ≠ [] ↔ w.here.body ≠ []) := by
    have checked : ((request.tour root repeating).visits.all fun v =>
        (request.tour root repeating).visits.all fun w =>
          decide (v.path = w.path → v.here.head.name = w.here.head.name ∧
            v.here.place.condition = w.here.place.condition ∧
            v.here.body.isEmpty = w.here.body.isEmpty)) = true := by cbv
    simp only [List.all_eq_true, decide_eq_true_eq] at checked
    intro v hv w hw path
    have same := checked v hv w hw path
    refine ⟨same.1, same.2.1, ?_⟩
    rw [Ne, Ne, ← List.isEmpty_iff, ← List.isEmpty_iff, same.2.2]
  have converted : ∃ tree, (request.convert repeating).outcome = .ok tree := ⟨_, by cbv⟩
  obtain ⟨tree, ok⟩ := converted
  obtain ⟨-, nodup, -, order⟩ := Request.convert_paths rooted names agree ok
  refine ⟨tree, ok, nodup, (order ["hero"]).trans ?_, (order ["hero", "friends"]).trans ?_⟩
  · cbv
  · cbv

end SelectionTree
