import SelectionTree.Proofs.Entries
/-!
Selections that change places. What a level makes of one key depends on the nodes of that key alone,
in their order, so selections that bring no key in common may be swapped: the operation is converted
or fails as before, and its tree has the same roots in another order.
-/
set_option autoImplicit false

namespace SelectionTree

/-- Lists in which every key comes once are the same up to order if they have the same entries. -/
theorem perm_of_entries {α κ : Type} [DecidableEq κ] {key : α → κ} {xs ys : List α}
    (once : (xs.map key).Nodup) (once' : (ys.map key).Nodup)
    (entries : ∀ k, withKey? key k xs = withKey? key k ys) : xs.Perm ys := by
  refine (List.perm_ext_iff_of_nodup (.of_map _ once) (.of_map _ once')).mpr fun x => ?_
  have here := entries (key x)
  constructor
  · intro mem
    rw [(withKey?_eq_some once).mpr ⟨mem, rfl⟩] at here
    exact (mem_of_withKey? here.symm).1
  · intro mem
    rw [(withKey?_eq_some once').mpr ⟨mem, rfl⟩] at here
    exact (mem_of_withKey? here).1

namespace Place

def Distinct (place : Place) (level : List Node) : Prop :=
  (level.map (Node.key · place.parent.name)).Nodup

def entry? (place : Place) (k : String) (level : List Node) : Option Node :=
  withKey? (Node.key · place.parent.name) k level

def ofKey (place : Place) (k : String) (ns : List Node) : List Node :=
  ns.filter fun n => n.key place.parent.name = k

variable {place : Place} {k : String} {ns ms : List Node}

theorem ofKey_cons (n : Node) (rest : List Node) :
    place.ofKey k (n :: rest)
      = if n.key place.parent.name = k then n :: place.ofKey k rest else place.ofKey k rest := by
  simp [ofKey, List.filter_cons]

theorem ofKey_append (ns ms : List Node) :
    place.ofKey k (ns ++ ms) = place.ofKey k ns ++ place.ofKey k ms := List.filter_append ..

theorem ofKey_append_comm
    (apart : ∀ n ∈ ns, ∀ m ∈ ms, n.key place.parent.name ≠ m.key place.parent.name) (k : String) :
    place.ofKey k (ns ++ ms) = place.ofKey k (ms ++ ns) := by
  rw [ofKey_append, ofKey_append]
  by_cases here : ∃ n ∈ ns, n.key place.parent.name = k
  · obtain ⟨n, hn, rfl⟩ := here
    have none : place.ofKey (n.key place.parent.name) ms = [] :=
      List.filter_eq_nil_iff.mpr fun m hm => by simpa using (apart n hn m hm).symm
    rw [none, List.append_nil, List.nil_append]
  · have none : place.ofKey k ns = [] :=
      List.filter_eq_nil_iff.mpr fun n hn => by simpa using fun same => here ⟨n, hn, same⟩
    rw [none, List.append_nil, List.nil_append]

end Place

namespace Request

variable {q : Request} {place : Place} {chain : List String} {level level' nodes ns ns' : List Node}

/-- What nodes of one key make of the node that a level has for the key. -/
def gather (q : Request) (place : Place) :
    Option Node → List Node → Except ConversionError (Option Node)
  | entry, [] => .ok entry
  | entry, n :: rest => do
    let x ← entry.elim (.ok n) fun x =>
      (Node.absorb q.registry place.parent place.path n x).outcome
    q.gather place (some x) rest

theorem entries_add {n : Node} (ok : (q.add place level n).outcome = .ok nodes) :
    ∃ x, (place.entry? (n.key place.parent.name) level).elim (.ok n)
        (fun x => (Node.absorb q.registry place.parent place.path n x).outcome) = .ok x ∧
      ∀ k, place.entry? k nodes
        = if n.key place.parent.name = k then some x else place.entry? k level := by
  rw [add, Node.outcome_addToLevel] at ok
  refine withKey?_upsert ok fun x y same absorbed => ?_
  rw [Node.absorb_eq_ok absorbed, Node.key_absorbed]
  exact same

theorem gather_of_addAll (ok : (q.addAll place level ns).outcome = .ok nodes) (k : String) :
    q.gather place (place.entry? k level) (place.ofKey k ns) = .ok (place.entry? k nodes) := by
  induction ns generalizing level with
  | nil =>
    cases ok
    rfl
  | cons n rest ih =>
    rw [outcome_addAll_cons, bind_eq_ok] at ok
    obtain ⟨next, added, ok⟩ := ok
    obtain ⟨x, here, entries⟩ := entries_add added
    have later := ih ok
    rw [entries] at later
    rw [Place.ofKey_cons]
    by_cases hk : n.key place.parent.name = k
    · subst hk
      rw [if_pos rfl] at later ⊢
      rw [gather, here, ok_bind, later]
    · rw [if_neg hk] at later ⊢
      exact later

/-- Nodes can be added to a level if those of every key can be gathered. -/
theorem addAll_of_gather
    (h : ∀ k, ∃ entry, q.gather place (place.entry? k level) (place.ofKey k ns) = .ok entry) :
    ∃ nodes, (q.addAll place level ns).outcome = .ok nodes := by
  induction ns generalizing level with
  | nil => exact ⟨level, rfl⟩
  | cons n rest ih =>
    obtain ⟨entry, here⟩ := h (n.key place.parent.name)
    rw [Place.ofKey_cons, if_pos rfl, gather, bind_eq_ok] at here
    obtain ⟨x, found, here⟩ := here
    have added : ∃ next, (q.add place level n).outcome = .ok next := by
      rw [add, Node.outcome_addToLevel, upsert_eq_bind]
      exact ⟨_, bind_eq_ok.mpr ⟨x, found, rfl⟩⟩
    obtain ⟨next, added⟩ := added
    obtain ⟨x', found', entries⟩ := entries_add added
    cases found.symm.trans found'
    rw [outcome_addAll_cons, added, ok_bind]
    refine ih fun k => ?_
    rw [entries]
    by_cases hk : n.key place.parent.name = k
    · subst hk
      rw [if_pos rfl]
      exact ⟨entry, here⟩
    · have other := h k
      rw [Place.ofKey_cons, if_neg hk] at other
      rwa [if_neg hk]

theorem distinct_addAll (once : place.Distinct level)
    (ok : (q.addAll place level ns).outcome = .ok nodes) : place.Distinct nodes := by
  rw [addAll_eq_ok ok]
  exact nodup_blendAll (Node.keeps_absorbed _) once ns

/-- Levels that are the same up to order stay so, also when nodes of different keys are added to
them in different order. -/
theorem addAll_perm (perm : level.Perm level') (once : place.Distinct level)
    (same : ∀ k, place.ofKey k ns = place.ofKey k ns')
    (ok : (q.addAll place level ns).outcome = .ok nodes) :
    ∃ nodes', (q.addAll place level' ns').outcome = .ok nodes' ∧ nodes.Perm nodes' := by
  have once' : place.Distinct level' := (perm.map _).nodup_iff.mp once
  have gathered : ∀ k, q.gather place (place.entry? k level') (place.ofKey k ns')
      = .ok (place.entry? k nodes) := fun k => by
    have entries : place.entry? k level = place.entry? k level' := withKey?_perm perm once
    rw [← same, ← entries]
    exact gather_of_addAll ok k
  obtain ⟨nodes', ok'⟩ := addAll_of_gather fun k => ⟨_, gathered k⟩
  refine ⟨nodes', ok', perm_of_entries (distinct_addAll once ok) (distinct_addAll once' ok')
    fun k => ?_⟩
  exact Except.ok.inj ((gathered k).symm.trans (gather_of_addAll ok' k))

theorem expand_perm {selections : List Selection} (perm : level.Perm level')
    (once : place.Distinct level)
    (ok : (q.expand place chain level selections).outcome = .ok nodes) :
    ∃ nodes', (q.expand place chain level' selections).outcome = .ok nodes' ∧
      nodes.Perm nodes' := by
  induction selections generalizing level level' with
  | nil =>
    rw [outcome_expand_nil] at ok
    cases ok
    exact ⟨level', q.outcome_expand_nil place chain level', perm⟩
  | cons s rest ih =>
    rw [outcome_expand_cons, bind_eq_ok] at ok
    obtain ⟨ns, expanded, ok⟩ := ok
    obtain ⟨next, added, ok⟩ := bind_eq_ok.mp ok
    obtain ⟨next', added', perm⟩ := addAll_perm perm once (fun k => rfl) added
    rw [outcome_expand_cons, expanded, ok_bind, added', ok_bind]
    exact ih perm (distinct_addAll once added) ok

/-- Every node that a selection brings has the key of a field that the selection stands for. -/
theorem key_of_expanded {s : Selection} {n : Node}
    (ok : (q.expand place chain [] [s]).outcome = .ok nodes) (mem : n ∈ nodes) :
    ∃ x ∈ q.fragments.occurrences place chain [s], x.key = n.key place.parent.name := by
  have outlines := outlines_expand [s] [] rfl ok
  have outline : n.outline ∈ nodes.map Node.outline := List.mem_map_of_mem mem
  rw [outlines] at outline
  obtain ⟨x, hx, said⟩ := List.mem_map.mp (mem_of_mem_firsts outline)
  refine ⟨x, hx, ?_⟩
  have key : (q.attributes x.place x.head).key x.place.parent.name = x.key := rfl
  have attributes : q.attributes x.place x.head = n.attributes := congrArg Prod.fst said
  rw [← key, attributes, parent_of_mem_occurrences hx]
  rfl

theorem addAll_append (q : Request) (place : Place) (level ns ms : List Node) :
    (q.addAll place level (ns ++ ms)).outcome
      = (q.addAll place level ns).outcome >>= fun next => (q.addAll place next ms).outcome := by
  induction ns generalizing level with
  | nil => rfl
  | cons n rest ih =>
    rw [List.cons_append, outcome_addAll_cons, outcome_addAll_cons, bind_assoc]
    simp only [ih]

/-- Selections whose fields have no key in common may be swapped on a level. -/
theorem expand_swapped {rest : List Selection} {s t : Selection}
    (apart : ∀ x ∈ q.fragments.occurrences place chain [s],
      ∀ y ∈ q.fragments.occurrences place chain [t], x.key ≠ y.key)
    (once : place.Distinct level)
    (ok : (q.expand place chain level (s :: t :: rest)).outcome = .ok nodes) :
    ∃ nodes', (q.expand place chain level (t :: s :: rest)).outcome = .ok nodes' ∧
      nodes.Perm nodes' := by
  rw [outcome_expand_cons, bind_eq_ok] at ok
  obtain ⟨ns, expanded, ok⟩ := ok
  obtain ⟨next, added, ok⟩ := bind_eq_ok.mp ok
  rw [outcome_expand_cons, bind_eq_ok] at ok
  obtain ⟨ms, expanded', ok⟩ := ok
  obtain ⟨both, added', ok⟩ := bind_eq_ok.mp ok
  have inOrder : (q.addAll place level (ns ++ ms)).outcome = .ok both := by
    rw [addAll_append, added, ok_bind, added']
  have keys : ∀ n ∈ ns, ∀ m ∈ ms, n.key place.parent.name ≠ m.key place.parent.name := by
    intro n hn m hm same
    obtain ⟨x, hx, hxn⟩ := key_of_expanded expanded hn
    obtain ⟨y, hy, hym⟩ := key_of_expanded expanded' hm
    exact apart x hx y hy (hxn.trans (same.trans hym.symm))
  obtain ⟨both', swapped, perm⟩ :=
    addAll_perm (List.Perm.refl level) once (Place.ofKey_append_comm keys) inOrder
  rw [addAll_append, bind_eq_ok] at swapped
  obtain ⟨next', second, first⟩ := swapped
  rw [outcome_expand_cons, expanded', ok_bind, second, ok_bind, outcome_expand_cons, expanded,
    ok_bind, first, ok_bind]
  exact expand_perm perm (distinct_addAll once inOrder) ok

theorem distinct_expand {selections : List Selection}
    (ok : (q.expand place chain [] selections).outcome = .ok nodes) : place.Distinct nodes :=
  nodup_keys_expand ok

theorem convert_perm {kind : OperationKind} {before rest : List Selection} {s t : Selection}
    (apart : ∀ root, q.registry.root? kind = some root →
      ∀ x ∈ q.fragments.occurrences ⟨root, "", none⟩ [] [s],
        ∀ y ∈ q.fragments.occurrences ⟨root, "", none⟩ [] [t], x.key ≠ y.key)
    {tree : Tree} (ok : (q.convert ⟨kind, before ++ s :: t :: rest⟩).outcome = .ok tree) :
    ∃ tree', (q.convert ⟨kind, before ++ t :: s :: rest⟩).outcome = .ok tree' ∧
      tree'.kind = tree.kind ∧ tree.roots.Perm tree'.roots := by
  obtain ⟨root, nodes, rooted, expanded, rfl⟩ := convert_eq_ok ok
  rw [outcome_expand_append, bind_eq_ok] at expanded
  obtain ⟨level, first, expanded⟩ := expanded
  obtain ⟨nodes', swapped, perm⟩ := expand_swapped (apart root rooted) (distinct_expand first)
    expanded
  have rooted' : q.registry.root? (Operation.mk kind (before ++ t :: s :: rest)).kind = some root :=
    rooted
  refine ⟨⟨kind, nodes'⟩, ?_, rfl, perm⟩
  rw [q.outcome_convert rooted', outcome_expand_append, first, ok_bind, swapped, ok_bind]

/-- Adjacent selections of an operation whose fields have no key in common may be swapped: both
operations fail, or both are converted and their trees have the same roots up to order. -/
theorem convert_swapped (q : Request) {kind : OperationKind} {before rest : List Selection}
    {s t : Selection} (apart : ∀ root, q.registry.root? kind = some root →
      ∀ x ∈ q.fragments.occurrences ⟨root, "", none⟩ [] [s],
        ∀ y ∈ q.fragments.occurrences ⟨root, "", none⟩ [] [t], x.key ≠ y.key) :
    ((∃ tree, (q.convert ⟨kind, before ++ s :: t :: rest⟩).outcome = .ok tree) ↔
        ∃ tree, (q.convert ⟨kind, before ++ t :: s :: rest⟩).outcome = .ok tree) ∧
      ∀ tree tree', (q.convert ⟨kind, before ++ s :: t :: rest⟩).outcome = .ok tree →
        (q.convert ⟨kind, before ++ t :: s :: rest⟩).outcome = .ok tree' →
        tree'.kind = tree.kind ∧ tree.roots.Perm tree'.roots := by
  refine ⟨⟨fun ⟨tree, ok⟩ => ?_, fun ⟨tree, ok⟩ => ?_⟩, fun tree tree' ok ok' => ?_⟩
  · obtain ⟨tree', ok', -⟩ := convert_perm apart ok
    exact ⟨tree', ok'⟩
  · obtain ⟨tree', ok', -⟩ := convert_perm
      (fun root rooted x hx y hy => (apart root rooted y hy x hx).symm) ok
    exact ⟨tree', ok'⟩
  · obtain ⟨other, converted, same⟩ := convert_perm apart ok
    cases converted.symm.trans ok'
    exact same

end Request

namespace Films

def other (body : List Selection) : Selection :=
  .field { name := "hero", aliasName := some "x" } body

def group : Selection := .inline none [.spread "Names", select "hero" [select "id" []]]

end Films

open Films in
theorem convert_swapped_hero : ∃ tree tree',
    (request.convert ⟨.query, [select "hero" [select "name" []]]
        ++ group :: other [.spread "Circle"] :: [other [select "id" []]]⟩).outcome = .ok tree ∧
      (request.convert ⟨.query, [select "hero" [select "name" []]]
        ++ other [.spread "Circle"] :: group :: [other [select "id" []]]⟩).outcome = .ok tree' ∧
      tree.paths = [["hero"], ["hero", "name"], ["hero", "id"], ["name"], ["x"], ["x", "friends"],
        ["x", "friends", "id"], ["x", "name"], ["x", "id"]] ∧ tree.roots.Perm tree'.roots := by
  have apart : ∀ root', request.registry.root? .query = some root' →
      ∀ x ∈ request.fragments.occurrences ⟨root', "", none⟩ [] [group],
        ∀ y ∈ request.fragments.occurrences ⟨root', "", none⟩ [] [other [.spread "Circle"]],
          x.key ≠ y.key := by
    intro root' rooted
    have rooted' : request.registry.root? .query = some root := by cbv
    cases rooted.symm.trans rooted'
    have checked : ((request.fragments.occurrences ⟨root, "", none⟩ [] [group]).all fun x =>
        (request.fragments.occurrences ⟨root, "", none⟩ [] [other [.spread "Circle"]]).all fun y =>
          decide (x.key ≠ y.key)) = true := by cbv
    simpa only [List.all_eq_true, decide_eq_true_eq] using checked
  have converted : ∃ tree, (request.convert ⟨.query, [select "hero" [select "name" []]]
      ++ group :: other [.spread "Circle"] :: [other [select "id" []]]⟩).outcome = .ok tree ∧
      tree.paths = [["hero"], ["hero", "name"], ["hero", "id"], ["name"], ["x"], ["x", "friends"],
        ["x", "friends", "id"], ["x", "name"], ["x", "id"]] := ⟨_, by cbv, by cbv⟩
  obtain ⟨tree, ok, paths⟩ := converted
  obtain ⟨both, roots⟩ := request.convert_swapped apart
  obtain ⟨tree', ok'⟩ := both.mp ⟨tree, ok⟩
  exact ⟨tree, tree', ok, ok', paths, (roots tree tree' ok ok').2⟩

end SelectionTree
