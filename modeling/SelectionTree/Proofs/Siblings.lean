import SelectionTree.Proofs.Paths
/-!
The lists of siblings in a tree. Merges move nodes from list to list, but a node always says what
one field selection says that the walk meets at its path, and what tells siblings apart is never
lost: they differ in their response name or in their type condition.
-/
set_option autoImplicit false

namespace SelectionTree

/-- The lists of siblings among some nodes and all nodes below them. The trail to a list is what the
nodes around it say, outermost first. -/
inductive Node.Siblings : List Node → List Attributes → List Node → Prop
  | top (ns : List Node) : Siblings ns [] ns
  | under {ns children ms : List Node} {a : Attributes} {trail : List Attributes}
      (mem : .branch a children ∈ ns) (inside : Siblings children trail ms) :
      Siblings ns (a :: trail) ms

theorem Tracking.Arranges.siblings {ι : Type} {t : Tracking ι} {P : ι → List Node → Prop} {i : ι}
    {ns ms : List Node} {trail : List Attributes} (h : t.Arranges P i ns) (list : P i ns)
    (found : Node.Siblings ns trail ms) :
    P (trail.foldl t.below i) ms ∧ t.Arranges P (trail.foldl t.below i) ms := by
  induction found generalizing i with
  | top ns => exact ⟨list, h⟩
  | under mem inside ih =>
    cases h _ mem with
    | branch _ list' inside' => exact ih inside' list'

def sources (q : Request) (visits : List Visit) : Tracking (List String) where
  holds p a _ := ∃ v ∈ visits, v.path = p ++ [a.responseName] ∧
    a = q.attributes v.here.place v.here.head
  below p a := p ++ [a.responseName]
  below_eq _ _ name _ := by rw [name]

namespace Request

variable {q : Request} {visits : List Visit}

theorem foldl_below_sources (p : List String) (trail : List Attributes) :
    trail.foldl (sources q visits).below p = p ++ trail.map Attributes.responseName := by
  induction trail generalizing p with
  | nil => simp
  | cons a trail ih =>
    rw [List.foldl_cons, ih]
    exact List.append_assoc p [a.responseName] _

theorem follows_sources (names : ∀ v ∈ visits, Undotted v.here.responseName) :
    (sources q visits).Follows q fun above _ => above.map Selected.responseName where
  keyed above parent := by
    rintro a b x y ⟨v, hv, -, ha⟩ ⟨w, hw, -, hb⟩ keys
    have undotted : Undotted a.responseName := ha ▸ names v hv
    have undotted' : Undotted b.responseName := hb ▸ names w hw
    have slots := (Attributes.key_eq_key undotted undotted' parent.name).mp keys
    exact congrArg (fun x => above.map Selected.responseName ++ [x]) (congrArg Prod.fst slots)
  below := by
    intro above place head body type _ _ _
    exact List.map_append

/-- Whatever was merged, a node anywhere in the tree says what a single field selection says that
the walk of the operation meets at the path of the node. -/
theorem convert_sources {root : Composite} {operation : Operation} {tree : Tree}
    (rooted : q.registry.root? operation.kind = some root)
    (names : ∀ v ∈ (q.tour root operation).visits, Undotted v.here.responseName)
    (ok : (q.convert operation).outcome = .ok tree) {trail : List Attributes}
    {siblings : List Node} (found : Node.Siblings tree.roots trail siblings) :
    ∀ n ∈ siblings, ∃ v ∈ (q.tour root operation).visits,
      v.path = trail.map Attributes.responseName ++ [n.responseName] ∧
        n.attributes = q.attributes v.here.place v.here.head := by
  rw [q.outcome_convert rooted, bind_eq_ok] at ok
  obtain ⟨nodes, expanded, ok⟩ := ok
  cases ok
  have all : (sources q (q.tour root operation).visits).All [] nodes :=
    Tracking.all_expand (follows_sources names) (fun v hv => ⟨v, hv, v.path_eq, rfl⟩)
      Tracking.all_nil expanded
  have here := ((all.arranges fun _ _ => trivial).siblings trivial found).2.all
  intro n hn
  obtain ⟨v, hv, path, attributes⟩ := Tracking.holds_of_tracked (here n hn)
  rw [foldl_below_sources, List.nil_append] at path
  exact ⟨v, hv, path, attributes⟩

end Request

def Films.tracing : Request := { request with options := { paths := true, returnTypes := true } }

def Films.aliasing : Operation where
  kind := .query
  selections :=
    [select "hero" [.field { name := "name", aliasName := some "id" } [],
       select "friends" [select "name" []],
       .inline (some "Droid") [.field { name := "friends", aliasName := some "name" }
         [select "id" []]]],
     select "hero" [select "id" [], .spread "Circle"]]

open Films in
theorem convert_sources_hero : ∃ tree, (tracing.convert aliasing).outcome = .ok tree ∧
    tree.paths = [["hero"], ["hero", "id"], ["hero", "friends"], ["hero", "friends", "id"],
      ["hero", "name"], ["hero", "name", "id"]] ∧
    ∀ trail siblings, Node.Siblings tree.roots trail siblings → ∀ n ∈ siblings,
      ∃ v ∈ (tracing.tour root aliasing).visits,
        v.path = trail.map Attributes.responseName ++ [n.responseName] ∧
          n.attributes = tracing.attributes v.here.place v.here.head := by
  have rooted : tracing.registry.root? aliasing.kind = some root := by cbv
  have names : ∀ v ∈ (tracing.tour root aliasing).visits, Undotted v.here.responseName := by
    have checked : ((tracing.tour root aliasing).visits.all fun v =>
        decide (Undotted v.here.responseName)) = true := by cbv
    simpa using checked
  have converted : ∃ tree, (tracing.convert aliasing).outcome = .ok tree ∧ tree.paths
      = [["hero"], ["hero", "id"], ["hero", "friends"], ["hero", "friends", "id"],
          ["hero", "name"], ["hero", "name", "id"]] := ⟨_, by cbv, by cbv⟩
  obtain ⟨tree, ok, paths⟩ := converted
  exact ⟨tree, ok, paths, fun _ _ found => Request.convert_sources rooted names ok found⟩

def Node.label (n : Node) : String × Option String := (n.responseName, n.condition)

namespace Node

variable {ns : List Node}

theorem nodup_labels_of_keys {parent : String} (keys : (ns.map (Node.key · parent)).Nodup) :
    (ns.map label).Nodup := by
  refine List.Nodup.of_map (fun l => l.1 ++ "." ++ l.2.getD parent) ?_
  rw [List.map_map]
  exact keys

theorem nodup_labels_of_names (names : (ns.map responseName).Nodup) : (ns.map label).Nodup := by
  refine List.Nodup.of_map Prod.fst ?_
  rw [List.map_map]
  exact names

theorem nodup_names_merge {r : Registry} {parent : Composite} {path : String}
    {first second merged : List Node} (ok : merge r parent path first second = .ok merged) :
    (merged.map responseName).Nodup := by
  rw [mergeLists_eq_ok second ok]
  exact nodup_overlay (nodup_distinct first) second

end Node

def anywhere : Tracking Unit where
  holds _ _ _ := True
  below _ _ := ()
  below_eq _ _ _ _ := rfl

theorem settles_labels : anywhere.Settles fun _ ns => (ns.map Node.label).Nodup :=
  fun _ _ _ _ _ names _ => Node.nodup_labels_of_names names

namespace Request

theorem follows_anywhere (q : Request) : anywhere.Follows q fun _ _ => () where
  keyed _ _ _ _ _ _ _ _ _ := rfl
  below _ _ _ := rfl

/-- The levels that are expanded for the selections of an operation and the lists that are merged
below them are all told apart by their labels, so the lists of the tree are. -/
theorem siblings_apart (q : Request) :
    (∀ operation tree trail siblings, (q.convert operation).outcome = .ok tree →
        Node.Siblings tree.roots trail siblings → (siblings.map Node.label).Nodup) ∧
      (∀ place chain selections level,
        (q.expand place chain [] selections).outcome = .ok level →
          (level.map (Node.key · place.parent.name)).Nodup) ∧
      ∀ parent path first second merged,
        Node.merge q.registry parent path first second = .ok merged →
          (merged.map Node.responseName).Nodup ∧
            ((∀ n ∈ merged, Undotted n.responseName) →
              ∀ name, (merged.map (Node.key · name)).Nodup) := by
  refine ⟨fun operation tree trail siblings ok found => ?_, fun place chain selections level ok =>
    nodup_keys_expand ok, fun parent path first second merged ok => ?_⟩
  · obtain ⟨root, nodes, rooted, expanded, rfl⟩ := convert_eq_ok ok
    have fresh : ∀ v ∈ (q.tour root operation).visits, anywhere.HoldsAt q (fun _ _ => ()) v ∧
        Tracking.FreshAt (fun _ ns => (ns.map Node.label).Nodup) q (fun _ _ => ())
          (q.tour root operation).visits v := fun v _ =>
      ⟨trivial, fun _ _ _ _ _ _ inside => Node.nodup_labels_of_keys (nodup_keys_expand inside)⟩
    have arranged := Tracking.arranges_expand (follows_anywhere q) settles_labels
      (List.Sublist.refl _) fresh Tracking.arranges_nil expanded
    exact (arranged.siblings (Node.nodup_labels_of_keys (nodup_keys_expand expanded)) found).1
  · have names := Node.nodup_names_merge ok
    exact ⟨names, fun undotted name => Node.nodup_keys undotted names name⟩

end Request

def Films.namesakes : List Node :=
  [.leaf { name := "name" }, .leaf { name := "name", condition := some "Droid" }]

open Films in
theorem siblings_apart_hero :
    (∃ tree, (request.convert repeating).outcome = .ok tree ∧ ∀ trail siblings,
        Node.Siblings tree.roots trail siblings → (siblings.map Node.label).Nodup) ∧
      (∃ level, (request.expand hero [] [] selections).outcome = .ok level ∧
        (level.map (Node.key · "Character")).Nodup) ∧
      ∃ merged, Node.merge request.registry root "" namesakes namesakes = .ok merged ∧
        (merged.map (Node.key · "Droid")).Nodup := by
  obtain ⟨trees, levels, merges⟩ := Request.siblings_apart request
  have converted : ∃ tree, (request.convert repeating).outcome = .ok tree := ⟨_, by cbv⟩
  have expanded : ∃ level, (request.expand hero [] [] selections).outcome = .ok level :=
    ⟨_, by cbv⟩
  obtain ⟨tree, ok⟩ := converted
  obtain ⟨level, ok'⟩ := expanded
  have merged : Node.merge request.registry root "" namesakes namesakes
      = .ok [.leaf { name := "name", condition := some "Droid" }] := by cbv
  have undotted : ∀ n ∈ [Node.leaf { name := "name", condition := some "Droid" }],
      Undotted n.responseName := by
    have checked : ([Node.leaf { name := "name", condition := some "Droid" }].all fun n =>
        decide (Undotted n.responseName)) = true := by cbv
    simpa using checked
  exact ⟨⟨tree, ok, fun trail siblings => trees repeating tree trail siblings ok⟩,
    ⟨level, ok', levels hero [] selections level ok'⟩,
    _, merged, (merges root "" namesakes namesakes _ merged).2 undotted "Droid"⟩

end SelectionTree
