import Mathlib.Data.List.Induction
import SelectionTree.Proofs.Firsts
import SelectionTree.Proofs.Outcome
/-!
The paths of nodes, and lists of nodes that are joined: below every path, the joined list has the
names of the first list and those that only the second one has, so no name is lost or comes twice.
-/
set_option autoImplicit false

namespace SelectionTree

namespace Node

mutual

/-- The paths of a node and of the nodes below it, as names from the node on, its own first. -/
def paths : Node → List (List String)
  | leaf a => [[a.responseName]]
  | branch a children => [a.responseName] :: (pathsAll children).map (a.responseName :: ·)

def pathsAll : List Node → List (List String)
  | [] => []
  | n :: rest => paths n ++ pathsAll rest

end

end Node

def Tree.paths (tree : Tree) : List (List String) := Node.pathsAll tree.roots

def below? : List String → List String → Option String
  | [], [x] => some x
  | [], _ => none
  | _ :: _, [] => none
  | y :: p, x :: path => if y = x then below? p path else none

def namesBelow (p : List String) (paths : List (List String)) : List String :=
  paths.filterMap (below? p)

theorem below?_eq_some {p path : List String} {x : String} :
    below? p path = some x ↔ path = p ++ [x] := by
  induction p generalizing path with
  | nil =>
    match path with
    | [] => simp [below?]
    | [y] => simp [below?]
    | y :: z :: path => simp [below?]
  | cons y p ih =>
    cases path with
    | nil => simp [below?]
    | cons z path =>
      by_cases h : y = z
      · simp [below?, h, ih]
      · simp [below?, h, Ne.symm h]

@[simp] theorem below?_nil (p : List String) : below? p [] = none := by
  cases p <;> rfl

theorem below?_append (above p path : List String) :
    below? (above ++ p) (above ++ path) = below? p path := by
  induction above with
  | nil => rfl
  | cons x above ih => simpa [below?] using ih

theorem mem_namesBelow {p : List String} {x : String} {paths : List (List String)} :
    x ∈ namesBelow p paths ↔ p ++ [x] ∈ paths := by
  simp [namesBelow, List.mem_filterMap, below?_eq_some]

@[simp] theorem namesBelow_cons_singleton (x y : String) (p : List String) :
    namesBelow (y :: p) [[x]] = [] := by
  simp [namesBelow, below?]

@[simp] theorem namesBelow_append (p : List String) (paths paths' : List (List String)) :
    namesBelow p (paths ++ paths') = namesBelow p paths ++ namesBelow p paths' :=
  List.filterMap_append

theorem namesBelow_map_cons (x y : String) (p : List String) (paths : List (List String)) :
    namesBelow (x :: p) (paths.map (y :: ·)) = if x = y then namesBelow p paths else [] := by
  by_cases h : x = y
  · simp [namesBelow, below?, List.filterMap_map, Function.comp_def, h]
  · simp [namesBelow, below?, List.filterMap_map, Function.comp_def, h]

theorem nodup_of_namesBelow {paths : List (List String)} (full : [] ∉ paths)
    (h : ∀ p, (namesBelow p paths).Nodup) : paths.Nodup := by
  rw [List.Nodup, List.pairwise_iff_forall_sublist]
  intro path path' sub e
  subst e
  have mem : path ∈ paths := sub.subset List.mem_cons_self
  obtain rfl | ⟨p, x, rfl⟩ := path.eq_nil_or_concat'
  · exact full mem
  · have twice := (sub.filterMap (below? p)).nodup (h p)
    simp [below?_eq_some.mpr rfl] at twice

theorem mem_iff_of_namesBelow {paths paths' : List (List String)} (full : [] ∉ paths)
    (full' : [] ∉ paths') (h : ∀ p x, x ∈ namesBelow p paths ↔ x ∈ namesBelow p paths')
    (path : List String) : path ∈ paths ↔ path ∈ paths' := by
  obtain rfl | ⟨p, x, rfl⟩ := path.eq_nil_or_concat'
  · exact iff_of_false full full'
  · rw [← mem_namesBelow, ← mem_namesBelow]
    exact h p x

namespace Node

def names (p : List String) (ns : List Node) : List String := namesBelow p (pathsAll ns)

variable {p : List String} {x : String} {n : Node} {ns : List Node}

@[simp] theorem names_nil (p : List String) : names p [] = [] := rfl

theorem pathsAll_append (ns ms : List Node) : pathsAll (ns ++ ms) = pathsAll ns ++ pathsAll ms := by
  induction ns with
  | nil => rfl
  | cons n ns ih => simp [pathsAll, ih]

@[simp] theorem names_append (p : List String) (ns ms : List Node) :
    names p (ns ++ ms) = names p ns ++ names p ms := by
  rw [names, pathsAll_append, namesBelow_append]
  rfl

theorem names_cons (p : List String) (n : Node) (ns : List Node) :
    names p (n :: ns) = names p [n] ++ names p ns := names_append p [n] ns

theorem names_leaf (p : List String) (a : Attributes) : names (x :: p) [leaf a] = [] := by
  simp [names, pathsAll, paths]

theorem names_branch (p : List String) (a : Attributes) (children : List Node) :
    names (x :: p) [branch a children] = if x = a.responseName then names p children else [] := by
  calc
    names (x :: p) [branch a children]
        = namesBelow (x :: p) [[a.responseName]]
            ++ namesBelow (x :: p) ((pathsAll children).map (a.responseName :: ·)) := by
          rw [← namesBelow_append]
          simp [names, pathsAll, paths]
    _ = if x = a.responseName then names p children else [] := by
          rw [namesBelow_cons_singleton, namesBelow_map_cons]
          rfl

theorem names_of_ne (h : x ≠ n.responseName) (p : List String) : names (x :: p) [n] = [] := by
  cases n with
  | leaf a => exact names_leaf p a
  | branch a children =>
    rw [names_branch]
    exact if_neg h

theorem names_of_not_mem (h : x ∉ ns.map responseName) (p : List String) :
    names (x :: p) ns = [] := by
  induction ns with
  | nil => rfl
  | cons n ns ih =>
    rw [List.map_cons, List.mem_cons, not_or] at h
    rw [names_cons, names_of_ne h.1, ih h.2]
    rfl

theorem nil_not_mem_pathsAll (ns : List Node) : [] ∉ pathsAll ns := by
  induction ns with
  | nil => exact List.not_mem_nil
  | cons n ns ih => cases n <;> simp [pathsAll, paths, ih]

theorem names_singleton (n : Node) : names [] [n] = [n.responseName] := by
  cases n with
  | leaf a => rfl
  | branch a children =>
    have none : namesBelow [] ((pathsAll children).map (a.responseName :: ·)) = [] := by
      refine List.filterMap_eq_nil_iff.mpr fun path hpath => ?_
      obtain ⟨rest, hrest, rfl⟩ := List.mem_map.mp hpath
      cases rest with
      | nil => exact absurd hrest (nil_not_mem_pathsAll children)
      | cons y rest => rfl
    calc
      names [] [branch a children]
          = namesBelow [] [[a.responseName]]
              ++ namesBelow [] ((pathsAll children).map (a.responseName :: ·)) := by
            rw [← namesBelow_append]
            simp [names, pathsAll, paths]
      _ = [a.responseName] := by rw [none]; rfl

@[simp] theorem names_root (ns : List Node) : names [] ns = ns.map responseName := by
  induction ns with
  | nil => rfl
  | cons n ns ih =>
    rw [names_cons, ih, names_singleton]
    rfl

/-- No name stands twice below any path. -/
def Tidy (ns : List Node) : Prop := ∀ p, (names p ns).Nodup

/-- The third list has, below every path, the names of the first and those that only the second
one has. -/
def Joins (first second joined : List Node) : Prop :=
  ∀ p, names p joined = firsts id (names p first ++ names p second)

variable {first second joined : List Node}

theorem tidy_of_names {f : List String → List String} (h : ∀ p, names p ns = firsts id (f p)) :
    Tidy ns := fun p => by
  rw [h p]
  simpa using nodup_map_firsts id (f p)

theorem Joins.tidy (h : Joins first second joined) : Tidy joined := tidy_of_names h

theorem firsts_names (h : Tidy ns) (p : List String) : firsts id (names p ns) = names p ns :=
  firsts_of_nodup (by simpa using h p)

theorem joins_append (hfirst : Tidy ns) (hn : Tidy [n])
    (new : n.responseName ∉ ns.map responseName) : Joins ns [n] (ns ++ [n]) := by
  intro p
  rw [names_append]
  symm
  refine firsts_of_nodup ?_
  rw [List.map_id, List.nodup_append']
  refine ⟨hfirst p, hn p, ?_⟩
  cases p with
  | nil => simpa using new
  | cons x p =>
    by_cases h : x = n.responseName
    · subst h
      rw [names_of_not_mem new]
      exact List.disjoint_nil_left _
    · rw [names_of_ne h]
      exact List.disjoint_nil_right _

theorem joins_replace {before after : List Node} {x y : Node} (htidy : Tidy (before ++ x :: after))
    (name : x.responseName = n.responseName) (joins : Joins [x] [n] [y]) :
    Joins (before ++ x :: after) [n] (before ++ y :: after) := by
  have same : y.responseName = n.responseName := by
    have root := joins []
    simp only [names_singleton, name] at root
    simpa [firsts] using root
  have once : (before.map responseName ++ n.responseName :: after.map responseName).Nodup := by
    have root := htidy []
    rw [names_root, List.map_append, List.map_cons, name] at root
    exact root
  rw [List.nodup_middle, List.nodup_cons, List.mem_append, not_or] at once
  intro p
  rw [names_append, names_append, names_cons, names_cons p x]
  cases p with
  | nil =>
    have here := firsts_names htidy []
    rw [names_append, names_cons] at here
    rw [names_singleton n, firsts_snoc, if_pos (by simp [name]), here,
      names_singleton, names_singleton, same, name]
  | cons z p =>
    by_cases h : z = n.responseName
    · subst h
      simpa [names_of_not_mem once.1.1, names_of_not_mem once.1.2] using joins _
    · rw [names_of_ne (n := n) h, names_of_ne (n := x) (name ▸ h), names_of_ne (n := y) (same ▸ h)]
      have rest := firsts_names htidy (z :: p)
      rw [names_append, names_cons, names_of_ne (n := x) (name ▸ h)] at rest
      simpa using rest.symm

/-- An update that joins nodes of one name joins the new node with the list. -/
theorem joins_upsert {test : Node → Bool} {update : Node → Except ConversionError Node}
    (h : upsert test update n ns = .ok joined) (htidy : Tidy ns) (hn : Tidy [n])
    (tests : ∀ x ∈ ns, test x = true ↔ x.responseName = n.responseName)
    (joins : ∀ x ∈ ns, x.responseName = n.responseName → ∀ y, update x = .ok y →
      Joins [x] [n] [y]) : Joins ns [n] joined := by
  rcases upsert_eq_ok h with ⟨none, rfl⟩ | ⟨before, x, after, y, rfl, -, here, updated, rfl⟩
  · refine joins_append htidy hn fun mem => ?_
    obtain ⟨x, hx, e⟩ := List.mem_map.mp mem
    have passes := (tests x hx).mpr e
    rw [none x hx] at passes
    cases passes
  · have name := (tests x (by simp)).mp here
    exact joins_replace htidy name (joins x (by simp) name y updated)

theorem joins_nil (h : Tidy ns) : Joins ns [] ns := fun p => by
  simpa using (firsts_names h p).symm

theorem Joins.cons {next : List Node} (h : Joins first [n] next) (h' : Joins next ns joined) :
    Joins first (n :: ns) joined := fun p => by
  rw [h' p, h p, firsts_firsts_append, names_cons p n ns, List.append_assoc]

theorem Tidy.of_append {ms : List Node} (h : Tidy (ns ++ ms)) : Tidy ns ∧ Tidy ms := by
  have parts := fun p => List.nodup_append'.mp (names_append p ns ms ▸ h p)
  exact ⟨fun p => (parts p).1, fun p => (parts p).2.1⟩

theorem Tidy.of_cons (h : Tidy (n :: ns)) : Tidy [n] ∧ Tidy ns := of_append h

theorem Tidy.of_mem (h : Tidy ns) (hn : n ∈ ns) : Tidy [n] := by
  obtain ⟨before, after, rfl⟩ := List.append_of_mem hn
  exact h.of_append.2.of_cons.1

theorem tidy_nil : Tidy [] := fun _ => List.nodup_nil

theorem tidy_branch {a : Attributes} {children : List Node} :
    Tidy [branch a children] ↔ Tidy children := by
  constructor
  · intro h p
    simpa [names_branch] using h (a.responseName :: p)
  · intro h p
    cases p with
    | nil => simp
    | cons x p =>
      rw [names_branch]
      split
      · exact h p
      · exact List.nodup_nil

theorem joins_leaf {a b c : Attributes} (hb : b.responseName = a.responseName)
    (hc : c.responseName = a.responseName) : Joins [leaf a] [leaf b] [leaf c] := by
  intro p
  cases p with
  | nil => simp [firsts, responseName, hb, hc]
  | cons x p => simp [names_leaf]

theorem joins_branch {a b c : Attributes} {children more merged : List Node}
    (hb : b.responseName = a.responseName) (hc : c.responseName = a.responseName)
    (h : Joins children more merged) :
    Joins [branch a children] [branch b more] [branch c merged] := by
  intro p
  cases p with
  | nil => simp [firsts, responseName, hb, hc]
  | cons x p =>
    rw [names_branch, names_branch, names_branch, hb, hc]
    split
    · exact h p
    · rfl

theorem put_of_not_mem (new : n.responseName ∉ ns.map responseName) : put n ns = ns ++ [n] := by
  induction ns with
  | nil => rfl
  | cons x ns ih =>
    rw [List.map_cons, List.mem_cons, not_or] at new
    rw [put, if_neg (Ne.symm new.1), ih new.2, List.cons_append]

theorem distinct_of_nodup (h : (ns.map responseName).Nodup) : distinct ns = ns := by
  induction ns using List.reverseRecOn with
  | nil => rfl
  | append_singleton ns n ih =>
    rw [List.map_append, List.nodup_append'] at h
    have new : n.responseName ∉ ns.map responseName := fun mem =>
      h.2.2 mem List.mem_cons_self
    rw [distinct, List.foldl_append, ← distinct, ih h.1]
    exact put_of_not_mem new

theorem Tidy.distinct (h : Tidy ns) : Node.distinct ns = ns :=
  distinct_of_nodup (names_root ns ▸ h [])

end Node

end SelectionTree
