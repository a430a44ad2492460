import SelectionTree.Proofs.Level
import SelectionTree.Proofs.Overlay
/-!
What becomes of a single name when lists are merged. An update touches the entry of one key only,
so a merged list is described name by name: the entry of a name is that of the list which alone has
the name, or what the two nodes of the name become together.
-/
set_option autoImplicit false

namespace SelectionTree

section Updates

variable {α κ ε : Type} [DecidableEq κ] {key : α → κ} {update : α → Except ε α} {new : α}
  {xs ys : List α}

/-- The value of an update is found first and then put in the place of its key. -/
theorem upsert_eq_bind (update : α → Except ε α) (new : α) (xs : List α) :
    upsert (fun x => decide (key x = key new)) update new xs
      = (withKey? key (key new) xs).elim (.ok new) update >>= fun y =>
          .ok (blend key (fun _ => y) new xs) := by
  induction xs with
  | nil => rfl
  | cons x xs ih =>
    rw [upsert, withKey?_cons]
    by_cases here : key x = key new
    · rw [if_pos (decide_eq_true here), if_pos here, Option.elim_some]
      simp only [blend, if_pos here]
      rfl
    · rw [if_neg (by simpa using here), if_neg here, ih, bind_assoc]
      simp only [blend, if_neg here, ok_bind]
      rfl

/-- An update finds a value for its key and leaves the entries of all other keys alone. -/
theorem withKey?_upsert
    (h : upsert (fun x => decide (key x = key new)) update new xs = .ok ys)
    (keeps : ∀ x y, key x = key new → update x = .ok y → key y = key new) :
    ∃ y, (withKey? key (key new) xs).elim (.ok new) update = .ok y ∧
      ∀ k, withKey? key k ys = if key new = k then some y else withKey? key k xs := by
  rw [upsert_eq_bind, bind_eq_ok] at h
  obtain ⟨y, found, h⟩ := h
  cases h
  refine ⟨y, found, fun k => ?_⟩
  cases first : withKey? key (key new) xs with
  | none =>
    rw [first] at found
    cases found
    rw [withKey?_blend fun x here => here.symm]
    split
    · next here =>
      subst here
      rw [first, Option.elim_none]
    · rfl
  | some x =>
    rw [first] at found
    have same := keeps x y (mem_of_withKey? first).2 found
    rw [withKey?_blend fun x here => same.trans here.symm]
    split
    · next here =>
      subst here
      rw [first, Option.elim_some]
    · rfl

end Updates

namespace Node

variable {r : Registry} {parent : Composite} {path : String} {first second merged : List Node}
  {n x y : Node}

theorem mergeNode_eq (r : Registry) (parent : Composite) (path : String) (first : List Node)
    (n : Node) :
    mergeNode r parent path first n
      = upsert (fun x => decide (x.responseName = n.responseName))
          (combine r parent path (fun type path children =>
            mergeLists r type path children n.children) n) n first := by
  cases n with
  | leaf a =>
    have none : (fun (type : Composite) (path : String) (children : List Node) =>
        mergeLists r type path children (leaf a).children)
          = fun _ _ children => Except.ok children := by
      funext type path children
      rw [children_leaf, mergeLists]
    rw [mergeNode, none]
    rfl
  | branch a more =>
    rw [mergeNode]
    rfl

/-- The entry of a name in a merged list, given those of the two lists that are merged. Two nodes
are merged below if the first one is a branch and the second one has its type condition; else the
second takes the place of the first. -/
inductive Entry (r : Registry) (parent : Composite) (path : String) :
    Option Node → Option Node → Option Node → Prop
  | neither : Entry r parent path none none none
  | first (x : Node) : Entry r parent path (some x) none (some x)
  | second (y : Node) : Entry r parent path none (some y) (some y)
  | grown {a : Attributes} {children below : List Node} {y : Node} {type : Composite}
      (same : a.condition = y.condition)
      (nested : r.nested? parent a.condition a.name = some type)
      (inside : merge r type (joinPath path a.responseName) children y.children = .ok below) :
      Entry r parent path (some (.branch a children)) (some y) (some (.branch a below))
  | replaced {x y : Node} (apart : x.condition = y.condition → x.children? = none) :
      Entry r parent path (some x) (some y) (some y)

theorem Entry.eq_first {entry result : Option Node} (h : Entry r parent path entry none result) :
    result = entry := by
  cases h <;> rfl

theorem entry_of_combine
    (h : combine r parent path (fun type path children =>
      mergeLists r type path children y.children) y x = .ok n) :
    Entry r parent path (some x) (some y) (some n) := by
  unfold combine at h
  split at h
  · next other =>
    cases h
    exact .replaced fun same => absurd same other
  · next same =>
    cases x with
    | leaf a =>
      cases h
      exact .replaced fun _ => rfl
    | branch a children =>
      obtain ⟨type, found, h⟩ := bind_eq_ok.mp h
      obtain ⟨below, inside, h⟩ := bind_eq_ok.mp h
      cases h
      refine .grown (not_not.mp same) ?_ inside
      unfold typeBelow at found
      split at found
      · next nested =>
        cases found
        exact nested
      · cases found

theorem responseName_of_entry (h : Entry r parent path (some x) (some y) (some n))
    (name : x.responseName = y.responseName) : n.responseName = y.responseName := by
  cases h with
  | grown _ _ _ => exact name
  | replaced _ => rfl

/-- One more node changes the entry of its name only. -/
theorem entries_mergeNode (h : mergeNode r parent path first n = .ok merged) :
    (∃ z, withKey? responseName n.responseName merged = some z ∧
        Entry r parent path (withKey? responseName n.responseName first) (some n) (some z)) ∧
      ∀ name, n.responseName ≠ name →
        withKey? responseName name merged = withKey? responseName name first := by
  rw [mergeNode_eq] at h
  obtain ⟨z, found, entries⟩ := withKey?_upsert h fun x y name combined =>
    responseName_of_entry (entry_of_combine combined) name
  refine ⟨⟨z, (entries _).trans (if_pos rfl), ?_⟩, fun name other => (entries name).trans
    (if_neg other)⟩
  cases here : withKey? responseName n.responseName first with
  | none =>
    rw [here] at found
    cases found
    exact .second n
  | some x =>
    rw [here] at found
    exact entry_of_combine found

/-- Nodes of different names are merged into a list independently of each other. -/
theorem entries_mergeLists (h : mergeLists r parent path first second = .ok merged)
    (once : (second.map responseName).Nodup) (name : String) :
    Entry r parent path (withKey? responseName name first) (withKey? responseName name second)
      (withKey? responseName name merged) := by
  induction second generalizing first with
  | nil =>
    cases h
    rw [withKey?_nil]
    cases withKey? responseName name merged with
    | none => exact .neither
    | some x => exact .first x
  | cons n rest ih =>
    rw [mergeLists, bind_eq_ok] at h
    obtain ⟨next, added, h⟩ := h
    obtain ⟨⟨z, here, entry⟩, others⟩ := entries_mergeNode added
    rw [List.map_cons, List.nodup_cons] at once
    have later := ih h once.2
    rw [withKey?_cons]
    by_cases hn : n.responseName = name
    · subst hn
      -- no other node has the name, so its entry is left alone from now on
      rw [here, withKey?_eq_none.mpr once.1] at later
      rw [if_pos rfl, later.eq_first]
      exact entry
    · rw [if_neg hn, ← others name hn]
      exact later

/-- A merged list has the names of both lists, each once, in the order of first occurrence. If no
name stands twice in either list, the entry of every name is determined by those in the lists. -/
theorem merge_entries (ok : merge r parent path first second = .ok merged) :
    merged.map responseName = ((first ++ second).map responseName).eraseDups ∧
      ((first.map responseName).Nodup → (second.map responseName).Nodup → ∀ name,
        Entry r parent path (withKey? responseName name first)
          (withKey? responseName name second) (withKey? responseName name merged)) := by
  constructor
  · rw [mergeLists_eq_ok second ok, overlay_eq,
      map_key_blendAll keeps_overlaid (nodup_distinct first), names_distinct,
      firsts_firsts_append, firsts_id, List.map_append]
  · intro once once' name
    rw [merge, distinct_of_nodup once] at ok
    exact entries_mergeLists ok once' name

end Node

namespace Films

def early : List Node :=
  [.branch { name := "friends" } [.leaf { name := "id" }], .leaf { name := "id" },
    .branch { name := "friends", aliasName := some "x", condition := some "Droid" }
      [.leaf { name := "id" }]]

def late : List Node :=
  [.leaf { name := "name", aliasName := some "x" },
    .branch { name := "friends", path := some "later" } [.leaf { name := "name" }],
    .leaf { name := "name" }]

end Films

open Films in
theorem merge_entries_hero : ∃ merged,
    Node.merge request.registry hero.parent "hero" early late = .ok merged ∧
      merged.map Node.responseName = ["friends", "id", "x", "name"] ∧
      ∀ name, Node.Entry request.registry hero.parent "hero" (withKey? Node.responseName name early)
        (withKey? Node.responseName name late) (withKey? Node.responseName name merged) := by
  have merged : Node.merge request.registry hero.parent "hero" early late
      = .ok [.branch { name := "friends" } [.leaf { name := "id" }, .leaf { name := "name" }],
          .leaf { name := "id" }, .leaf { name := "name", aliasName := some "x" },
          .leaf { name := "name" }] := by cbv
  obtain ⟨names, entries⟩ := Node.merge_entries merged
  have once : (early.map Node.responseName).Nodup := by decide
  have once' : (late.map Node.responseName).Nodup := by decide
  exact ⟨_, merged, names.trans (by cbv), entries once once'⟩

end SelectionTree
