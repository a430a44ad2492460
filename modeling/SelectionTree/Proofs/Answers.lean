import SelectionTree.Proofs.Outcome
/-!
Conversions by two registries. Nothing of a registry counts but its answers: where a second one
answers like the first, every conversion by it ends as before. Where the second one may know more,
this is left of the conversions that do not fail and do not show types.
-/
set_option autoImplicit false

namespace SelectionTree

variable {α β γ δ ε : Type} {gaps : Prop}

/-- Two answers to one question. If gaps are let pass, the first one may be missing. -/
inductive Answers (gaps : Prop) (R : α → β → Prop) : Option α → Option β → Prop
  | both {a : α} {b : β} (alike : R a b) : Answers gaps R (some a) (some b)
  | neither : Answers gaps R none none
  | gap (pass : gaps) (y : Option β) : Answers gaps R none y

def Repeats (gaps : Prop) (x y : Except ε α) : Prop := x = y ∨ gaps ∧ ∃ e, x = .error e

theorem Answers.bind {R : α → β → Prop} {S : γ → δ → Prop} {x : Option α} {y : Option β}
    {f : α → Option γ} {g : β → Option δ} (h : Answers gaps R x y)
    (next : ∀ a b, R a b → Answers gaps S (f a) (g b)) : Answers gaps S (x.bind f) (y.bind g) := by
  cases h with
  | both alike => exact next _ _ alike
  | neither => exact .neither
  | gap pass y => exact .gap pass _

theorem Answers.of_eq {x y : Option α} (h : x = y) : Answers gaps (· = ·) x y := by
  subst h
  cases x with
  | none => exact .neither
  | some a => exact .both rfl

theorem Answers.eq {x y : Option α} (h : Answers gaps (· = ·) x y) (full : ¬ gaps) : x = y := by
  cases h with
  | both alike => rw [alike]
  | neither => rfl
  | gap pass y => exact absurd pass full

namespace Repeats

variable {x y : Except ε α}

theorem refl (x : Except ε α) : Repeats gaps x x := Or.inl rfl

theorem bind {f g : α → Except ε β} (h : Repeats gaps x y)
    (next : ∀ a, Repeats gaps (f a) (g a)) : Repeats gaps (x >>= f) (y >>= g) := by
  rcases h with rfl | ⟨pass, e, rfl⟩
  · cases x with
    | error e => exact refl _
    | ok a => exact next a
  · exact Or.inr ⟨pass, e, rfl⟩

theorem ok {a : α} (h : Repeats gaps x y) (ok : x = .ok a) : y = .ok a := by
  rcases h with rfl | ⟨-, e, rfl⟩
  · exact ok
  · cases ok

theorem eq (h : Repeats gaps x y) (full : ¬ gaps) : x = y := h.resolve_right fun gap => full gap.1

end Repeats

/-- Computations that go on with an answer and fail alike without one. -/
theorem Answers.elim {R : α → β → Prop} {x : Option α} {y : Option β} {e : ε}
    {f : α → Except ε γ} {g : β → Except ε γ} (h : Answers gaps R x y)
    (next : ∀ a b, R a b → Repeats gaps (f a) (g b)) :
    Repeats gaps (x.elim (.error e) f) (y.elim (.error e) g) := by
  cases h with
  | both alike => exact next _ _ alike
  | neither => exact .refl _
  | gap pass y => exact Or.inr ⟨pass, e, rfl⟩

theorem repeats_upsert {test : α → Bool} {update update' : α → Except ε α} {new : α}
    (h : ∀ x, Repeats gaps (update x) (update' x)) (xs : List α) :
    Repeats gaps (upsert test update new xs) (upsert test update' new xs) := by
  induction xs with
  | nil => exact .refl _
  | cons x xs ih =>
    rw [upsert, upsert]
    split
    · exact (h x).bind fun _ => .refl _
    · exact ih.bind fun _ => .refl _

structure Composite.Matches (gaps : Prop) (c c' : Composite) : Prop where
  name : c'.name = c.name
  fields : ∀ field, Answers gaps (· = ·) ((c.field? field).map FieldDeclaration.type)
    ((c'.field? field).map FieldDeclaration.type)

structure Registry.Matches (gaps : Prop) (r r' : Registry) : Prop where
  types : ∀ name, Answers gaps (Composite.Matches gaps) (r.type? name) (r'.type? name)
  roots : ∀ kind, Answers gaps (Composite.Matches gaps) (r.root? kind) (r'.root? kind)

namespace Registry.Matches

variable {r r' : Registry} {parent parent' : Composite}

theorem declared? (h : r.Matches gaps r') (around : parent.Matches gaps parent')
    (condition : Option String) (field : String) :
    Answers gaps (· = ·) (r.declared? parent condition field)
      (r'.declared? parent' condition field) := by
  have owners : Answers gaps (Composite.Matches gaps) (r.owner? parent condition)
      (r'.owner? parent' condition) := by
    cases condition with
    | none => exact .both around
    | some name => exact h.types name
  exact owners.bind fun _ _ owner => owner.fields field

theorem nested? (h : r.Matches gaps r') (around : parent.Matches gaps parent')
    (condition : Option String) (field : String) :
    Answers gaps (Composite.Matches gaps) (r.nested? parent condition field)
      (r'.nested? parent' condition field) :=
  (h.declared? around condition field).bind fun type _ same => same ▸ h.types type.base

end Registry.Matches

namespace Node

variable {r r' : Registry} {parent parent' : Composite} {path : String}

theorem typeBelow_bind (r : Registry) (parent : Composite) (path : String) (a : Attributes)
    (f : Composite → Except ConversionError α) :
    (typeBelow r parent path a >>= f)
      = (r.nested? parent a.condition a.name).elim
          (.error (.schemaMismatch (joinPath path a.responseName))) f := by
  unfold typeBelow
  cases r.nested? parent a.condition a.name <;> rfl

theorem repeats_combine (h : r.Matches gaps r') (around : parent.Matches gaps parent')
    {mergeChildren mergeChildren' : Composite → String → List Node →
      Except ConversionError (List Node)}
    (hmerge : ∀ type type', type.Matches gaps type' → ∀ path children,
      Repeats gaps (mergeChildren type path children) (mergeChildren' type' path children))
    (second first : Node) :
    Repeats gaps (combine r parent path mergeChildren second first)
      (combine r' parent' path mergeChildren' second first) := by
  unfold combine
  split
  · exact .refl _
  · cases first with
    | leaf a => exact .refl _
    | branch a children =>
      simp only [typeBelow_bind]
      exact (h.nested? around _ _).elim fun type type' matched =>
        (hmerge type type' matched _ _).bind fun _ => .refl _

mutual

theorem repeats_mergeLists (h : r.Matches gaps r') {parent parent' : Composite}
    (around : parent.Matches gaps parent') (path : String) (first : List Node) :
    (second : List Node) → Repeats gaps (mergeLists r parent path first second)
      (mergeLists r' parent' path first second)
  | [] => .refl _
  | n :: rest => by
    rw [mergeLists, mergeLists]
    exact (repeats_mergeNode h around path first n).bind fun merged =>
      repeats_mergeLists h around path merged rest

theorem repeats_mergeNode (h : r.Matches gaps r') {parent parent' : Composite}
    (around : parent.Matches gaps parent') (path : String) (first : List Node) :
    (n : Node) → Repeats gaps (mergeNode r parent path first n)
      (mergeNode r' parent' path first n)
  | .leaf a => by
    rw [mergeNode, mergeNode]
    exact repeats_upsert
      (repeats_combine h around (fun _ _ _ _ children => .refl (.ok children)) (leaf a)) first
  | .branch a children => by
    rw [mergeNode, mergeNode]
    exact repeats_upsert (repeats_combine h around (fun _ _ matched path firstChildren =>
      repeats_mergeLists h matched path firstChildren children) (branch a children)) first

end

theorem repeats_absorb (h : r.Matches gaps r') (around : parent.Matches gaps parent')
    (path : String) (again first : Node) :
    Repeats gaps (absorb r parent path again first).outcome
      (absorb r' parent' path again first).outcome := by
  cases again with
  | leaf b => exact .refl _
  | branch b more =>
    cases first with
    | leaf a => exact .refl _
    | branch a children =>
      simp only [absorb, Run.outcome_bind, Run.outcome_ofExcept, typeBelow_bind]
      exact (h.nested? around _ _).elim fun type type' matched =>
        (repeats_mergeLists h matched _ _ more).bind fun _ => .refl _

end Node

def Request.under (q : Request) (r : Registry) : Request := { q with registry := r }

namespace Request

variable {q : Request} {r : Registry} {place : Place} {chain : List String} {parent : Composite}

theorem repeats_add (h : q.registry.Matches gaps r) (around : place.parent.Matches gaps parent)
    (level : List Node) (n : Node) :
    Repeats gaps (q.add place level n).outcome
      ((q.under r).add { place with parent } level n).outcome := by
  rw [add, add, Node.outcome_addToLevel, Node.outcome_addToLevel, around.name]
  exact repeats_upsert (fun x => Node.repeats_absorb h around _ n x) level

theorem repeats_addAll (h : q.registry.Matches gaps r) (around : place.parent.Matches gaps parent)
    (level ns : List Node) :
    Repeats gaps (q.addAll place level ns).outcome
      ((q.under r).addAll { place with parent } level ns).outcome := by
  induction ns generalizing level with
  | nil => exact .refl _
  | cons n rest ih =>
    rw [outcome_addAll_cons, outcome_addAll_cons]
    exact (repeats_add h around level n).bind fun next => ih next

theorem attributes_under (h : q.registry.Matches gaps r)
    (around : place.parent.Matches gaps parent) (untyped : gaps → q.options.returnTypes = false)
    (head : FieldHead) :
    (q.under r).attributes { place with parent } head = q.attributes place head := by
  have types : (if q.options.returnTypes then
        (q.under r).returnType? { place with parent } head.name else none)
      = if q.options.returnTypes then q.returnType? place head.name else none := by
    split
    · next asked =>
      have full : ¬ gaps := fun pass => by simp [untyped pass] at asked
      have declared := (h.declared? around place.condition head.name).eq full
      rw [returnType?, returnType?, declared]
      rfl
    · rfl
  unfold attributes
  exact congrArg (fun returnType => Attributes.mk _ _ _ _ returnType _ _) types

theorem node_of_full (q : Request) (place : Place) (chain : List String) (head : FieldHead)
    {body : List Selection} (full : body ≠ []) :
    q.node place chain head body
      = (q.registry.nested? place.parent place.condition head.name).elim
          (.error (.schemaMismatch (joinPath place.path head.responseName))) fun type =>
            (q.expand (place.below head type) chain [] body).outcome >>= fun nodes =>
              .ok (.branch (q.attributes place head) nodes) := by
  cases nested : q.registry.nested? place.parent place.condition head.name with
  | none => exact q.node_of_none place chain full nested
  | some type => exact q.node_of_some place chain full nested

theorem Opens.under {chain' : List String} {s : Selection} {outer condition : Option String}
    {body : List Selection} (opened : q.Opens chain outer s condition chain' body) :
    (q.under r).Opens chain outer s condition chain' body := by
  cases opened with
  | inline own body => exact .inline own body
  | spread new found => exact .spread new found

theorem repeats_expand (h : q.registry.Matches gaps r)
    (untyped : gaps → q.options.returnTypes = false) {selections : List Selection}
    (around : place.parent.Matches gaps parent) (level : List Node) :
    Repeats gaps (q.expand place chain level selections).outcome
      ((q.under r).expand { place with parent } chain level selections).outcome := by
  induction place, chain, selections using expand_induction q generalizing parent level with
  | nil place chain =>
    rw [outcome_expand_nil, outcome_expand_nil]
    exact .refl _
  | field place chain head body rest hbody hrest =>
    have same := attributes_under h around untyped head
    -- a field may stop a conversion with gaps, where no type is found for its selections
    have here : Repeats gaps (q.node place chain head body)
        ((q.under r).node { place with parent } chain head body) := by
      by_cases full : body = []
      · subst full
        rw [node_nil, node_nil, same]
        exact .refl _
      · rw [node_of_full _ _ _ _ full, node_of_full _ _ _ _ full, same]
        exact (h.nested? around _ _).elim fun type type' matched =>
          (hbody (place.below head type) matched []).bind fun _ => .refl _
    rw [outcome_expand_field, outcome_expand_field]
    exact here.bind fun n => (repeats_add h around level n).bind fun next => hrest around next
  | opens place chain s condition chain' body rest opened hbody hrest =>
    have opened' : (q.under r).Opens chain ({ place with parent } : Place).condition s condition
      chain' body := opened.under
    rw [outcome_expand_opens q opened, outcome_expand_opens (q.under r) opened']
    exact (hbody around []).bind fun ns => (repeats_addAll h around level ns).bind fun next =>
      hrest around next
  | cyclic place chain name rest old _ =>
    rw [outcome_expand_spread_of_mem _ _ _ _ rest old,
      outcome_expand_spread_of_mem _ _ _ _ rest old]
    exact .refl _
  | undefined place chain name rest new missing _ =>
    rw [outcome_expand_spread_of_none _ _ _ _ rest new missing,
      outcome_expand_spread_of_none (q.under r) _ _ _ rest new missing]
    exact .refl _

theorem repeats_convert (q : Request) (h : q.registry.Matches gaps r)
    (untyped : gaps → q.options.returnTypes = false) (operation : Operation) :
    Repeats gaps (q.convert operation).outcome ((q.under r).convert operation).outcome := by
  rw [outcome_convert_elim, outcome_convert_elim]
  refine (h.roots operation.kind).elim fun root root' matched => ?_
  have expanded : Repeats gaps (q.expand ⟨root, "", none⟩ [] [] operation.selections).outcome
      ((q.under r).expand ⟨root', "", none⟩ [] [] operation.selections).outcome :=
    repeats_expand h untyped matched []
  exact expanded.bind fun roots => .refl _

end Request

end SelectionTree
