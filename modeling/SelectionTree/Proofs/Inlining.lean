import SelectionTree.Proofs.Level
/-!
Fragments as abbreviations. An operation whose spreads are written out, all the way down, as inline
fragments is converted as it was, and needs no fragments any more.
-/
set_option autoImplicit false

namespace SelectionTree

mutual

def Selection.spreads : Selection → List String
  | .field _ body => spreadsAll body
  | .inline _ body => spreadsAll body
  | .spread name => [name]

def Selection.spreadsAll : List Selection → List String
  | [] => []
  | s :: rest => s.spreads ++ spreadsAll rest

end

namespace Fragments

variable {fragments : Fragments} {chain : List String} {name : String}
  {selections selections' body rest : List Selection}

/-- The fragments that some selections reach by spreads, their own or those in the fragments that
they reach. -/
inductive Reaches (fragments : Fragments) : List Selection → String → Prop
  | spread {selections : List Selection} {name : String}
      (here : name ∈ Selection.spreadsAll selections) : Reaches fragments selections name
  | step {selections : List Selection} {fragment : Fragment} {name other : String}
      (reached : Reaches fragments selections other)
      (found : Dict.find? other fragments = some fragment)
      (next : Reaches fragments fragment.body name) : Reaches fragments selections name

/-- The second selections are the first ones with every spread replaced by an inline fragment, and
so within the selections of the fragment that is spread. -/
inductive Inlines (fragments : Fragments) : List Selection → List Selection → Prop
  | nil : Inlines fragments [] []
  | field {head : FieldHead} {body body' rest rest' : List Selection}
      (inside : Inlines fragments body body') (after : Inlines fragments rest rest') :
      Inlines fragments (.field head body :: rest) (.field head body' :: rest')
  | inline {own : Option String} {body body' rest rest' : List Selection}
      (inside : Inlines fragments body body') (after : Inlines fragments rest rest') :
      Inlines fragments (.inline own body :: rest) (.inline own body' :: rest')
  | spread {name : String} {fragment : Fragment} {body' rest rest' : List Selection}
      (found : Dict.find? name fragments = some fragment)
      (inside : Inlines fragments fragment.body body') (after : Inlines fragments rest rest') :
      Inlines fragments (.spread name :: rest) (.inline (some fragment.condition) body' :: rest')

/-- The selections with spreads written out. `chain` holds the fragments that are being written out;
a spread of one of them stays, like that of a fragment that is not defined. -/
def inlined (fragments : Fragments) (chain : List String) : List Selection → List Selection
  | [] => []
  | .field head body :: rest =>
    .field head (fragments.inlined chain body) :: fragments.inlined chain rest
  | .inline own body :: rest =>
    .inline own (fragments.inlined chain body) :: fragments.inlined chain rest
  | .spread name :: rest =>
    (if _ : name ∈ chain then .spread name
      else match _ : Dict.find? name fragments with
        | none => .spread name
        | some fragment =>
          .inline (some fragment.condition) (fragments.inlined (name :: chain) fragment.body))
      :: fragments.inlined chain rest
termination_by selections => (fragments.unspread chain, sizeOf selections)
decreasing_by
  all_goals first
    | exact Prod.Lex.left _ _ (Fragments.unspread_cons_lt (by assumption) (by assumption))
    | (apply Prod.Lex.right
       simp only [List.cons.sizeOf_spec, Selection.field.sizeOf_spec, Selection.inline.sizeOf_spec]
       omega)

theorem inlined_spread {fragment : Fragment} (new : name ∉ chain)
    (found : Dict.find? name fragments = some fragment) :
    fragments.inlined chain (.spread name :: rest)
      = .inline (some fragment.condition) (fragments.inlined (name :: chain) fragment.body)
          :: fragments.inlined chain rest := by
  rw [inlined, dif_neg new]
  split
  · simp_all
  · next h =>
    cases found.symm.trans h
    rfl

/-- Names that are closed under spreads cover everything that is reached. -/
theorem Reaches.closed {P : String → Prop} (h : Reaches fragments selections name)
    (next : ∀ other fragment, P other → Dict.find? other fragments = some fragment →
      ∀ x ∈ Selection.spreadsAll fragment.body, P x)
    (own : ∀ x ∈ Selection.spreadsAll selections, P x) : P name := by
  induction h with
  | spread here => exact own _ here
  | step _ found _ ih ih' => exact ih' (next _ _ (ih own) found)

theorem Reaches.mono (h : Reaches fragments selections name)
    (sub : Selection.spreadsAll selections ⊆ Selection.spreadsAll selections') :
    Reaches fragments selections' name := by
  induction h with
  | spread here => exact .spread (sub here)
  | step _ found next ih _ => exact .step (ih sub) found next

/-- The fragments that some selections reach are defined, do not reach themselves, and are not on
the chain. -/
def Unfolds (fragments : Fragments) (chain : List String) (selections : List Selection) : Prop :=
  ∀ name, Reaches fragments selections name → name ∉ chain ∧
    ∃ fragment, Dict.find? name fragments = some fragment ∧ ¬ Reaches fragments fragment.body name

theorem Unfolds.mono (h : fragments.Unfolds chain selections')
    (sub : Selection.spreadsAll selections ⊆ Selection.spreadsAll selections') :
    fragments.Unfolds chain selections := fun name reached => h name (reached.mono sub)

theorem Unfolds.after {s : Selection} (h : fragments.Unfolds chain (s :: rest)) :
    fragments.Unfolds chain rest := h.mono fun _ mem => List.mem_append_right _ mem

theorem Unfolds.field {head : FieldHead} (h : fragments.Unfolds chain (.field head body :: rest)) :
    fragments.Unfolds chain body := h.mono fun _ mem => List.mem_append_left _ mem

theorem Unfolds.inline {own : Option String}
    (h : fragments.Unfolds chain (.inline own body :: rest)) :
    fragments.Unfolds chain body := h.mono fun _ mem => List.mem_append_left _ mem

theorem reaches_spread : Reaches fragments (.spread name :: rest) name :=
  .spread (by simp [Selection.spreadsAll, Selection.spreads])

/-- Within a fragment that is spread, its own name is not reached, nor is one of the chain. -/
theorem Unfolds.spread {fragment : Fragment} (h : fragments.Unfolds chain (.spread name :: rest))
    (found : Dict.find? name fragments = some fragment) :
    fragments.Unfolds (name :: chain) fragment.body := by
  intro other reached
  obtain ⟨new, inside⟩ := h other (.step reaches_spread found reached)
  refine ⟨?_, inside⟩
  rw [List.mem_cons, not_or]
  refine ⟨?_, new⟩
  rintro rfl
  obtain ⟨-, fragment', found', acyclic⟩ := h other reaches_spread
  cases found.symm.trans found'
  exact acyclic reached

theorem inlines_inlined (h : fragments.Unfolds chain selections) :
    fragments.Inlines selections (fragments.inlined chain selections) := by
  induction chain, selections using inlined.induct fragments with
  | case1 chain =>
    rw [inlined]
    exact .nil
  | case2 chain head body rest hbody hrest =>
    rw [inlined]
    exact .field (hbody h.field) (hrest h.after)
  | case3 chain own body rest hbody hrest =>
    rw [inlined]
    exact .inline (hbody h.inline) (hrest h.after)
  | case4 chain name rest hspread hrest =>
    obtain ⟨new, fragment, found, -⟩ := h name reaches_spread
    rw [inlined_spread new found]
    exact .spread found (hspread new fragment found (h.spread found)) (hrest h.after)

end Fragments

namespace Request

variable {q : Request} {place : Place} {chain : List String} {level : List Node}
  {selections : List Selection}

def bare (q : Request) : Request := { q with fragments := [] }

theorem addAll_bare (level ns : List Node) :
    q.bare.addAll place level ns = q.addAll place level ns := by
  induction ns generalizing level with
  | nil => rfl
  | cons n rest ih =>
    rw [addAll, addAll]
    exact congrArg _ (funext ih)

/-- The node of a field depends on its selections only by what they are expanded into. -/
theorem node_bare {head : FieldHead} {body body' : List Selection}
    (empty : body.isEmpty = body'.isEmpty)
    (h : ∀ place,
      (q.expand place chain [] body).outcome = (q.bare.expand place [] [] body').outcome) :
    q.node place chain head body = q.bare.node place [] head body' := by
  rw [node, node, children, children, empty]
  simp only [h]
  rfl

theorem isEmpty_inlined (fragments : Fragments) (chain : List String)
    (selections : List Selection) :
    (fragments.inlined chain selections).isEmpty = selections.isEmpty := by
  cases selections with
  | nil => rw [Fragments.inlined]
  | cons s rest => cases s <;> rw [Fragments.inlined] <;> rfl

theorem Unfolds.opens {place : Place} {chain' : List String} {s : Selection}
    {condition : Option String} {body rest : List Selection}
    (h : q.fragments.Unfolds chain (s :: rest))
    (opened : q.Opens chain place.condition s condition chain' body) :
    q.fragments.Unfolds chain' body := by
  cases opened with
  | inline own body => exact h.inline
  | spread new found => exact h.spread found

theorem outcome_expand_inlined_opens {chain' : List String} {s : Selection}
    {condition : Option String} {body rest : List Selection}
    (opened : q.Opens chain place.condition s condition chain' body) :
    (q.bare.expand place [] level (q.fragments.inlined chain (s :: rest))).outcome = (do
      let nodes ← (q.bare.expand { place with condition } [] []
        (q.fragments.inlined chain' body)).outcome
      let level ← (q.bare.addAll place level nodes).outcome
      (q.bare.expand place [] level (q.fragments.inlined chain rest)).outcome) := by
  cases opened with
  | inline own body => rw [Fragments.inlined, outcome_expand_inline]
  | spread new found =>
    rw [Fragments.inlined_spread new found, outcome_expand_inline]
    rfl

/-- Selections are expanded into the same nodes, or fail with the same error, once their spreads
are written out. -/
theorem outcome_expand_inlined (h : q.fragments.Unfolds chain selections) :
    (q.expand place chain level selections).outcome
      = (q.bare.expand place [] level (q.fragments.inlined chain selections)).outcome := by
  -- the chain grows on one side only, but no spread that is reached is on it
  induction place, chain, selections using expand_induction q generalizing level with
  | nil place chain =>
    rw [Fragments.inlined, outcome_expand_nil, outcome_expand_nil]
  | field place chain head body rest hbody hrest =>
    have here : q.node place chain head body
        = q.bare.node place [] head (q.fragments.inlined chain body) :=
      node_bare (isEmpty_inlined q.fragments chain body).symm fun place => hbody place h.field
    rw [Fragments.inlined, outcome_expand_field, outcome_expand_field, here]
    simp only [hrest h.after]
    rfl
  | opens place chain s condition chain' body rest opened hbody hrest =>
    rw [outcome_expand_opens q opened, hbody (Unfolds.opens h opened),
      outcome_expand_inlined_opens opened]
    simp only [hrest h.after, addAll_bare]
  | cyclic place chain name rest old _ => exact absurd old (h name Fragments.reaches_spread).1
  | undefined place chain name rest new missing _ =>
    obtain ⟨-, fragment, found, -⟩ := h name Fragments.reaches_spread
    cases missing.symm.trans found

/-- An operation whose fragments are all defined and not cyclic is converted as the operation with
its spreads written out, which needs no fragments: into the same tree or with the same error. -/
theorem convert_inlined {operation : Operation}
    (defined : ∀ name, q.fragments.Reaches operation.selections name →
      ∃ fragment, Dict.find? name q.fragments = some fragment)
    (acyclic : ∀ name fragment, q.fragments.Reaches operation.selections name →
      Dict.find? name q.fragments = some fragment → ¬ q.fragments.Reaches fragment.body name) :
    q.fragments.Inlines operation.selections (q.fragments.inlined [] operation.selections) ∧
      (q.convert operation).outcome
        = (Request.convert { q with fragments := [] }
            ⟨operation.kind, q.fragments.inlined [] operation.selections⟩).outcome := by
  have unfolds : q.fragments.Unfolds [] operation.selections := fun name reached => by
    obtain ⟨fragment, found⟩ := defined name reached
    exact ⟨List.not_mem_nil, fragment, found, acyclic name fragment reached found⟩
  refine ⟨Fragments.inlines_inlined unfolds, ?_⟩
  cases rooted : q.registry.root? operation.kind with
  | none => simp [convert, tree, rooted]
  | some root =>
    let bare : Operation := ⟨operation.kind, q.fragments.inlined [] operation.selections⟩
    have converted : (q.bare.convert bare).outcome
        = (q.bare.expand ⟨root, "", none⟩ [] [] bare.selections).outcome >>= fun roots =>
            .ok ⟨bare.kind, roots⟩ := q.bare.outcome_convert rooted
    rw [q.outcome_convert rooted, outcome_expand_inlined unfolds]
    exact converted.symm

end Request

def Films.spreading : Operation where
  kind := .query
  selections :=
    [select "hero" [.spread "Circle", select "friends" [.spread "Circle"]]]

open Films in
theorem convert_inlined_hero :
    (request.convert spreading).outcome
      = (Request.convert { request with fragments := [] }
          ⟨.query, request.fragments.inlined [] spreading.selections⟩).outcome := by
  have entries : ∀ name fragment, Dict.find? name request.fragments = some fragment →
      name = "Names" ∧ fragment = names ∨ name = "Circle" ∧ fragment = circle := by
    intro name fragment found
    simp only [request, Dict.find?] at found
    split at found
    · next here => exact Or.inl ⟨here.symm, (Option.some.inj found).symm⟩
    · split at found
      · next here => exact Or.inr ⟨here.symm, (Option.some.inj found).symm⟩
      · cases found
  have next : ∀ name fragment, Dict.find? name request.fragments = some fragment →
      ∀ x ∈ Selection.spreadsAll fragment.body, x = "Names" := by
    intro name fragment found x hx
    rcases entries name fragment found with ⟨-, rfl⟩ | ⟨-, rfl⟩
    · cases hx
    · exact List.mem_singleton.mp hx
  have reached : ∀ name, request.fragments.Reaches spreading.selections name →
      name = "Circle" ∨ name = "Names" := fun name h =>
    h.closed (P := fun x => x = "Circle" ∨ x = "Names")
      (fun other fragment _ found x hx => Or.inr (next other fragment found x hx)) fun x hx =>
        Or.inl (by simpa [spreading, select, Selection.spreadsAll, Selection.spreads] using hx)
  refine (Request.convert_inlined (q := request) (fun name h => ?_)
    fun name fragment _ found again => ?_).2
  · rcases reached name h with rfl | rfl
    · exact ⟨circle, by cbv⟩
    · exact ⟨names, by cbv⟩
  · rcases entries name fragment found with ⟨rfl, rfl⟩ | ⟨rfl, rfl⟩
    · refine again.closed (P := fun _ => False) (fun _ _ old _ _ _ => old) fun x hx => ?_
      cases hx
    · have other := again.closed (P := fun x => x = "Names") (fun _ _ _ found => next _ _ found)
        (next _ _ found)
      exact absurd other (by decide)

end SelectionTree
