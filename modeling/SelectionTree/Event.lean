import SelectionTree.Node
/-!
Runs: computations that report events on the way and end in a value or an error. The events
reported before an error are kept. How a run is logged is a function of its events alone.
-/
set_option autoImplicit false

namespace SelectionTree

/-- A stretch of a run that is reported when it begins and when it ends. -/
inductive Span where
  | conversion (kind : OperationKind)
  | rendering

inductive Event where
  | opened (span : Span)
  | closed (span : Span)
  | inlineExpanded (condition : Option String)
  | spreadExpanded (fragment condition : String)
  | unboundVariable (name : String)
  | selectionsDiscarded (field : String)
  | treeConverted (tree : Tree)
  | schemaLoaded (types : Nat)
  | variablesIgnored (value : Value)

structure Run (ε α : Type) where
  events : List Event
  outcome : Except ε α

namespace Run

variable {ε α β : Type}

def pure (x : α) : Run ε α := ⟨[], .ok x⟩

def bind (r : Run ε α) (f : α → Run ε β) : Run ε β :=
  match r.outcome with
  | .error e => ⟨r.events, .error e⟩
  | .ok x =>
    let next := f x
    ⟨r.events ++ next.events, next.outcome⟩

instance : Monad (Run ε) where
  pure := Run.pure
  bind := Run.bind

def fail (e : ε) : Run ε α := ⟨[], .error e⟩

def tell (events : List Event) : Run ε Unit := ⟨events, .ok ()⟩

def ofExcept (x : Except ε α) : Run ε α := ⟨[], x⟩

def mapError {ε' : Type} (f : ε → ε') (r : Run ε α) : Run ε' α := ⟨r.events, r.outcome.mapError f⟩

/-- Reports the beginning and the end of a run. The end is reported of a failed one too. -/
def within (span : Span) (r : Run ε α) : Run ε α :=
  ⟨.opened span :: r.events ++ [.closed span], r.outcome⟩

@[simp] theorem outcome_pure (x : α) : (Pure.pure x : Run ε α).outcome = .ok x := rfl

@[simp] theorem events_pure (x : α) : (Pure.pure x : Run ε α).events = [] := rfl

@[simp] theorem outcome_bind (r : Run ε α) (f : α → Run ε β) :
    (r >>= f).outcome = r.outcome >>= fun x => (f x).outcome := by
  show (Run.bind r f).outcome = r.outcome.bind _
  unfold Run.bind
  cases r.outcome <;> rfl

@[simp] theorem outcome_fail (e : ε) : (fail e : Run ε α).outcome = .error e := rfl

@[simp] theorem outcome_tell (events : List Event) :
    (tell events : Run ε Unit).outcome = .ok () := rfl

@[simp] theorem outcome_ofExcept (x : Except ε α) : (ofExcept x).outcome = x := rfl

@[simp] theorem outcome_within (span : Span) (r : Run ε α) :
    (r.within span).outcome = r.outcome := rfl

end Run

end SelectionTree
