import SelectionTree.Proofs.Entries
/-!
Recursion with an account of it. The functions of a conversion that call themselves, the expansion
of selections and the merge of two lists, are run here with a bound on how deep their calls may be
nested and with a note of every recursive call. The fragments that are being expanded are kept on
one stack, on which a name is put before its fragment is expanded and from which it is taken
afterwards.
-/
set_option autoImplicit false

namespace SelectionTree

/-- A call of one of the functions that call themselves: selections that are expanded while a chain
of fragments is, or two lists of nodes that are merged. -/
inductive Call where
  | expansion (chain : List String) (selections : List Selection)
  | merge (first second : List Node)

structure Ended (α : Type) where
  stack : List String
  calls : List (Call × Call)
  outcome : Option (Except ConversionError α)

def Bounded (α : Type) := List String → Ended α

namespace Bounded

variable {α β : Type}

protected def pure (x : α) : Bounded α := fun stack => ⟨stack, [], some (.ok x)⟩

protected def bind (m : Bounded α) (f : α → Bounded β) : Bounded β := fun stack =>
  let ended := m stack
  match ended.outcome with
  | some (.ok x) =>
    let next := f x ended.stack
    ⟨next.stack, ended.calls ++ next.calls, next.outcome⟩
  | some (.error e) => ⟨ended.stack, ended.calls, some (.error e)⟩
  | none => ⟨ended.stack, ended.calls, none⟩

instance : Monad Bounded where
  pure := Bounded.pure
  bind := Bounded.bind

def ofExcept (x : Except ConversionError α) : Bounded α := fun stack => ⟨stack, [], some x⟩

/-- Stands for a call that is nested deeper than the bound allows. -/
def tooDeep : Bounded α := fun stack => ⟨stack, [], none⟩

def chain : Bounded (List String) := fun stack => ⟨stack, [], some (.ok stack)⟩

def within (name : String) (m : Bounded α) : Bounded α := fun stack =>
  let ended := m (name :: stack)
  { ended with stack := ended.stack.tail }

def noting (caller callee : Call) (m : Bounded α) : Bounded α := fun stack =>
  let ended := m stack
  { ended with calls := (caller, callee) :: ended.calls }

/-- The computation reaches an outcome and leaves the stack as it was, and the relation holds
between every call and the recursive calls that it makes. -/
structure Runs (P : Call → Call → Prop) (stack : List String) (m : Bounded α)
    (x : Except ConversionError α) : Prop where
  kept : (m stack).stack = stack
  calls : ∀ c ∈ (m stack).calls, P c.1 c.2
  ended : (m stack).outcome = some x

variable {P : Call → Call → Prop} {stack : List String} {m : Bounded α}
  {x : Except ConversionError α} {f : α → Bounded β} {g : α → Except ConversionError β}

theorem runs_ofExcept (P : Call → Call → Prop) (stack : List String)
    (x : Except ConversionError α) : Runs P stack (ofExcept x) x :=
  ⟨rfl, fun _ none => absurd none List.not_mem_nil, rfl⟩

theorem runs_pure (P : Call → Call → Prop) (stack : List String) (x : α) :
    Runs P stack (Pure.pure x) (.ok x) := runs_ofExcept P stack (.ok x)

theorem Runs.bind (h : Runs P stack m x) (next : ∀ a, x = .ok a → Runs P stack (f a) (g a)) :
    Runs P stack (m >>= f) (x >>= g) := by
  obtain ⟨kept, calls, ended⟩ := h
  show Runs P stack (Bounded.bind m f) _
  cases x with
  | error e =>
    have here : Bounded.bind m f stack = ⟨(m stack).stack, (m stack).calls, some (.error e)⟩ := by
      simp only [Bounded.bind, ended]
    exact ⟨here ▸ kept, here ▸ calls, here ▸ rfl⟩
  | ok a =>
    obtain ⟨kept', calls', ended'⟩ := next a rfl
    have here : Bounded.bind m f stack
        = ⟨(f a stack).stack, (m stack).calls ++ (f a stack).calls, (f a stack).outcome⟩ := by
      simp only [Bounded.bind, ended, kept]
    exact ⟨here ▸ kept', here ▸ List.forall_mem_append.mpr ⟨calls, calls'⟩, here ▸ ended'⟩

theorem Runs.mono {Q : Call → Call → Prop} (h : Runs P stack m x) (weaker : ∀ c d, P c d → Q c d) :
    Runs Q stack m x := ⟨h.kept, fun c made => weaker _ _ (h.calls c made), h.ended⟩

theorem Runs.chain_bind {f : List String → Bounded α} (h : Runs P stack (f stack) x) :
    Runs P stack (chain >>= f) x := ⟨h.kept, h.calls, h.ended⟩

theorem Runs.within {name : String} (h : Runs P (name :: stack) m x) :
    Runs P stack (within name m) x := by
  obtain ⟨kept, calls, ended⟩ := h
  refine ⟨?_, calls, ended⟩
  rw [Bounded.within, kept, List.tail_cons]

theorem Runs.noting {caller callee : Call} (h : Runs P stack m x) (made : P caller callee) :
    Runs P stack (noting caller callee m) x :=
  ⟨h.kept, List.forall_mem_cons.mpr ⟨made, h.calls⟩, h.ended⟩

theorem runs_upsert {test : α → Bool} {update : α → Bounded α}
    {update' : α → Except ConversionError α} {new : α} {xs : List α}
    (h : ∀ x ∈ xs, test x = true → Runs P stack (update x) (update' x)) :
    Runs P stack (upsert test update new xs) (upsert test update' new xs) := by
  induction xs with
  | nil => exact runs_pure P stack _
  | cons x xs ih =>
    obtain ⟨here, later⟩ := List.forall_mem_cons.mp h
    rw [upsert, upsert]
    split
    · next found => exact (here found).bind fun y _ => runs_pure P stack _
    · exact (ih later).bind fun ys _ => runs_pure P stack _

end Bounded

end SelectionTree
