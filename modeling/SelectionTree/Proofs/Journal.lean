import SelectionTree.Log
import SelectionTree.Proofs.Encounters
import SelectionTree.Proofs.Substitution
/-!
The log of a conversion under a filter that lets everything through. Every event has a line between
those of the span around it, so the lines of fragments are those of the unrolled operation in order,
and each occurrence of an unbound variable has a line of its own.
-/
set_option autoImplicit false

namespace SelectionTree

open Log

theorem Filter.ofText_trace : ofText "trace" = [⟨[], Level.trace.rank⟩] := rfl

theorem Filter.enables_trace (target : String) (level : Level) :
    (ofText "trace").enables target level = true := by
  rw [ofText_trace]
  cases level <;> rfl

namespace Log

variable {f : Filter} {events : List Event}

theorem linesWithin_cons (all : ∀ target level, f.enables target level = true)
    (spans : List Span) {e : Event} (inner : e.isBoundary = false) (rest : List Event) :
    linesWithin f spans (e :: rest)
      = (e.line?.map (Line.inside spans)).toList ++ linesWithin f spans rest := by
  have passes : ∀ l : Line, l.passes f = true := fun l => all l.target l.level
  cases e with
  | opened s => cases inner
  | closed s => cases inner
  | _ => exact if_pos (passes _)

theorem linesWithin_append (all : ∀ target level, f.enables target level = true)
    (spans : List Span) (inner : ∀ e ∈ events, e.isBoundary = false) (rest : List Event) :
    linesWithin f spans (events ++ rest)
      = events.filterMap (fun e => e.line?.map (Line.inside spans))
          ++ linesWithin f spans rest := by
  induction events with
  | nil => rfl
  | cons e events ih =>
    obtain ⟨here, behind⟩ := List.forall_mem_cons.mp inner
    rw [List.cons_append, linesWithin_cons all spans here, ih behind, List.filterMap_cons]
    cases e.line? <;> rfl

/-- The lines of a span and of the events in it. -/
theorem lines_span (all : ∀ target level, f.enables target level = true) (s : Span)
    (inner : ∀ e ∈ events, e.isBoundary = false) :
    lines f (.opened s :: events ++ [.closed s])
      = s.line "START" :: events.filterMap (fun e => e.line?.map (Line.inside [s]))
          ++ [s.line "END"] := by
  have passes : ∀ l : Line, l.passes f = true := fun l => all l.target l.level
  rw [lines, List.cons_append, linesWithin, if_pos (passes _), linesWithin_append all [s] inner,
    linesWithin, if_pos (passes _)]
  rfl

end Log

namespace Line

def tellsFragment (l : Line) : Bool :=
  l.message = "[CONVERT - EVENT] Expanding inline fragment."
    || l.message = "[CONVERT - EVENT] Expanding fragment spread."

def tellsUnbound (l : Line) : Bool :=
  l.message = "[CONVERT - EVENT] Extracted unbound variable as null."

def ofUnbound (kind : OperationKind) (name : String) : Line :=
  ⟨.debug, valuesTarget, "[CONVERT - EVENT] Extracted unbound variable as null.",
    [("variable", .str name), ("operation", .str kind.word)]⟩

end Line

/-- The line of a fragment, with its name where it has one and the type condition in effect. -/
def Encounter.line? (kind : OperationKind) : Encounter → Option Line
  | field _ => none
  | inline condition =>
    some ⟨.trace, conversionTarget, "[CONVERT - EVENT] Expanding inline fragment.",
      [("type_condition", .str (Quoted.option condition)), ("operation", .str kind.word)]⟩
  | spread fragment condition =>
    some ⟨.trace, conversionTarget, "[CONVERT - EVENT] Expanding fragment spread.",
      [("fragment", .str fragment), ("type_condition", .str condition),
        ("operation", .str kind.word)]⟩

section

variable (kind : OperationKind)

theorem Event.tellsFragment_line (e : Event) :
    (e.line?.map (Line.inside [.conversion kind])).filter Line.tellsFragment
      = e.fragment?.bind (Encounter.line? kind) := by
  cases e <;> rfl

theorem Event.tellsUnbound_line (e : Event) :
    (e.line?.map (Line.inside [.conversion kind])).filter Line.tellsUnbound
      = e.unboundName?.map (Line.ofUnbound kind) := by
  cases e <;> rfl

theorem Encounter.filterMap_line_filter (met : List Encounter) :
    (met.filter isFragment).filterMap (line? kind) = met.filterMap (line? kind) := by
  rw [List.filterMap_filter]
  refine List.filterMap_congr fun e _ => ?_
  cases e <;> rfl

end

variable {q : Request} {operation : Operation} {tree : Tree}

theorem Log.filter_lines_span {test : Line → Bool} {events : List Event} {s : Span}
    (inner : ∀ e ∈ events, e.isBoundary = false) (start : test (s.line "START") = false)
    (stop : test (s.line "END") = false) :
    (lines (Filter.ofText "trace") (.opened s :: events ++ [.closed s])).filter test
      = events.filterMap fun e => (e.line?.map (Line.inside [s])).filter test := by
  have last : [s.line "END"].filter test = [] := by simp [stop]
  rw [lines_span Filter.enables_trace s inner, List.cons_append,
    List.filter_cons_of_neg (by simp [start]), List.filter_append, last, List.append_nil,
    List.filter_filterMap]

/-- The log of a conversion that succeeds has a line for each fragment of the unrolled operation,
in the same order and with the type condition in effect, and one for each occurrence of an unbound
variable in its fields. -/
theorem Request.log_convert (ok : (q.convert operation).outcome = .ok tree) :
    ∃ met, q.fragments.unroll? none [] operation.selections = some met ∧
      (lines (Filter.ofText "trace") (q.convert operation).events).filter Line.tellsFragment
        = met.filterMap (Encounter.line? operation.kind) ∧
      ((lines (Filter.ofText "trace") (q.convert operation).events).filter Line.tellsUnbound).Perm
        ((met.flatMap (Encounter.unbound q.bindings)).map (Line.ofUnbound operation.kind)) := by
  obtain ⟨events, met, unrolled, reports, told⟩ := reports_convert ok
  have inner : ∀ e ∈ events ++ [.treeConverted tree], e.isBoundary = false :=
    List.forall_mem_append.mpr ⟨reports.inner, List.forall_mem_singleton.mpr rfl⟩
  -- The tree is told of last, with neither a fragment nor a variable.
  have fragments : (events ++ [Event.treeConverted tree]).filterMap Event.fragment?
      = met.filter Encounter.isFragment := by
    rw [List.filterMap_append, reports.fragments]
    exact List.append_nil _
  have names : (events ++ [Event.treeConverted tree]).filterMap Event.unboundName?
      = events.filterMap Event.unboundName? := by
    rw [List.filterMap_append]
    exact List.append_nil _
  refine ⟨met, unrolled, ?_, ?_⟩
  · rw [told, filter_lines_span inner rfl rfl]
    simp only [Event.tellsFragment_line]
    rw [← List.filterMap_filterMap, fragments, Encounter.filterMap_line_filter]
  · rw [told, filter_lines_span inner rfl rfl]
    simp only [Event.tellsUnbound_line]
    rw [← List.map_filterMap, names]
    exact reports.unbound.map _

open Films in
theorem log_convert_hero : ∃ tree, (binding.convert abbreviating).outcome = .ok tree ∧
    (lines (Filter.ofText "trace") (binding.convert abbreviating).events).filter Line.tellsFragment
      = List.replicate 2 ⟨.trace, conversionTarget, "[CONVERT - EVENT] Expanding fragment spread.",
          [("fragment", .str "Names"), ("type_condition", .str "Droid"),
            ("operation", .str "query")]⟩ ∧
    ((lines (Filter.ofText "trace") (binding.convert abbreviating).events).filter
        Line.tellsUnbound).Perm (List.replicate 3 (Line.ofUnbound .query "style")) := by
  have converted : ∃ tree, (binding.convert abbreviating).outcome = .ok tree := ⟨_, by cbv⟩
  obtain ⟨tree, ok⟩ := converted
  obtain ⟨met, unrolled, fragments, unbound⟩ := Request.log_convert ok
  have row : ∃ met, binding.fragments.unroll? none [] abbreviating.selections = some met ∧
      met.filterMap (Encounter.line? .query)
        = List.replicate 2 ⟨.trace, conversionTarget,
            "[CONVERT - EVENT] Expanding fragment spread.",
            [("fragment", .str "Names"), ("type_condition", .str "Droid"),
              ("operation", .str "query")]⟩ ∧
      met.flatMap (Encounter.unbound binding.bindings) = List.replicate 3 "style" :=
    ⟨_, by cbv, by cbv, by cbv⟩
  obtain ⟨met', unrolled', fragments', unbound'⟩ := row
  cases unrolled.symm.trans unrolled'
  rw [unbound'] at unbound
  exact ⟨tree, ok, fragments.trans fragments', unbound⟩

end SelectionTree
