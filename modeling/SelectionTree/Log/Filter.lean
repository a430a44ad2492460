/-!
Log levels and filters. A filter is a list of rules, each a level for the targets that start with a
given text; of the rules that apply, the one with the longest text decides.
-/
set_option autoImplicit false

namespace SelectionTree

inductive Level where
  | error
  | warn
  | info
  | debug
  | trace
  deriving DecidableEq, Repr

namespace Level

def rank : Level → Nat
  | error => 1
  | warn => 2
  | info => 3
  | debug => 4
  | trace => 5

def number (l : Level) : Nat := 10 * (6 - l.rank)

end Level

structure FilterRule where
  target : List Char
  rank : Nat

abbrev Filter := List FilterRule

namespace Filter

def rank? (s : String) : Option Nat :=
  let names : List (List String) :=
    [["off", "0"], ["error", "1"], ["warn", "2"], ["info", "3"], ["debug", "4"], ["trace", "5"]]
  names.findIdx? fun words => words.contains (String.ofList (s.toList.map Char.toLower))

def parts (separator : Char) (s : String) : List String :=
  (s.toList.splitOn separator).map String.ofList

/-- One rule: a level for every target, a target with its level, or a target that logs everything.
-/
def rule? (s : String) : Option FilterRule :=
  match parts '=' s with
  | [word] =>
    match rank? word with
    | some rank => some ⟨[], rank⟩
    | none => some ⟨word.toList, Level.trace.rank⟩
  | [target, word] => (rank? word).map fun rank => ⟨target.toList, rank⟩
  | _ => none

/-- The rules of a text, with commas between them. Without any, errors are let through. -/
def ofText (s : String) : Filter :=
  match ((parts ',' s).filter fun p => p ≠ "").filterMap rule? with
  | [] => [⟨[], Level.error.rank⟩]
  | rules => rules

/-- The rank of the longest rule for a target, the last one of that length; zero if none applies. -/
def rankOf (f : Filter) (target : String) : Nat :=
  let found := f.foldl
    (fun (best : Option FilterRule) r =>
      if r.target.isPrefixOf target.toList then
        match best with
        | some b => if b.target.length ≤ r.target.length then some r else best
        | none => some r
      else best)
    none
  (found.map FilterRule.rank).getD 0

def enables (f : Filter) (target : String) (level : Level) : Bool := level.rank ≤ f.rankOf target

end Filter

end SelectionTree
