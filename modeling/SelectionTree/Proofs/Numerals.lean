import Mathlib.Data.List.TakeWhile
import SelectionTree.Number
/-!
Numbers whose texts read back. The text of such a number is read back from the front of a longer
text too, as long as what follows it does not go on with the number.
-/
set_option autoImplicit false

namespace SelectionTree.Number

section Spans

variable {α : Type} {p : α → Bool} {xs ys : List α}

theorem takeWhile_append_of_stop (stop : ∀ y ∈ ys.head?, p y = false) :
    (xs ++ ys).takeWhile p = xs.takeWhile p := by
  have none : ys.takeWhile p = [] := by
    cases ys with
    | nil => rfl
    | cons y ys => simp [stop y rfl]
  induction xs with
  | nil => exact none
  | cons x xs ih => simp [List.takeWhile_cons, ih]

theorem dropWhile_append_of_stop (stop : ∀ y ∈ ys.head?, p y = false) :
    (xs ++ ys).dropWhile p = xs.dropWhile p ++ ys := by
  have all : ys.dropWhile p = ys := by
    cases ys with
    | nil => rfl
    | cons y ys => simp [stop y rfl]
  induction xs with
  | nil => exact all
  | cons x xs ih =>
    rw [List.cons_append, List.dropWhile_cons, List.dropWhile_cons, ih]
    split <;> rfl

end Spans

def Stops (tail : List Char) : Prop :=
  ∀ c ∈ tail.head?, c.isDigit = false ∧ c ≠ '.' ∧ c ≠ 'e' ∧ c ≠ 'E'

variable {cs rest tail : List Char} {t : Token} {n : Number}

theorem readWhole_append {ds : List Char} (stops : Stops tail)
    (h : readWhole cs = some (ds, rest)) : readWhole (cs ++ tail) = some (ds, rest ++ tail) := by
  cases cs with
  | nil => cases h
  | cons c cs =>
    have stop : ∀ c ∈ tail.head?, c.isDigit = false := fun c hc => (stops c hc).1
    simp only [readWhole, List.cons_append, takeWhile_append_of_stop stop,
      dropWhile_append_of_stop stop] at h ⊢
    split at h
    · next zero =>
      cases h
      rw [if_pos zero]
    · next other =>
      split at h
      · next digit =>
        cases h
        rw [if_neg other, if_pos digit]
      · cases h

theorem readFraction_append (stops : Stops tail) (cs : List Char) :
    readFraction (cs ++ tail) = ((readFraction cs).1, (readFraction cs).2 ++ tail) := by
  have stop : ∀ c ∈ tail.head?, c.isDigit = false := fun c hc => (stops c hc).1
  have other : ∀ c cs, c ≠ '.' → readFraction (c :: cs) = ([], c :: cs) := fun c cs h => by
    simp [readFraction, h]
  cases cs with
  | nil =>
    cases tail with
    | nil => rfl
    | cons c tail => exact other c tail (stops c rfl).2.1
  | cons c cs =>
    by_cases point : c = '.'
    · subst point
      simp only [List.cons_append, readFraction, takeWhile_append_of_stop stop,
        dropWhile_append_of_stop stop]
      cases cs.takeWhile Char.isDigit <;> rfl
    · rw [List.cons_append, other c _ point, other c _ point]
      rfl

theorem readExponent_append {e : Option (Bool × List Char)} (stops : Stops tail)
    (h : readExponent cs = (e, [])) : readExponent (cs ++ tail) = (e, tail) := by
  cases cs with
  | nil =>
    cases h
    cases tail with
    | nil => rfl
    | cons c tail => simp [readExponent, (stops c rfl).2.2.1, (stops c rfl).2.2.2]
  | cons c cs =>
    have stop : ∀ c ∈ tail.head?, c.isDigit = false := fun c hc => (stops c hc).1
    simp only [readExponent] at h
    split at h
    · next letter =>
      split at h
      · cases h
      · next found =>
        -- there are digits, so a sign in front of them is not the end of the text
        have sign : readSign (cs ++ tail) = ((readSign cs).1, (readSign cs).2 ++ tail) := by
          cases cs with
          | nil => simp [readSign] at found
          | cons d cs => unfold readSign; split <;> simp_all
        rw [List.cons_append, readExponent, if_pos letter, sign]
        simp only [takeWhile_append_of_stop stop, dropWhile_append_of_stop stop]
        obtain ⟨rfl, none⟩ := Prod.mk.inj h
        rw [none, List.nil_append]
    · cases h

def minus (cs : List Char) : Bool × List Char :=
  match cs with
  | '-' :: rest => (true, rest)
  | _ => (false, cs)

def Token.behind (negative : Bool) (whole cs : List Char) : Token × List Char :=
  (⟨negative, whole, (readFraction cs).1, (readExponent (readFraction cs).2).1⟩,
    (readExponent (readFraction cs).2).2)

theorem Token.read_eq (cs : List Char) :
    Token.read cs = (readWhole (minus cs).2).map fun w => Token.behind (minus cs).1 w.1 w.2 := by
  have e : Token.read cs
      = (readWhole (minus cs).2).bind fun w => some (Token.behind (minus cs).1 w.1 w.2) := rfl
  rw [e, Option.map_eq_bind]
  rfl

theorem minus_of_ne {c : Char} (h : c ≠ '-') : minus (c :: cs) = (false, c :: cs) := by
  simp [minus, h]

theorem minus_append (full : cs ≠ []) :
    minus (cs ++ tail) = ((minus cs).1, (minus cs).2 ++ tail) := by
  cases cs with
  | nil => exact absurd rfl full
  | cons c cs =>
    by_cases sign : c = '-'
    · subst sign
      rfl
    · rw [List.cons_append, minus_of_ne sign, minus_of_ne sign, List.cons_append]

/-- A token that takes up a whole text is read in front of other text. -/
theorem Token.read_append (stops : Stops tail) (h : Token.read cs = some (t, [])) :
    Token.read (cs ++ tail) = some (t, tail) := by
  have full : cs ≠ [] := by
    rintro rfl
    cases h
  rw [Token.read_eq, Option.map_eq_some_iff] at h
  obtain ⟨⟨whole, rest⟩, digits, h⟩ := h
  obtain ⟨rfl, none⟩ := Prod.mk.inj h
  have fraction := readFraction_append stops rest
  have exponent := readExponent_append stops
    (Prod.ext rfl none : readExponent (readFraction rest).2 = (_, []))
  rw [Token.read_eq, minus_append full]
  simp only [readWhole_append stops digits, Option.map_some, Token.behind, fraction, exponent]

def Opens (c : Char) : Prop := c = '-' ∨ c.isDigit = true

instance (c : Char) : Decidable (Opens c) := inferInstanceAs (Decidable (_ ∨ _))

theorem Opens.ne {c d : Char} (h : Opens c) (other : d ≠ '-' ∧ d.isDigit = false) : c ≠ d := by
  rintro rfl
  rcases h with sign | digit
  · exact other.1 sign
  · rw [other.2] at digit
    cases digit

theorem Token.head_of_read (h : Token.read cs = some (t, rest)) :
    ∃ c more, cs = c :: more ∧ Opens c := by
  rw [Token.read_eq, Option.map_eq_some_iff] at h
  obtain ⟨⟨whole, behind⟩, digits, -⟩ := h
  cases cs with
  | nil => cases digits
  | cons c cs =>
    refine ⟨c, cs, rfl, ?_⟩
    by_cases sign : c = '-'
    · exact Or.inl sign
    · rw [minus_of_ne sign] at digits
      refine Or.inr (Decidable.byContradiction fun other => ?_)
      have zero : c ≠ '0' := fun e => other (by rw [e]; rfl)
      simp [readWhole, zero, other] at digits

/-- The text of the number denotes the number. -/
def Readable (n : Number) : Prop := ofText? n.text = some n

instance (n : Number) : Decidable n.Readable := inferInstanceAs (Decidable (_ = _))

theorem readable_iff : n.Readable ↔ read n.chars = some (n, []) ∧ n.isFinite = true := by
  unfold Readable ofText? text
  rw [String.toList_ofList]
  split
  · next m found =>
    rw [found]
    constructor
    · intro h
      split at h
      · next finite =>
        cases h
        exact ⟨rfl, finite⟩
      · cases h
    · rintro ⟨h, finite⟩
      cases h
      rw [if_pos finite]
  · next other =>
    refine iff_of_false (fun h => by cases h) fun h => other n h.1

theorem Readable.read_append (h : n.Readable) (stops : Stops tail) :
    read (n.chars ++ tail) = some (n, tail) := by
  obtain ⟨⟨t, rest⟩, token, e⟩ := Option.map_eq_some_iff.mp (readable_iff.mp h).1
  obtain ⟨rfl, rfl⟩ := Prod.mk.inj e
  rw [read, Token.read_append stops token]
  exact congrArg (fun m => some (m, tail)) rfl

theorem Readable.head (h : n.Readable) : ∃ c more, n.chars = c :: more ∧ Opens c := by
  obtain ⟨⟨t, rest⟩, token, -⟩ := Option.map_eq_some_iff.mp (readable_iff.mp h).1
  exact Token.head_of_read token

end SelectionTree.Number
