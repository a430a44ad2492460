import SelectionTree.Grammar.Literal
import SelectionTree.Proofs.Numerals
/-!
Words of documents in front of other text: what each reader takes when its own word stands next, and
that it takes nothing when the next character starts no such word.
-/
set_option autoImplicit false

namespace SelectionTree.Grammar

variable {α β : Type} {p : Reader α} {c : Char} {cs rest tail : List Char}

theorem skip_blank (blank : isBlank c = true) (cs : List Char) : skip (c :: cs) = skip cs := by
  simp [skip, blank]

def Solid (c : Char) : Prop := isBlank c = false ∧ c ≠ '#'

instance (c : Char) : Decidable (Solid c) := inferInstanceAs (Decidable (_ ∧ _))

theorem skip_solid (solid : Solid c) (cs : List Char) : skip (c :: cs) = c :: cs := by
  simp [skip, solid.1, solid.2]

theorem Solid.of_test (test : Char → Bool) (h : test c = true)
    (others : [' ', ',', '\t', '\ufeff', '\n', '\r', '#'].any test = false) : Solid c := by
  have other : ∀ d ∈ [' ', ',', '\t', '\ufeff', '\n', '\r', '#'], c ≠ d := by
    rintro d hd rfl
    exact absurd h (List.any_eq_false.mp others c hd)
  simp only [List.forall_mem_cons] at other
  simp [Solid, isBlank, isNewline, other]

/-- The reader reads the same behind any blanks. -/
def Lenient (p : Reader α) : Prop := ∀ c cs, isBlank c = true → p (c :: cs) = p cs

theorem Lenient.behind (lenient : Lenient p) {gap : List Char} (blank : ∀ c ∈ gap, isBlank c = true)
    (cs : List Char) : p (gap ++ cs) = p cs := by
  induction gap with
  | nil => rfl
  | cons c gap ih =>
    rw [List.cons_append, lenient c _ (blank c List.mem_cons_self),
      ih fun d hd => blank d (List.mem_cons_of_mem c hd)]

theorem after_word (w : String) {ws : List Char} (hw : w.toList = c :: ws) (solid : Solid c)
    (tail : List Char) : after w (c :: ws ++ tail) = some tail := by
  rw [after, List.cons_append, skip_solid solid, ← List.cons_append, hw, Reader.after_append]

theorem after_none (w : String) {d : Char} {ds : List Char} (hw : w.toList = d :: ds)
    (next : skip cs = c :: rest) (other : c ≠ d) : after w cs = none := by
  simp [after, next, hw, Reader.after, other.symm]

theorem solid_of_isNameStart (start : isNameStart c = true) : Solid c :=
  .of_test isNameStart start (by decide)

theorem ne_of_isNameStart {d : Char} (start : isNameStart c = true)
    (other : isNameStart d = false) : c ≠ d := by
  rintro rfl
  rw [start] at other
  cases other

def isName (s : String) : Bool :=
  match s.toList with
  | [] => false
  | c :: more => isNameStart c && more.all isNameChar

/-- A text that does not go on with a name before it. -/
def Parted (tail : List Char) : Prop := ∀ c ∈ tail.head?, isNameChar c = false

theorem head_of_isName {s : String} (h : isName s = true) :
    ∃ c more, s.toList = c :: more ∧ isNameStart c = true ∧ ∀ d ∈ more, isNameChar d = true := by
  unfold isName at h
  split at h
  · cases h
  · next c more e =>
    rw [Bool.and_eq_true, List.all_eq_true] at h
    exact ⟨c, more, e, h⟩

theorem name_text {s : String} (h : isName s = true) (parted : Parted tail) :
    name (s.toList ++ tail) = some (s, tail) := by
  obtain ⟨c, more, e, start, word⟩ := head_of_isName h
  have whole : s = String.ofList (c :: more) := by rw [← e, String.ofList_toList]
  rw [name, e, List.cons_append, skip_solid (solid_of_isNameStart start), nameHere, if_pos start,
    Number.takeWhile_append_of_stop parted, Number.dropWhile_append_of_stop parted,
    List.takeWhile_eq_self_iff.mpr word, List.dropWhile_eq_nil_iff.mpr word, whole]
  rfl

theorem name_none (next : skip cs = c :: rest) (other : isNameStart c = false) :
    name cs = none := by
  simp [name, next, nameHere, other]

theorem solid_of_opens (opens : Number.Opens c) : Solid c := by
  refine .of_test (fun c => c = '-' || c.isDigit) ?_ (by decide)
  simpa [Number.Opens] using opens

theorem number_chars {n : Number} (h : n.Readable) (stops : Number.Stops tail)
    (parted : Parted tail) : number (n.chars ++ tail) = some (n, tail) := by
  obtain ⟨c, more, e, opens⟩ := h.head
  have read := h.read_append stops
  rw [e, List.cons_append] at read
  rw [number, e, List.cons_append, skip_solid (solid_of_opens opens), read]
  cases tail with
  | nil => rfl
  | cons d tail =>
    have other : isNameStart d = false := by
      have none := parted d rfl
      simp only [isNameChar, isNameStart, Bool.or_eq_false_iff] at none ⊢
      exact ⟨none.1.1, none.2⟩
    simp [other]

theorem number_none (next : skip cs = c :: rest) (other : ¬ Number.Opens c) : number cs = none := by
  have unread : Number.read (c :: rest) = none := by
    rw [Number.read, Option.map_eq_none_iff]
    cases read : Number.Token.read (c :: rest) with
    | none => rfl
    | some found =>
      obtain ⟨d, more, e, opens⟩ := Number.Token.head_of_read read
      cases e
      exact absurd opens other
  rw [number, next, unread]
  rfl

/-- A character that is written in a string with a meaning in the query language: not a control
character, unless it has a letter of its own. -/
def Printable (c : Char) : Prop := Value.isControl c = true → c = '\n' ∨ c = '\r' ∨ c = '\t'

instance (c : Char) : Decidable (Printable c) := inferInstanceAs (Decidable (_ → _))

theorem stringChar_escape (printable : Printable c) (tail : List Char) :
    stringChar (Value.escape c ++ tail) = some (c, tail) := by
  unfold Value.escape
  split
  · next e => subst e; rfl
  split
  · next e => subst e; rfl
  split
  · next e => subst e; rfl
  split
  · next e => subst e; rfl
  split
  · next e => subst e; rfl
  split
  · next return' newline tab _ _ control =>
    -- The printable control characters have letters, and those cases came before.
    rcases printable control with rfl | rfl | rfl
    · exact absurd rfl newline
    · exact absurd rfl return'
    · exact absurd rfl tab
  · next return' newline _ quote backslash _ =>
    simp [stringChar, isNewline, return', newline, quote, backslash]

theorem head_escape (c : Char) : ∃ d more, Value.escape c = d :: more ∧ d ≠ '"' := by
  unfold Value.escape
  split_ifs with _ _ _ _ _ _
  all_goals exact ⟨_, _, rfl, by first | decide | assumption⟩

theorem blockHere_quoted (s : String) (other : ∀ c ∈ tail.head?, c ≠ '"') :
    blockHere (Value.quoted s ++ tail) = none := by
  have unopened : Reader.after ['"', '"', '"'] (Value.quoted s ++ tail) = none := by
    rw [Value.quoted]
    cases s.toList with
    | nil =>
      -- Two quotes alone; what follows must not make three of them.
      cases tail with
      | nil => rfl
      | cons d tail => simp [Reader.after, (other d rfl).symm]
    | cons c cs =>
      obtain ⟨d, more, e, quote⟩ := head_escape c
      simp [e, Reader.after, quote.symm]
  simp [blockHere, unopened]

theorem string_quoted {s : String} (printable : ∀ c ∈ s.toList, Printable c)
    (other : ∀ c ∈ tail.head?, c ≠ '"') : string (Value.quoted s ++ tail) = some (s, tail) := by
  have chars : Reader.many stringChar (s.toList.flatMap Value.escape ++ '"' :: tail)
      = (s.toList.map id, '"' :: tail) :=
    Reader.many_flatMap (fun _ => True) (fun c hc tail _ => stringChar_escape (printable c hc) tail)
      (fun _ _ _ => trivial) trivial rfl fun c _ => by
        obtain ⟨_, _, e, -⟩ := head_escape c
        simp [e]
  have quoted : quotedHere (Value.quoted s ++ tail) = some (s, tail) := by
    simp [quotedHere, Value.quoted, Reader.after, chars]
  have solid : skip (Value.quoted s ++ tail) = Value.quoted s ++ tail := skip_solid (by decide) _
  rw [string, solid, Reader.orElse, blockHere_quoted s other, quoted]
  rfl

theorem string_none (next : skip cs = c :: rest) (other : c ≠ '"') : string cs = none := by
  simp [string, next, Reader.orElse, blockHere, quotedHere, Reader.after, other.symm]

end SelectionTree.Grammar
