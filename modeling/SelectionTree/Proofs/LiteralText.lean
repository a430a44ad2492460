import SelectionTree.Grammar.Query
import SelectionTree.Node.Text
import SelectionTree.Proofs.Contents
import SelectionTree.Proofs.Lexemes
import SelectionTree.Proofs.Rebuilding
/-!
Values that are read back from their text as literals, and arguments that hold them.
-/
set_option autoImplicit false

namespace SelectionTree

namespace Value

/-- A value whose text is a literal: no enum value, no bytes, numbers and strings that can be read,
and an object holds each of its keys once, all of them names. -/
def Written : Value → Prop
  | .enum _ => False
  | .bin _ => False
  | .num n => n.Readable
  | .str s => ∀ c ∈ s.toList, Grammar.Printable c
  | .obj fields => (Dict.keys fields).Nodup ∧ ∀ k ∈ Dict.keys fields, Grammar.isName k = true
  | .null => True
  | .bool _ => True
  | .list _ => True

instance : DecidablePred Written
  | .enum _ => .isFalse id
  | .bin _ => .isFalse id
  | .num n => inferInstanceAs (Decidable n.Readable)
  | .str s => List.decidableBAll Grammar.Printable s.toList
  | .obj fields =>
    inferInstanceAs
      (Decidable ((Dict.keys fields).Nodup ∧ ∀ k ∈ Dict.keys fields, Grammar.isName k = true))
  | .null => .isTrue trivial
  | .bool _ => .isTrue trivial
  | .list _ => .isTrue trivial

theorem literalItems_eq (items : List Value) : literalItems items = items.map literal := by
  induction items with
  | nil => rfl
  | cons v rest ih => rw [literalItems, ih, List.map_cons]

theorem literalFields_eq (fields : List (String × Value)) :
    literalFields fields = Dict.mapValues literal fields := by
  induction fields with
  | nil => rfl
  | cons e rest ih => rw [literalFields, ih]; rfl

theorem isFinite_literal (v : Value) (written : v.All Written) : v.literal.isFinite = true := by
  induction v using Value.induction with
  | null => rfl
  | bool b => rfl
  | num n => exact (Number.readable_iff.mp written.here).2
  | str s => rfl
  | enum name => rfl
  | bin bytes => rfl
  | list items ih =>
    rw [literal, Literal.isFinite, literalItems_eq, Literal.finiteItems_iff, List.forall_mem_map]
    exact fun v hv => ih v hv ((all_list.mp written).2 v hv)
  | obj fields ih =>
    rw [literal, Literal.isFinite, literalFields_eq, Literal.finiteFields_iff, Dict.mapValues,
      List.forall_mem_map]
    exact fun e he => ih e he ((all_obj.mp written).2 e he)

theorem settledFields_literalFields {fields : List (String × Value)}
    (each : ∀ e ∈ fields, e.2.literal.settled = e.2.literal) :
    Literal.settledFields (literalFields fields) = literalFields fields := by
  simp only [Literal.settledFields_eq, literalFields_eq, Dict.mapValues, List.map_map]
  exact List.map_congr_left fun e he => Prod.ext rfl (each e he)

theorem settled_literal (v : Value) (written : v.All Written) : v.literal.settled = v.literal := by
  induction v using Value.induction with
  | null => rfl
  | bool b => rfl
  | num n => rfl
  | str s => rfl
  | enum name => rfl
  | bin bytes => rfl
  | list items ih =>
    rw [literal, Literal.settled, Literal.settledItems_eq, literalItems_eq, List.map_map]
    exact congrArg _ (List.map_congr_left fun v hv => ih v hv ((all_list.mp written).2 v hv))
  | obj fields ih =>
    have each : ∀ e ∈ fields, e.2.literal.settled = e.2.literal := fun e he =>
      ih e he ((all_obj.mp written).2 e he)
    have once : (Dict.keys (literalFields fields)).Nodup := by
      rw [literalFields_eq, Dict.keys_mapValues]
      exact written.here.1
    rw [literal, Literal.settled, settledFields_literalFields each, Dict.ofList_of_nodup once]

end Value

namespace Grammar

variable {α β : Type} {p : Reader β} {c : Char} {cs rest tail : List Char}

theorem lenient_name : Lenient name := fun c cs blank => by simp only [name, skip_blank blank]

theorem lenient_entry : Lenient (entry p) := fun c cs blank => by
  simp only [entry, lenient_name c cs blank]

theorem lenient_between {opening closing : String} : Lenient (between opening closing p) :=
  fun c cs blank => by simp only [between, after, skip_blank blank]

theorem lenient_literalWithin (constant : Bool) (fuel : Nat) :
    Lenient (literalWithin constant fuel) := by
  intro c cs blank
  cases fuel with
  | zero => rfl
  | succ fuel =>
    simp only [literalWithin, Reader.map, variableName, number, string, word, between, after, name,
      skip_blank blank]

theorem intercalate_cons (sep x : List Char) (xs : List (List Char)) :
    sep.intercalate (x :: xs) = x ++ xs.flatMap (sep ++ ·) := by
  induction xs generalizing x with
  | nil => simp
  | cons y ys ih => simp [List.intercalate_cons_cons, ih y]

theorem many_row (lead : List Char) {sep : List Char} {write : α → List Char} {value : α → β}
    {x : α} {xs : List α} (ends : List Char → Prop) (lenient : Lenient p)
    (blank : ∀ c ∈ lead ++ sep, isBlank c = true) (written : ∀ y ∈ x :: xs, write y ≠ [])
    (item : ∀ y ∈ x :: xs, ∀ tail, ends tail → p (write y ++ tail) = some (value y, tail))
    (starts : ∀ y ∈ xs, ∀ tail, ends (sep ++ (write y ++ tail))) (last : ends rest)
    (stop : p rest = none) :
    Reader.many p (lead ++ sep.intercalate ((x :: xs).map write) ++ rest)
      = ((x :: xs).map value, rest) := by
  rw [List.forall_mem_append] at blank
  rw [List.map_cons, intercalate_cons, List.flatMap_map, ← List.append_assoc, List.append_assoc]
  refine Reader.many_cons_flatMap ends (fun tail e => ?_) (fun y hy tail e => ?_)
    (fun y hy tail => ?_) last stop (fun y hy => ?_) ?_
  · rw [List.append_assoc, lenient.behind blank.1]
    exact item x List.mem_cons_self tail e
  · rw [List.append_assoc, lenient.behind blank.2]
    exact item y (List.mem_cons_of_mem x hy) tail e
  · rw [List.append_assoc]
    exact starts y hy tail
  · exact List.append_ne_nil_of_right_ne_nil _ (written y (List.mem_cons_of_mem x hy))
  · exact List.append_ne_nil_of_right_ne_nil _ (written x List.mem_cons_self)

theorem between_row (opening closing : String) {row : List Char} {xs : List β}
    (ho : opening.toList = [c]) (solid : Solid c) (read : Reader.many p row = (xs, rest))
    (closed : after closing rest = some tail) :
    between opening closing p (c :: row) = some (xs, tail) := by
  have opened : after opening (c :: row) = some row := after_word opening ho solid row
  simp [between, opened, read, closed]

theorem between_none (opening closing : String) {o : Char} (ho : opening.toList = [o])
    (next : skip cs = c :: rest) (other : c ≠ o) : between opening closing p cs = none := by
  simp [between, after_none opening ho next other]

theorem entry_text {k : String} {x : β} {text : List Char} (named : isName k = true)
    (read : p (' ' :: (text ++ tail)) = some (x, tail)) :
    entry p (k.toList ++ ':' :: ' ' :: text ++ tail) = some ((k, x), tail) := by
  have key : name (k.toList ++ (':' :: ' ' :: (text ++ tail)))
      = some (k, ':' :: ' ' :: (text ++ tail)) := name_text named (by simp [Parted]; decide)
  have colon : after ":" (':' :: ' ' :: (text ++ tail)) = some (' ' :: (text ++ tail)) :=
    after_word ":" rfl (by decide) _
  simp [entry, key, colon, read]

theorem entry_none (next : skip cs = c :: rest) (other : isNameStart c = false) :
    entry p cs = none := by
  simp [entry, name_none next other]

/-- What follows a literal: a comma or the mark that closes what the literal stands in. -/
def Closes (tail : List Char) : Prop :=
  ∃ c rest, tail = c :: rest ∧ (c = ',' ∨ c = ')' ∨ c = ']' ∨ c = '\x7d')

theorem Closes.head {P : Char → Prop} (closes : Closes tail)
    (h : P ',' ∧ P ')' ∧ P ']' ∧ P '\x7d') : ∀ c ∈ tail.head?, P c := by
  obtain ⟨c, rest, rfl, closing⟩ := closes
  intro d hd
  cases hd
  rcases closing with rfl | rfl | rfl | rfl
  exacts [h.1, h.2.1, h.2.2.1, h.2.2.2]

theorem Closes.stops (closes : Closes tail) : Number.Stops tail := closes.head (by decide)

theorem Closes.parted (closes : Closes tail) : Parted tail := closes.head (by decide)

theorem Closes.unquoted (closes : Closes tail) : ∀ c ∈ tail.head?, c ≠ '"' :=
  closes.head (by decide)

theorem literalWithin_word {fuel : Nat} (next : skip cs = c :: rest) (dollar : c ≠ '$')
    (number : ¬ Number.Opens c) (quote : c ≠ '"') :
    literalWithin false (fuel + 1) cs = (word "true" (Literal.bool true) cs
      <|> word "false" (Literal.bool false) cs
      <|> word "null" Literal.null cs
      <|> Reader.map Literal.enum name cs
      <|> Reader.map Literal.list (between "[" "]" (literalWithin false fuel)) cs
      <|> Reader.map Literal.obj
        (between "\x7b" "\x7d" (entry (literalWithin false fuel))) cs) := by
  simp [literalWithin, Reader.map, variableName, after_none "$" rfl next dollar,
    number_none next number, string_none next quote]

theorem literalWithin_container {fuel : Nat} (next : skip cs = c :: rest) (dollar : c ≠ '$')
    (number : ¬ Number.Opens c) (quote : c ≠ '"') (letter : isNameStart c = false) :
    literalWithin false (fuel + 1) cs =
      (Reader.map Literal.list (between "[" "]" (literalWithin false fuel)) cs
        <|> Reader.map Literal.obj
          (between "\x7b" "\x7d" (entry (literalWithin false fuel))) cs) := by
  have other (d : Char) (start : isNameStart d = true) : c ≠ d :=
    (ne_of_isNameStart start letter).symm
  have true' := after_none "true" rfl next (other 't' (by decide))
  have false' := after_none "false" rfl next (other 'f' (by decide))
  have null := after_none "null" rfl next (other 'n' (by decide))
  rw [literalWithin_word next dollar number quote]
  simp [Reader.map, word, true', false', null, name_none next letter]

theorem literalWithin_closing {fuel : Nat} (next : skip cs = c :: rest)
    (closing : c = ')' ∨ c = ']' ∨ c = '\x7d') : literalWithin false fuel cs = none := by
  cases fuel with
  | zero => rfl
  | succ fuel =>
    have other : c ≠ '$' ∧ ¬ Number.Opens c ∧ c ≠ '"' ∧ isNameStart c = false ∧ c ≠ '[' ∧
        c ≠ '\x7b' := by
      rcases closing with rfl | rfl | rfl <;> decide
    obtain ⟨dollar, number, quote, letter, bracket, brace⟩ := other
    rw [literalWithin_container next dollar number quote letter]
    simp [Reader.map, between_none "[" "]" rfl next bracket,
      between_none "\x7b" "\x7d" rfl next brace]

theorem chars_ne_nil {v : Value} (written : v.Written) : v.chars ≠ [] := by
  cases v with
  | num n =>
    obtain ⟨c, more, e, -⟩ := Number.Readable.head written
    simp [Value.chars, e]
  | bool b => cases b <;> simp [Value.chars]
  | enum name => exact written.elim
  | null => simp [Value.chars]
  | str s => simp [Value.chars, Value.quoted]
  | bin bytes => simp [Value.chars]
  | list items => simp [Value.chars]
  | obj fields => simp [Value.chars]

theorem length_le_intercalate (sep : List Char) {x : List Char} {xs : List (List Char)}
    (h : x ∈ xs) : x.length ≤ (sep.intercalate xs).length := by
  cases xs with
  | nil => cases h
  | cons y ys =>
    rw [intercalate_cons, List.length_append]
    rcases List.mem_cons.mp h with rfl | h
    · omega
    · have within := Reader.length_le_of_mem (sep ++ ·) h
      rw [List.length_append] at within
      omega

/-- Items between commas and two marks are read back, if each is read in front of the end of a
literal. -/
theorem between_intercalate (opening closing : String) {o : Char} (sep : List Char)
    {write : α → List Char} {value : α → β} {xs : List α} (ho : opening.toList = [o])
    (hc : closing.toList = [c]) (solid : Solid o ∧ Solid c)
    (closing' : c = ')' ∨ c = ']' ∨ c = '\x7d')
    (comma : ∃ more, sep = ',' :: more ∧ ∀ d ∈ more, isBlank d = true) (lenient : Lenient p)
    (stop : p (c :: tail) = none) (written : ∀ x ∈ xs, write x ≠ [])
    (item : ∀ x ∈ xs, ∀ tail, Closes tail → p (write x ++ tail) = some (value x, tail)) :
    between opening closing p (o :: (sep.intercalate (xs.map write) ++ c :: tail))
      = some (xs.map value, tail) := by
  obtain ⟨more, rfl, blank⟩ := comma
  refine between_row opening closing ho solid.1 ?_ (after_word closing hc solid.2 tail)
  cases xs with
  | nil => exact Reader.many_of_none stop
  | cons x xs =>
    refine many_row [] Closes lenient ?_ written item (fun y _ tail => ?_) ?_ stop
    · simpa [isBlank] using blank
    · exact ⟨_, _, rfl, Or.inl rfl⟩
    · exact ⟨c, tail, rfl, Or.inr closing'⟩

def entryChars (e : String × Value) : List Char := e.1.toList ++ ':' :: ' ' :: e.2.chars

theorem between_entries (opening closing : String) {o : Char} (sep : List Char)
    {q : Reader Literal} {fields : List (String × Value)} (ho : opening.toList = [o])
    (hc : closing.toList = [c]) (solid : Solid o ∧ Solid c)
    (closing' : c = ')' ∨ c = ']' ∨ c = '\x7d')
    (comma : ∃ more, sep = ',' :: more ∧ ∀ d ∈ more, isBlank d = true)
    (names : ∀ k ∈ Dict.keys fields, isName k = true)
    (read : ∀ e ∈ fields, ∀ tail, Closes tail →
      q (' ' :: (e.2.chars ++ tail)) = some (e.2.literal, tail)) (tail : List Char) :
    between opening closing (entry q) (o :: (sep.intercalate (fields.map entryChars) ++ c :: tail))
      = some (Value.literalFields fields, tail) := by
  have letter : isNameStart c = false := by rcases closing' with rfl | rfl | rfl <;> decide
  rw [Dict.keys, List.forall_mem_map] at names
  rw [Value.literalFields_eq]
  refine between_intercalate opening closing sep ho hc solid closing' comma lenient_entry
    (entry_none (skip_solid solid.2 tail) letter) (fun _ _ => by simp [entryChars]) ?_
  exact fun e he tail closes => entry_text (names e he) (read e he tail closes)

theorem chars_list (items : List Value) :
    (Value.list items).chars = '[' :: ([','].intercalate (items.map Value.chars) ++ [']']) := by
  rw [Value.chars, Value.itemChars_eq, Value.joinComma_eq, List.cons_append]

theorem chars_obj (fields : List (String × Value)) : (Value.obj fields).chars
    = '\x7b' :: ([','].intercalate (fields.map entryChars) ++ ['\x7d']) := by
  rw [Value.chars, Value.fieldChars_eq, Value.joinComma_eq, List.cons_append]
  rfl

/-- A value is read back as its literal, from the front of a text that ends the literal. -/
theorem literalWithin_chars (v : Value) (written : v.All Value.Written) {fuel : Nat}
    {tail : List Char} (room : v.chars.length < fuel) (closes : Closes tail) :
    literalWithin false fuel (v.chars ++ tail) = some (v.literal, tail) := by
  -- The first character of a value decides: the readers that come before its own all fail on it.
  induction v using Value.induction generalizing fuel tail with
  | null =>
    obtain ⟨fuel, rfl⟩ : ∃ f, fuel = f + 1 := ⟨fuel - 1, by omega⟩
    rfl
  | bool b =>
    obtain ⟨fuel, rfl⟩ : ∃ f, fuel = f + 1 := ⟨fuel - 1, by omega⟩
    cases b <;> rfl
  | num n =>
    obtain ⟨fuel, rfl⟩ : ∃ f, fuel = f + 1 := ⟨fuel - 1, by omega⟩
    have read := number_chars written.here closes.stops closes.parted
    obtain ⟨c, more, e, opens⟩ := Number.Readable.head written.here
    have next : skip (n.chars ++ tail) = c :: (more ++ tail) := by
      rw [e]
      exact skip_solid (solid_of_opens opens) _
    simp [literalWithin, Reader.map, variableName,
      after_none "$" rfl next (opens.ne (by decide)), Value.chars, Value.literal, read]
  | str s =>
    obtain ⟨fuel, rfl⟩ : ∃ f, fuel = f + 1 := ⟨fuel - 1, by omega⟩
    have read := string_quoted written.here closes.unquoted
    have next : skip (Value.quoted s ++ tail) = '"' :: _ := skip_solid (by decide) _
    simp [literalWithin, Reader.map, variableName, after_none "$" rfl next (by decide),
      number_none next (by decide), Value.chars, Value.literal, read]
  | enum name => exact written.here.elim
  | bin bytes => exact written.here.elim
  | list items ih =>
    obtain ⟨fuel, rfl⟩ : ∃ f, fuel = f + 1 := ⟨fuel - 1, by omega⟩
    obtain ⟨-, each⟩ := Value.all_list.mp written
    rw [chars_list, List.length_cons, List.length_append] at room
    have stop : literalWithin false fuel (']' :: tail) = none :=
      literalWithin_closing (skip_solid (by decide) tail) (by simp)
    have item : ∀ v ∈ items, ∀ tail, Closes tail →
        literalWithin false fuel (v.chars ++ tail) = some (v.literal, tail) := by
      intro v hv tail closes
      have within := length_le_intercalate [','] (List.mem_map_of_mem (f := Value.chars) hv)
      exact ih v hv (each v hv) (by omega) closes
    have read := between_intercalate "[" "]" (o := '[') (c := ']') [','] rfl rfl (by decide)
      (by simp) ⟨[], rfl, by simp⟩ (lenient_literalWithin false fuel) stop
      (fun v hv => chars_ne_nil (each v hv).here) item
    rw [chars_list, List.cons_append, List.append_assoc, List.singleton_append,
      literalWithin_container (skip_solid (by decide) _) (by decide) (by decide) (by decide)
        (by decide)]
    simp [Reader.map, read, Value.literal, Value.literalItems_eq]
  | obj fields ih =>
    obtain ⟨fuel, rfl⟩ : ∃ f, fuel = f + 1 := ⟨fuel - 1, by omega⟩
    obtain ⟨⟨-, names⟩, each⟩ := Value.all_obj.mp written
    rw [chars_obj, List.length_cons, List.length_append] at room
    have value : ∀ e ∈ fields, ∀ tail, Closes tail →
        literalWithin false fuel (' ' :: (e.2.chars ++ tail)) = some (e.2.literal, tail) := by
      intro e he tail closes
      have within := length_le_intercalate [','] (List.mem_map_of_mem (f := entryChars) he)
      simp only [entryChars, List.length_append, List.length_cons] at within
      rw [lenient_literalWithin false fuel _ _ (by decide)]
      exact ih e he (each e he) (by omega) closes
    have read := between_entries "\x7b" "\x7d" (o := '\x7b') (c := '\x7d') [','] rfl rfl
      (by decide) (by simp) ⟨[], rfl, by simp⟩ names value tail
    have next := skip_solid (c := '\x7b') (by decide)
      ([','].intercalate (fields.map entryChars) ++ '\x7d' :: tail)
    have list := between_none "[" "]" (p := literalWithin false fuel) rfl next (by decide)
    rw [chars_obj, List.cons_append, List.append_assoc, List.singleton_append,
      literalWithin_container next (by decide) (by decide) (by decide) (by decide)]
    simp [Reader.map, list, read, Value.literal]

variable {args : Arguments}

theorem arguments_chars (full : args ≠ []) (written : (Value.obj args).All Value.Written)
    (tail : List Char) :
    arguments false (args.chars ++ tail) = some (Value.literalFields args, tail) := by
  obtain ⟨⟨-, names⟩, each⟩ := Value.all_obj.mp written
  have value : ∀ e ∈ args, ∀ tail, Closes tail →
      literal false (' ' :: (e.2.chars ++ tail)) = some (e.2.literal, tail) := by
    intro e he tail closes
    rw [literal, lenient_literalWithin false _ _ _ (by decide)]
    refine literalWithin_chars e.2 (each e he) ?_ closes
    simp only [List.length_cons, List.length_append]
    omega
  have read := between_entries "(" ")" (o := '(') (c := ')') [',', ' '] rfl rfl (by decide)
    (by simp) ⟨[' '], rfl, by simp [isBlank]⟩ names value tail
  have text : args.chars ++ tail
      = '(' :: ([',', ' '].intercalate (args.map entryChars) ++ ')' :: tail) := by
    rw [Arguments.chars, joinSpaced_eq, List.cons_append, List.cons_append, List.append_assoc]
    rfl
  rw [text, arguments, between1, read]
  simp [full, Value.literalFields_eq, Dict.mapValues]

theorem queryArguments_chars (full : args ≠ []) (written : (Value.obj args).All Value.Written)
    (tail : List Char) :
    queryArguments (args.chars ++ tail) = some (Value.literalFields args, tail) := by
  obtain ⟨-, each⟩ := Value.all_obj.mp written
  have finite : Literal.finiteFields (Value.literalFields args) = true := by
    rw [Value.literalFields_eq, Literal.finiteFields_iff, Dict.mapValues, List.forall_mem_map]
    exact fun e he => Value.isFinite_literal e.2 (each e he)
  have settled : Literal.settledFields (Value.literalFields args) = Value.literalFields args :=
    Value.settledFields_literalFields fun e he => Value.settled_literal e.2 (each e he)
  simp [queryArguments, arguments_chars full written tail, finite, settled]

end Grammar

end SelectionTree
