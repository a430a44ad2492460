import SelectionTree.Json.Reading
import SelectionTree.Proofs.Numerals
/-!
JSON that is read back from its text. Every value whose numbers read back does so: strings with all
their escapes, names and members in order, containers at any depth.
-/
set_option autoImplicit false

namespace SelectionTree.Json

theorem hexValue?_hexDigit {n : Nat} (h : n < 16) : Escape.hexValue? (hexDigit n) = some n := by
  have all : ∀ m < 16, Escape.hexValue? (hexDigit m) = some m := by decide
  exact all n h

theorem unitChar_control {n : Nat} (h : n < 32) (tail : List Char) :
    unitChar ('0' :: '0' :: hexDigit (n / 16) :: hexDigit (n % 16) :: tail)
      = some (some (Char.ofNat n), tail) := by
  have high := hexValue?_hexDigit (show n / 16 < 16 by omega)
  have low := hexValue?_hexDigit (show n % 16 < 16 by omega)
  have zero : Escape.hexValue? '0' = some 0 := by decide
  have value : n / 16 * 16 + n % 16 = n := by omega
  have leading : isLeading n = false := by simp [isLeading]; omega
  have trailing : isTrailing n = false := by simp [isTrailing]; omega
  simp [unitChar, Escape.unit, zero, high, low, value, leading, trailing]

theorem stringPiece_escape (c : Char) (tail : List Char) :
    stringPiece (escape c ++ tail) = some (some c, tail) := by
  unfold escape
  split
  · next e => subst e; rfl
  split
  · next e => subst e; rfl
  split
  · next e => subst e; rfl
  split
  · next e => subst e; rfl
  split
  · next e => subst e; rfl
  split
  · next e => subst e; rfl
  split
  · next e => subst e; rfl
  split
  · next control =>
    have read := unitChar_control control tail
    rw [Char.ofNat_toNat] at read
    exact read
  · next quote backslash _ _ _ _ _ control =>
    simp [stringPiece, quote, backslash, control]

theorem escape_ne_nil (c : Char) : escape c ≠ [] := by
  intro none
  have read := stringPiece_escape c []
  rw [none] at read
  cases read

theorem mapM_id_some {α : Type} (xs : List α) : (xs.map some).mapM id = some xs := by
  induction xs with
  | nil => rfl
  | cons x xs ih => simp [ih]

theorem string_quoted (s : String) (tail : List Char) :
    string (quoted s ++ tail) = some (some s, tail) := by
  have pieces : Reader.many stringPiece (s.toList.flatMap escape ++ '"' :: tail)
      = (s.toList.map some, '"' :: tail) :=
    Reader.many_flatMap (fun _ => True) (fun c _ tail _ => stringPiece_escape c tail)
      (fun _ _ _ => trivial) trivial rfl fun c _ => escape_ne_nil c
  simp only [quoted, string, List.cons_append, List.append_assoc, List.nil_append, pieces,
    mapM_id_some, Option.map_some, String.ofList_toList]

/-- What follows a value: a comma or the mark that closes its container, or nothing. -/
def Ends (tail : List Char) : Prop := ∀ c ∈ tail.head?, c = ',' ∨ c = ']' ∨ c = '\x7d'

theorem Ends.stops {tail : List Char} (h : Ends tail) : Number.Stops tail := by
  intro c hc
  rcases h c hc with rfl | rfl | rfl <;> decide

/-- A written form that a reader of items does not take for a blank or for the end. -/
def Starts (close : Char) (cs : List Char) : Prop :=
  ∃ c rest, cs = c :: rest ∧ isBlank c = false ∧ c ≠ close

theorem skip_of_not_blank {c : Char} (rest : List Char) (h : isBlank c = false) :
    skip (c :: rest) = c :: rest := by
  simp [skip, h]

/-- Items with commas between them are read back, if each is read in front of what follows. -/
theorem items_row {α β : Type} {item : Reader β} {write : α → List Char} {value : α → β}
    {close : Char} (closes : close = ']' ∨ close = '\x7d') {x : α} {rest : List α}
    (starts : Starts close (write x))
    (each : ∀ y ∈ x :: rest, ∀ tail, Ends tail → item (write y ++ tail) = some (value y, tail))
    (tail : List Char) :
    items item close (write x ++ (rest.flatMap (fun y => ',' :: write y) ++ close :: tail))
      = some ((x :: rest).map value, tail) := by
  have ends : Ends (close :: tail) := fun c hc => by
    cases hc
    exact Or.inr closes
  have solid : isBlank close = false := by rcases closes with rfl | rfl <;> decide
  have other : close ≠ ',' := by rcases closes with rfl | rfl <;> decide
  have comma (cs : List Char) : Ends (',' :: cs) := fun c hc => by
    cases hc
    exact Or.inl rfl
  have skipped (cs : List Char) : skip (',' :: cs) = ',' :: cs := skip_of_not_blank cs (by decide)
  -- What follows an item is the comma of the next one or the closing mark.
  have more : Reader.many (fun cs => (Reader.after [','] (skip cs)).bind item)
      (rest.flatMap (fun y => ',' :: write y) ++ close :: tail)
        = (rest.map value, close :: tail) := by
    refine Reader.many_flatMap Ends (fun y hy tail ends => ?_) (fun y _ tail => comma _)
      ends ?_ (by simp)
    · simp [skipped, Reader.after, each y (List.mem_cons_of_mem x hy) tail ends]
    · simp [skip_of_not_blank tail solid, Reader.after, other.symm]
  have behind : Ends (rest.flatMap (fun y => ',' :: write y) ++ close :: tail) :=
    Reader.ends_flatMap Ends (fun y _ tail => comma (write y ++ tail)) ends
  have first := each x List.mem_cons_self _ behind
  obtain ⟨c, cs, e, blank, open'⟩ := starts
  rw [e] at first ⊢
  simp only [items, List.cons_append, skip_of_not_blank _ blank, if_neg open'] at first ⊢
  simp [first, more, skip_of_not_blank tail solid, Reader.after]

@[elab_as_elim]
theorem induction {motive : Json → Prop} (null : motive .null) (bool : ∀ b, motive (.bool b))
    (num : ∀ n, motive (.num n)) (str : ∀ s, motive (.str s))
    (arr : ∀ items, (∀ j ∈ items, motive j) → motive (.arr items))
    (obj : ∀ members, (∀ m ∈ members, motive m.2) → motive (.obj members)) : ∀ j, motive j
  | .null => null
  | .bool b => bool b
  | .num n => num n
  | .str s => str s
  | .arr items => arr items fun j _ => induction null bool num str arr obj j
  | .obj members => obj members fun m _ => induction null bool num str arr obj m.2
termination_by j => sizeOf j
decreasing_by
  · have := List.sizeOf_lt_of_mem ‹j ∈ items›
    simp only [Json.arr.sizeOf_spec]
    omega
  · have := List.sizeOf_lt_of_mem ‹m ∈ members›
    have : sizeOf m = 1 + sizeOf m.1 + sizeOf m.2 := rfl
    simp only [Json.obj.sizeOf_spec]
    omega

mutual

def outline : Json → Outline
  | .arr items => .arr (itemOutlines items)
  | .obj members => .obj (memberOutlines members)
  | .null => .leaf (some .null)
  | .bool b => .leaf (some (.bool b))
  | .num n => .leaf (some (.num n))
  | .str s => .leaf (some (.str s))

def itemOutlines : List Json → List Outline
  | [] => []
  | j :: rest => j.outline :: itemOutlines rest

def memberOutlines : List (String × Json) → List (String × Outline)
  | [] => []
  | (k, j) :: rest => (k, j.outline) :: memberOutlines rest

end

mutual

def numbers : Json → List Number
  | .num n => [n]
  | .arr items => itemNumbers items
  | .obj members => memberNumbers members
  | .null => []
  | .bool _ => []
  | .str _ => []

def itemNumbers : List Json → List Number
  | [] => []
  | j :: rest => j.numbers ++ itemNumbers rest

def memberNumbers : List (String × Json) → List Number
  | [] => []
  | (_, j) :: rest => j.numbers ++ memberNumbers rest

end

def memberText (m : String × Json) : List Char := quoted m.1 ++ ':' :: m.2.chars

theorem itemOutlines_eq (items : List Json) : itemOutlines items = items.map outline := by
  induction items with
  | nil => rfl
  | cons j rest ih => rw [itemOutlines, ih, List.map_cons]

theorem memberOutlines_eq (members : List (String × Json)) :
    memberOutlines members = members.map fun m => (m.1, m.2.outline) := by
  induction members with
  | nil => rfl
  | cons m rest ih => rw [memberOutlines, ih, List.map_cons]

theorem itemNumbers_eq (items : List Json) : itemNumbers items = items.flatMap numbers := by
  induction items with
  | nil => rfl
  | cons j rest ih => rw [itemNumbers, ih, List.flatMap_cons]

theorem memberNumbers_eq (members : List (String × Json)) :
    memberNumbers members = members.flatMap fun m => m.2.numbers := by
  induction members with
  | nil => rfl
  | cons m rest ih => rw [memberNumbers, ih, List.flatMap_cons]

theorem itemChars_eq (items : List Json) :
    itemChars items = items.flatMap fun j => ',' :: j.chars := by
  induction items with
  | nil => rfl
  | cons j rest ih => rw [itemChars, ih, List.flatMap_cons]

theorem memberChars_eq (members : List (String × Json)) :
    memberChars members = members.flatMap fun m => ',' :: memberText m := by
  induction members with
  | nil => rfl
  | cons m rest ih => simp [memberChars, ih, memberText]

theorem head_chars (j : Json) (readable : ∀ n ∈ j.numbers, n.Readable) :
    ∃ c cs, j.chars = c :: cs ∧ isBlank c = false ∧ c ≠ ']' ∧ c ≠ '\x7d' := by
  cases j with
  | null => exact ⟨_, _, rfl, by decide, by decide, by decide⟩
  | bool b => cases b <;> exact ⟨_, _, rfl, by decide, by decide, by decide⟩
  | num n =>
    obtain ⟨c, cs, e, opens⟩ := (readable n (by simp [numbers])).head
    refine ⟨c, cs, e, ?_, opens.ne (by decide), opens.ne (by decide)⟩
    simp [isBlank, opens.ne (show ' ' ≠ '-' ∧ _ by decide),
      opens.ne (show '\t' ≠ '-' ∧ _ by decide), opens.ne (show '\n' ≠ '-' ∧ _ by decide),
      opens.ne (show '\r' ≠ '-' ∧ _ by decide)]
  | str s => exact ⟨_, _, rfl, by decide, by decide, by decide⟩
  | arr items => cases items <;> exact ⟨_, _, rfl, by decide, by decide, by decide⟩
  | obj members => cases members <;> exact ⟨_, _, rfl, by decide, by decide, by decide⟩

theorem outlineWithin_leaf {c : Char} {cs : List Char} (fuel : Nat) (solid : isBlank c = false)
    (bracket : c ≠ '[') (brace : c ≠ '\x7b') :
    outlineWithin (fuel + 1) (c :: cs) = leaf (c :: cs) := by
  simp only [outlineWithin, skip_of_not_blank cs solid]
  split
  · next e => exact absurd (List.cons.inj e).1 bracket
  · next e => exact absurd (List.cons.inj e).1 brace
  · rfl

theorem word_none {w : String} {j : Json} {c d : Char} {cs ds : List Char}
    (hw : w.toList = d :: ds) (other : c ≠ d) : word w j (c :: cs) = none := by
  simp [word, hw, Reader.after, other.symm]

theorem string_none {c : Char} {cs : List Char} (other : c ≠ '"') : string (c :: cs) = none := by
  unfold string
  split
  · next e => exact absurd (List.cons.inj e).1 other
  · rfl

theorem leaf_num {n : Number} {tail : List Char} (h : n.Readable) (ends : Ends tail) :
    leaf (n.chars ++ tail) = some (.leaf (some (.num n)), tail) := by
  obtain ⟨c, cs, e, opens⟩ := h.head
  have read := h.read_append ends.stops
  rw [e, List.cons_append] at read ⊢
  rw [leaf, word_none (w := "null") (d := 'n') rfl (opens.ne (by decide)),
    word_none (w := "true") (d := 't') rfl (opens.ne (by decide)),
    word_none (w := "false") (d := 'f') rfl (opens.ne (by decide)), Reader.map,
    string_none (opens.ne (by decide)), Reader.map, read]
  simp [(Number.readable_iff.mp h).2]

theorem leaf_str (s : String) (tail : List Char) :
    leaf (quoted s ++ tail) = some (.leaf (some (.str s)), tail) := by
  have read := string_quoted s tail
  rw [quoted, List.cons_append, List.cons_append] at read ⊢
  rw [leaf, word_none (w := "null") (d := 'n') rfl (by decide),
    word_none (w := "true") (d := 't') rfl (by decide),
    word_none (w := "false") (d := 'f') rfl (by decide), Reader.map, read]
  rfl

theorem member_text {fuel : Nat} {m : String × Json} {tail : List Char}
    (read : outlineWithin fuel (m.2.chars ++ tail) = some (m.2.outline, tail)) :
    member (outlineWithin fuel) (memberText m ++ tail) = some ((some m.1, m.2.outline), tail) := by
  have name : string (skip (quoted m.1 ++ (':' :: (m.2.chars ++ tail))))
      = some (some m.1, ':' :: (m.2.chars ++ tail)) := by
    rw [quoted, List.cons_append, List.cons_append, skip_of_not_blank _ (by decide)]
    exact string_quoted m.1 _
  have colon : skip (':' :: (m.2.chars ++ tail)) = ':' :: (m.2.chars ++ tail) :=
    skip_of_not_blank _ (by decide)
  simp [member, memberText, name, colon, Reader.after, read]

theorem ofMembers_outlines (members : List (String × Json)) :
    Outline.ofMembers (members.map fun m => (some m.1, m.2.outline))
      = .obj (members.map fun m => (m.1, m.2.outline)) := by
  have names : (members.map fun m => (some m.1, m.2.outline)).mapM
      (fun m => m.1.map fun k => (k, m.2)) = some (members.map fun m => (m.1, m.2.outline)) := by
    induction members with
    | nil => rfl
    | cons m rest ih => simp [ih]
  rw [Outline.ofMembers, names]

/-- A value is read back as its outline, from the front of a text that ends the value. -/
theorem outlineWithin_chars (j : Json) (readable : ∀ n ∈ j.numbers, n.Readable) {fuel : Nat}
    {tail : List Char} (room : j.chars.length < fuel) (ends : Ends tail) :
    outlineWithin fuel (j.chars ++ tail) = some (j.outline, tail) := by
  -- A container spends one of the fuel, and its marks make its text longer than its items' texts.
  induction j using Json.induction generalizing fuel tail with
  | null =>
    obtain ⟨fuel, rfl⟩ : ∃ f, fuel = f + 1 := ⟨fuel - 1, by omega⟩
    rfl
  | bool b =>
    obtain ⟨fuel, rfl⟩ : ∃ f, fuel = f + 1 := ⟨fuel - 1, by omega⟩
    cases b <;> rfl
  | num n =>
    obtain ⟨fuel, rfl⟩ : ∃ f, fuel = f + 1 := ⟨fuel - 1, by omega⟩
    have here : n.Readable := readable n (by simp [numbers])
    have read := leaf_num here ends
    obtain ⟨c, cs, e, opens⟩ := here.head
    have solid : isBlank c = false := by
      obtain ⟨c', cs', e', solid, -⟩ := head_chars (.num n) readable
      cases e'.symm.trans e
      exact solid
    simp only [chars, e, List.cons_append] at read ⊢
    rw [outlineWithin_leaf fuel solid (opens.ne (by decide)) (opens.ne (by decide)), read]
    rfl
  | str s =>
    obtain ⟨fuel, rfl⟩ : ∃ f, fuel = f + 1 := ⟨fuel - 1, by omega⟩
    have read := leaf_str s tail
    simp only [chars, quoted, List.cons_append] at read ⊢
    rw [outlineWithin_leaf fuel (by decide) (by decide) (by decide), read]
    rfl
  | arr items ih =>
    obtain ⟨fuel, rfl⟩ : ∃ f, fuel = f + 1 := ⟨fuel - 1, by omega⟩
    cases items with
    | nil => rfl
    | cons j rest =>
      simp only [numbers, itemNumbers_eq, List.forall_mem_flatMap] at readable
      simp only [chars, itemChars_eq, List.length_cons, List.length_append] at room
      have each : ∀ i ∈ j :: rest, ∀ tail, Ends tail →
          outlineWithin fuel (i.chars ++ tail) = some (i.outline, tail) := by
        intro i hi tail ends
        refine ih i hi (readable i hi) ?_ ends
        rcases List.mem_cons.mp hi with rfl | hi
        · omega
        · have within := Reader.length_le_of_mem (fun i => ',' :: chars i) hi
          rw [List.length_cons] at within
          omega
      obtain ⟨c, cs, e, solid, open', -⟩ := head_chars j (readable j List.mem_cons_self)
      have row := items_row (.inl rfl) ⟨c, cs, e, solid, open'⟩ each tail
      simp [chars, outlineWithin, itemChars_eq, skip_of_not_blank, isBlank, Reader.map, row,
        outline, itemOutlines_eq]
  | obj members ih =>
    obtain ⟨fuel, rfl⟩ : ∃ f, fuel = f + 1 := ⟨fuel - 1, by omega⟩
    cases members with
    | nil => rfl
    | cons m rest =>
      simp only [numbers, memberNumbers_eq, List.forall_mem_flatMap] at readable
      simp only [chars, memberChars_eq, List.length_cons, List.length_append] at room
      have each : ∀ i ∈ m :: rest, ∀ tail, Ends tail → member (outlineWithin fuel)
          (memberText i ++ tail) = some ((some i.1, i.2.outline), tail) := by
        intro i hi tail ends
        refine member_text (ih i hi (readable i hi) ?_ ends)
        rcases List.mem_cons.mp hi with rfl | hi
        · omega
        · have within := Reader.length_le_of_mem (fun i => ',' :: memberText i) hi
          rw [List.length_cons] at within
          have whole : (memberText i).length = (quoted i.1).length + (i.2.chars.length + 1) := by
            simp [memberText]
          omega
      have starts : Starts '\x7d' (memberText m) := ⟨_, _, rfl, by decide, by decide⟩
      have row := items_row (.inr rfl) starts each tail
      simp only [memberText, List.append_assoc, List.cons_append] at row
      simp [chars, outlineWithin, memberChars_eq, skip_of_not_blank, isBlank, Reader.map,
        memberText, row, outline, memberOutlines_eq]
      exact ofMembers_outlines (m :: rest)

theorem outline_text {j : Json} (readable : ∀ n ∈ j.numbers, n.Readable) :
    Outline.ofText? j.text = some j.outline := by
  have ends : Ends [] := by simp [Ends]
  have read := outlineWithin_chars j readable (Nat.lt_succ_self _) ends
  rw [List.append_nil] at read
  simp [Outline.ofText?, text, read, skip]

mutual

/-- How deep the containers of a value nest. -/
def depth : Json → Nat
  | .arr items => itemDepth items + 1
  | .obj members => memberDepth members + 1
  | .null => 0
  | .bool _ => 0
  | .num _ => 0
  | .str _ => 0

def itemDepth : List Json → Nat
  | [] => 0
  | j :: rest => max j.depth (itemDepth rest)

def memberDepth : List (String × Json) → Nat
  | [] => 0
  | (_, j) :: rest => max j.depth (memberDepth rest)

end

mutual

theorem cut_outline (j : Json) {bound : Nat} (shallow : j.depth ≤ bound) :
    j.outline.cut bound = j.outline := by
  cases j with
  | arr items =>
    obtain ⟨bound, rfl⟩ : ∃ b, bound = b + 1 := ⟨bound - 1, by simp only [depth] at shallow; omega⟩
    rw [outline, Outline.cut, cutItems_outlines items (by simpa [depth] using shallow)]
  | obj members =>
    obtain ⟨bound, rfl⟩ : ∃ b, bound = b + 1 := ⟨bound - 1, by simp only [depth] at shallow; omega⟩
    rw [outline, Outline.cut, cutMembers_outlines members (by simpa [depth] using shallow)]
  | null => simp only [outline, Outline.cut]
  | bool b => simp only [outline, Outline.cut]
  | num n => simp only [outline, Outline.cut]
  | str s => simp only [outline, Outline.cut]

theorem cutItems_outlines (items : List Json) {bound : Nat} (shallow : itemDepth items ≤ bound) :
    Outline.cutItems bound (itemOutlines items) = itemOutlines items := by
  cases items with
  | nil => rfl
  | cons j rest =>
    simp only [itemDepth, Nat.max_le] at shallow
    rw [itemOutlines, Outline.cutItems, cut_outline j shallow.1, cutItems_outlines rest shallow.2]

theorem cutMembers_outlines (members : List (String × Json)) {bound : Nat}
    (shallow : memberDepth members ≤ bound) :
    Outline.cutMembers bound (memberOutlines members) = memberOutlines members := by
  cases members with
  | nil => rfl
  | cons m rest =>
    simp only [memberDepth, Nat.max_le] at shallow
    rw [memberOutlines, Outline.cutMembers, cut_outline m.2 shallow.1,
      cutMembers_outlines rest shallow.2]

end

mutual

theorem value?_outline (j : Json) : j.outline.value? = some j := by
  cases j with
  | arr items => simp [outline, Outline.value?, itemValues?_outlines items]
  | obj members => simp [outline, Outline.value?, memberValues?_outlines members]
  | null => rfl
  | bool b => rfl
  | num n => rfl
  | str s => rfl

theorem itemValues?_outlines (items : List Json) :
    Outline.itemValues? (itemOutlines items) = some items := by
  cases items with
  | nil => rfl
  | cons j rest =>
    simp [itemOutlines, Outline.itemValues?, value?_outline j, itemValues?_outlines rest]

theorem memberValues?_outlines (members : List (String × Json)) :
    Outline.memberValues? (memberOutlines members) = some members := by
  cases members with
  | nil => rfl
  | cons m rest =>
    simp [memberOutlines, Outline.memberValues?, value?_outline m.2, memberValues?_outlines rest]

end

theorem ofText?_text {j : Json} (readable : ∀ n ∈ j.numbers, n.Readable) :
    ofText? j.text = some j := by
  rw [ofText?, outline_text readable, Option.bind_some, value?_outline]

end SelectionTree.Json
