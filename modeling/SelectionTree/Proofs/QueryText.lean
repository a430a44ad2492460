import SelectionTree.Loading
import SelectionTree.Proofs.LiteralText
/-!
Trees that are read back from their text as documents. The text of a tree without conditions and
directives is the operation that selects its fields.
-/
set_option autoImplicit false

namespace SelectionTree

structure Attributes.Written (a : Attributes) : Prop where
  name : Grammar.isName a.name = true
  aliasName : ∀ s ∈ a.aliasName, Grammar.isName s = true
  arguments : ∀ args ∈ a.arguments, args ≠ []
  directives : a.directives = none
  values : ∀ v ∈ a.values, v.Written

structure Node.Written (n : Node) : Prop where
  attributes : n.attributes.Written
  condition : n.condition = none
  children : ∀ ns ∈ n.children?, ns ≠ []

instance (a : Attributes) : Decidable a.Written :=
  decidable_of_iff (Grammar.isName a.name = true ∧ (∀ s ∈ a.aliasName, Grammar.isName s = true) ∧
      (∀ args ∈ a.arguments, args ≠ []) ∧ a.directives = none ∧ ∀ v ∈ a.values, v.Written)
    ⟨fun ⟨name, aliasName, arguments, directives, values⟩ =>
      ⟨name, aliasName, arguments, directives, values⟩, fun h => ⟨h.1, h.2, h.3, h.4, h.5⟩⟩

instance (n : Node) : Decidable n.Written :=
  decidable_of_iff (n.attributes.Written ∧ n.condition = none ∧ ∀ ns ∈ n.children?, ns ≠ [])
    ⟨fun ⟨attributes, condition, children⟩ => ⟨attributes, condition, children⟩,
      fun h => ⟨h.1, h.2, h.3⟩⟩

namespace Grammar

variable {c : Char} {cs rest tail : List Char} {a : Attributes}

/-- What follows the head of a field: nothing that goes on with a name, and next no colon, no
arguments and no directive. -/
def EndsHead (tail : List Char) : Prop :=
  Parted tail ∧ ∃ c rest, skip tail = c :: rest ∧ c ≠ ':' ∧ c ≠ '(' ∧ c ≠ '@'

theorem label_text {s : String} (named : isName s = true) (tail : List Char) :
    label (s.toList ++ ':' :: tail) = some (s, tail) := by
  have key : name (s.toList ++ ':' :: tail) = some (s, ':' :: tail) :=
    name_text named (by simp [Parted]; decide)
  have colon : after ":" (':' :: tail) = some tail := after_word ":" rfl (by decide) tail
  simp [label, key, colon]

theorem label_none {s : String} (named : isName s = true) (parted : Parted tail)
    (next : skip tail = c :: rest) (other : c ≠ ':') : label (s.toList ++ tail) = none := by
  simp [label, name_text named parted, after_none ":" rfl next other]

theorem queryArguments_none (next : skip cs = c :: rest) (other : c ≠ '(') :
    queryArguments cs = none := by
  simp [queryArguments, arguments, between1, between_none "(" ")" rfl next other]

theorem queryDirectives_none (next : skip cs = c :: rest) (other : c ≠ '@') :
    queryDirectives cs = ([], cs) := by
  refine Reader.many_of_none ?_
  simp [queryDirective, directive, after_none "@" rfl next other]

def argumentChars (args : Option Arguments) : List Char :=
  match args with
  | some args => args.chars
  | none => []

theorem optional_arguments (written : a.Written) (ends : EndsHead tail) :
    Reader.optional queryArguments (argumentChars a.arguments ++ tail)
        = (a.arguments.map Value.literalFields, tail) ∧
      Parted (argumentChars a.arguments ++ tail) ∧
      ∃ c rest, skip (argumentChars a.arguments ++ tail) = c :: rest ∧ c ≠ ':' := by
  obtain ⟨parted, c, rest, next, colon, paren, -⟩ := ends
  cases given : a.arguments with
  | none =>
    exact ⟨Reader.optional_of_none (queryArguments_none next paren), parted, c, rest, next, colon⟩
  | some args =>
    have full : args ≠ [] := written.arguments args given
    have values := (Attributes.forall_mem_values.mp written.values).1 args given
    have read := queryArguments_chars full values tail
    refine ⟨Reader.optional_of_some read, ?_, '(', _, skip_solid (by decide) _, by decide⟩
    simp [argumentChars, Arguments.chars, Parted]
    decide

theorem fieldHead_chars (written : a.Written) (ends : EndsHead tail) :
    fieldHead (a.chars ++ tail) = some (a.head, tail) := by
  obtain ⟨args, parted, c, rest, next, colon⟩ := optional_arguments written ends
  obtain ⟨-, d, rest', next', -, -, at'⟩ := ends
  have directives := queryDirectives_none next' at'
  have named := name_text written.name parted
  have head : a.chars ++ tail
      = a.aliasChars ++ (a.name.toList ++ (argumentChars a.arguments ++ tail)) := by
    simp only [Attributes.chars, List.append_assoc]
    rfl
  have values : (a.arguments.map Value.literalFields).getD []
      = Value.literalFields (a.arguments.getD []) := by cases a.arguments <;> rfl
  -- A name is tried as a label first; if no colon follows, it is read once more as the name.
  have label : ∃ behind, Reader.optional label (a.chars ++ tail) = (a.aliasName, behind) ∧
      name behind = some (a.name, argumentChars a.arguments ++ tail) := by
    rw [head]
    cases given : a.aliasName with
    | none =>
      rw [Attributes.aliasChars, given]
      exact ⟨_, Reader.optional_of_none (label_none written.name parted next colon), named⟩
    | some s =>
      rw [Attributes.aliasChars, given, List.append_assoc]
      exact ⟨_, Reader.optional_of_some (label_text (written.aliasName s given) _),
        (lenient_name ' ' _ (by decide)).trans named⟩
  obtain ⟨behind, labelled, named⟩ := label
  simp [fieldHead, labelled, named, args, directives, Attributes.head, written.directives, values]

def EndsSelection (tail : List Char) : Prop :=
  Parted tail ∧ ∃ c rest, skip tail = c :: rest ∧ (isNameStart c = true ∨ c = '\x7d')

theorem EndsSelection.head (ends : EndsSelection tail) : EndsHead tail := by
  obtain ⟨parted, c, rest, next, start | rfl⟩ := ends
  · exact ⟨parted, c, rest, next, ne_of_isNameStart start (by decide),
      ne_of_isNameStart start (by decide), ne_of_isNameStart start (by decide)⟩
  · exact ⟨parted, _, rest, next, by decide, by decide, by decide⟩

theorem selectionSetWithin_none {fuel : Nat} (next : skip cs = c :: rest) (other : c ≠ '\x7b') :
    selectionSetWithin fuel cs = none := by
  cases fuel with
  | zero => rfl
  | succ fuel =>
    simp [selectionSetWithin, between1, between_none "\x7b" "\x7d" rfl next other]

theorem EndsSelection.bodiless (ends : EndsSelection tail) (fuel : Nat) :
    selectionSetWithin fuel tail = none := by
  obtain ⟨-, c, rest, next, start | rfl⟩ := ends
  · exact selectionSetWithin_none next (ne_of_isNameStart start (by decide))
  · exact selectionSetWithin_none next (by decide)

theorem lenient_label : Lenient label := fun c cs blank => by
  simp only [label, lenient_name c cs blank]

theorem lenient_fieldHead : Lenient fieldHead := by
  intro c cs blank
  simp only [fieldHead, Reader.optional, lenient_label c cs blank]
  cases label cs with
  | none => simp only [lenient_name c cs blank]
  | some found => rfl

theorem lenient_selection (fuel : Nat) : Lenient (selection (selectionSetWithin fuel)) := by
  intro c cs blank
  simp only [selection, Reader.orElse, field, lenient_fieldHead c cs blank, inlineFragment,
    fragmentSpread, after, skip_blank blank]

theorem selection_none {fuel : Nat} (next : skip cs = '\x7d' :: rest) :
    selection (selectionSetWithin fuel) cs = none := by
  have unnamed : name cs = none := name_none next (by decide)
  have dots : after "..." cs = none := after_none "..." rfl next (by decide)
  simp [selection, Reader.orElse, field, fieldHead, label, Reader.optional, inlineFragment,
    fragmentSpread, unnamed, dots]

theorem head_attributes (written : a.Written) :
    ∃ c more, a.chars = c :: more ∧ isNameStart c = true := by
  cases given : a.aliasName with
  | none =>
    obtain ⟨c, more, e, start, -⟩ := head_of_isName written.name
    exact ⟨c, _, by simp [Attributes.chars, Attributes.aliasChars, given, e]; rfl, start⟩
  | some s =>
    obtain ⟨c, more, e, start, -⟩ := head_of_isName (written.aliasName s given)
    exact ⟨c, _, by simp [Attributes.chars, Attributes.aliasChars, given, e]; rfl, start⟩

theorem head_chars {n : Node} (written : n.Written) :
    ∃ c more, n.chars = c :: more ∧ isNameStart c = true := by
  obtain ⟨c, more, e, start⟩ := head_attributes written.attributes
  cases n with
  | leaf a => exact ⟨c, more, e, start⟩
  | branch a children =>
    rw [Node.attributes_branch] at e
    exact ⟨c, _, by rw [Node.chars, e, List.cons_append], start⟩

theorem listChars_eq (ns : List Node) : Node.listChars ns = ns.map Node.chars := by
  induction ns with
  | nil => rfl
  | cons n rest ih => rw [Node.listChars, ih, List.map_cons]

theorem selections_eq (ns : List Node) : Node.selections ns = ns.map Node.selection := by
  induction ns with
  | nil => rfl
  | cons n rest ih => rw [Node.selections, ih, List.map_cons]

theorem skip_braced (selections : List (List Char)) (tail : List Char) :
    skip (' ' :: braced selections ++ tail)
      = '\x7b' :: (' ' :: joinSpaced selections ++ [' ', '\x7d'] ++ tail) := by
  rw [List.cons_append, skip_blank (by decide)]
  exact skip_solid (by decide) _

theorem length_chars_le_braced {n : Node} {ns : List Node} (hn : n ∈ ns) :
    n.chars.length ≤ (braced (Node.listChars ns)).length := by
  have within := length_le_intercalate [',', ' '] (List.mem_map_of_mem (f := Node.chars) hn)
  simp only [braced, listChars_eq, joinSpaced_eq, List.length_append, List.length_cons]
  omega

theorem selectionSetWithin_braced {fuel : Nat} {ns : List Node} (full : ns ≠ [])
    (written : ∀ n ∈ ns, n.Written)
    (item : ∀ n ∈ ns, ∀ tail, EndsSelection tail →
      selection (selectionSetWithin fuel) (n.chars ++ tail) = some (n.selection, tail))
    (tail : List Char) :
    selectionSetWithin (fuel + 1) (' ' :: braced (Node.listChars ns) ++ tail)
      = some (Node.selections ns, tail) := by
  obtain ⟨n, ns, rfl⟩ := List.exists_cons_of_ne_nil full
  have next : skip (' ' :: '\x7d' :: tail) = '\x7d' :: tail := by
    rw [skip_blank (by decide), skip_solid (by decide)]
  -- The row leaves the blank in front of the brace.
  have row : Reader.many (selection (selectionSetWithin fuel))
      ([' '] ++ [',', ' '].intercalate ((n :: ns).map Node.chars) ++ ' ' :: '\x7d' :: tail)
        = ((n :: ns).map Node.selection, ' ' :: '\x7d' :: tail) := by
    have last : EndsSelection (' ' :: '\x7d' :: tail) :=
      ⟨by simp [Parted]; decide, '\x7d', tail, next, Or.inr rfl⟩
    refine many_row [' '] EndsSelection (lenient_selection fuel) (by simp [isBlank])
      (fun m hm => ?_) item (fun m hm tail => ?_) last (selection_none next)
    · obtain ⟨c, more, e, -⟩ := head_chars (written m hm)
      simp [e]
    · obtain ⟨c, more, e, start⟩ := head_chars (written m (List.mem_cons_of_mem n hm))
      refine ⟨by simp [Parted]; decide, c, more ++ tail, ?_, Or.inl start⟩
      rw [e, List.cons_append, List.cons_append, skip_blank (by decide), skip_blank (by decide)]
      exact skip_solid (solid_of_isNameStart start) _
  have closed : after "\x7d" (' ' :: '\x7d' :: tail) = some tail := by
    rw [after, next]
    rfl
  have read := between_row "\x7b" "\x7d" (c := '\x7b') rfl (by decide) row closed
  have text : braced (Node.listChars (n :: ns)) ++ tail = '\x7b' ::
      ([' '] ++ [',', ' '].intercalate ((n :: ns).map Node.chars) ++ ' ' :: '\x7d' :: tail) := by
    simp [braced, listChars_eq, joinSpaced_eq]
  rw [selectionSetWithin, between1, List.cons_append, lenient_between _ _ (by decide), text, read]
  simp [selections_eq]

theorem selection_field {fuel : Nat} {head : FieldHead} {body : Option (List Selection)}
    {rest' : List Char} (read : fieldHead cs = some (head, rest))
    (inner : Reader.optional (selectionSetWithin fuel) rest = (body, rest')) :
    selection (selectionSetWithin fuel) cs = some (.field head (body.getD []), rest') := by
  simp [selection, Reader.orElse, field, read, inner]

/-- The text of a node is read back as the selection of its field. -/
theorem selection_chars (n : Node) (written : ∀ m ∈ n.nodes, m.Written) {fuel : Nat}
    {tail : List Char} (room : n.chars.length < fuel) (ends : EndsSelection tail) :
    selection (selectionSetWithin fuel) (n.chars ++ tail) = some (n.selection, tail) := by
  induction n using Node.induction generalizing fuel tail with
  | leaf a =>
    have here := written (.leaf a) (Node.self_mem_nodes _)
    have unconditional : a.condition = none := here.condition
    have head := fieldHead_chars (a := a) here.attributes ends.head
    have bodiless := Reader.optional_of_none (ends.bodiless fuel)
    rw [Node.chars, selection_field head bodiless, Node.selection, Attributes.selection,
      unconditional]
    rfl
  | branch a children ih =>
    have here := written (.branch a children) (Node.self_mem_nodes _)
    obtain ⟨fuel, rfl⟩ : ∃ f, fuel = f + 1 := ⟨fuel - 1, by omega⟩
    have unconditional : a.condition = none := here.condition
    have full : children ≠ [] := here.children children rfl
    have below (m : Node) (hm : m ∈ children) : ∀ m' ∈ m.nodes, m'.Written := fun m' hm' =>
      written m' (Node.mem_nodes_of_child hm hm')
    have item : ∀ m ∈ children, ∀ tail, EndsSelection tail →
        selection (selectionSetWithin fuel) (m.chars ++ tail) = some (m.selection, tail) := by
      intro m hm tail ends
      have within := length_chars_le_braced hm
      simp only [Node.chars, List.length_append, List.length_cons] at room
      exact ih m hm (below m hm) (by omega) ends
    have body := selectionSetWithin_braced full (fun m hm => below m hm m m.self_mem_nodes)
      item tail
    have opens : EndsHead (' ' :: braced (Node.listChars children) ++ tail) :=
      ⟨by simp [Parted]; decide, _, _, skip_braced _ tail, by decide, by decide, by decide⟩
    have head := fieldHead_chars (a := a) here.attributes opens
    rw [Node.chars, List.append_assoc, selection_field head (Reader.optional_of_some body),
      Node.selection, Attributes.selection]
    simp [unconditional]

theorem operationKind_word (kind : OperationKind) (tail : List Char) :
    operationKind (kind.word.toList ++ tail) = some (kind, tail) := by
  cases kind <;> rfl

theorem queryItem_chars {t : Tree} (full : t.roots ≠ []) (written : ∀ n ∈ t.nodes, n.Written) :
    queryItem (t.kind.word.toList ++ ' ' :: braced (Node.listChars t.roots))
      = some (.operation none t.operation, []) := by
  have next := skip_braced (Node.listChars t.roots) []
  simp only [List.append_nil] at next
  have below (n : Node) (hn : n ∈ t.roots) : ∀ m ∈ n.nodes, m.Written := fun m hm =>
    written m (Node.mem_nodesAll hn hm)
  have unnamed := Reader.optional_of_none (name_none next (by decide))
  have undeclared := Reader.optional_of_none
    (between_none "(" ")" (p := variableDefinition) rfl next (by decide))
  have undirected := queryDirectives_none next (by decide)
  have selections : selectionSet (' ' :: braced (Node.listChars t.roots))
      = some (Node.selections t.roots, []) := by
    have read := selectionSetWithin_braced full (fun n hn => below n hn n n.self_mem_nodes)
      (fun n hn tail => selection_chars n (below n hn)
        (Nat.lt_succ_of_le (length_chars_le_braced hn))) []
    rwa [List.append_nil] at read
  simp [queryItem, keywordOperation, Reader.orElse, operationKind_word, unnamed, undeclared,
    undirected, selections, Tree.operation]

end Grammar

/-- The text of a tree is read back as the document with one operation, which has no name and
selects the fields of the tree. -/
theorem Document.ofText_text {t : Tree} (full : t.roots ≠ []) (written : ∀ n ∈ t.nodes, n.Written) :
    Document.ofText t.text = .ok ⟨.anonymous t.operation, []⟩ := by
  have read := Grammar.queryItem_chars full written
  have items := Reader.many_of_some
    (List.append_ne_nil_of_right_ne_nil _ (List.cons_ne_nil _ _)) read
    (rfl : Grammar.queryItem [] = none)
  have whole : Grammar.queryItems? t.text.toList = some [.operation none t.operation] := by
    rw [Tree.text, String.toList_ofList, Grammar.queryItems?, Reader.some1, items]
    rfl
  rw [Document.ofText, whole]
  rfl

def Films.written : Tree where
  kind := .subscription
  roots :=
    [.branch
       { name := "hero", aliasName := some "query"
         arguments := some [("id", .str ""), ("on", .list [.num (.int 7), .list [], .null])] }
       [.leaf { name := "name", aliasName := some "true" },
        .branch { name := "friends" } [.leaf { name := "id", returnType := some "ID" }]],
     .leaf
       { name := "_1"
         arguments := some [("by", .obj [("text", .str "\"\\ \n#"), ("null", .bool true)])] }]

open Films in
theorem ofText_text_hero : Document.ofText written.text = .ok ⟨.anonymous written.operation, []⟩ :=
  Document.ofText_text (by simp [written]) (by decide)

end SelectionTree
