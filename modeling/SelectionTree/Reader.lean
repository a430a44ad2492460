/-!
Readers of text. A reader takes characters from the front of a text and returns what it read with
the characters that are left; `none` means that the text does not start with what it reads. The
escapes behind a backslash are those that quoted strings have in common.
-/
set_option autoImplicit false

namespace SelectionTree

abbrev Reader (α : Type) := List Char → Option (α × List Char)

namespace Reader

variable {α β : Type}

def after : List Char → List Char → Option (List Char)
  | [], cs => some cs
  | _ :: _, [] => none
  | w :: ws, c :: cs => if w = c then after ws cs else none

def manyWithin (p : Reader α) : Nat → List Char → List α × List Char
  | 0, cs => ([], cs)
  | n + 1, cs =>
    match p cs with
    | none => ([], cs)
    | some (x, rest) =>
      let (xs, left) := manyWithin p n rest
      (x :: xs, left)

/-- Reads as often as it can. A text has room for as many readings as it has characters. -/
def many (p : Reader α) (cs : List Char) : List α × List Char := manyWithin p cs.length cs

def some1 (p : Reader α) : Reader (List α) := fun cs =>
  match many p cs with
  | ([], _) => none
  | found => some found

def optional (p : Reader α) (cs : List Char) : Option α × List Char :=
  match p cs with
  | none => (none, cs)
  | some (x, rest) => (some x, rest)

def orElse (p q : Reader α) : Reader α := fun cs => p cs <|> q cs

def map (f : α → β) (p : Reader α) : Reader β := fun cs => (p cs).map fun (x, rest) => (f x, rest)

@[simp] theorem after_nil (cs : List Char) : after [] cs = some cs := rfl

@[simp] theorem after_append (ws cs : List Char) : after ws (ws ++ cs) = some cs := by
  induction ws with
  | nil => rfl
  | cons w ws ih => simpa [after] using ih

theorem many_of_none {p : Reader α} {cs : List Char} (stop : p cs = none) :
    many p cs = ([], cs) := by
  unfold many
  cases cs.length <;> simp [manyWithin, stop]

theorem many_of_some {p : Reader α} {cs rest : List Char} {x : α} (full : cs ≠ [])
    (found : p cs = some (x, rest)) (stop : p rest = none) : many p cs = ([x], rest) := by
  obtain ⟨c, cs, rfl⟩ := List.exists_cons_of_ne_nil full
  rw [many, List.length_cons, manyWithin, found]
  cases cs.length <;> simp [manyWithin, stop]

theorem optional_of_none {p : Reader α} {cs : List Char} (missing : p cs = none) :
    optional p cs = (none, cs) := by
  simp [optional, missing]

theorem optional_of_some {p : Reader α} {cs rest : List Char} {x : α}
    (found : p cs = some (x, rest)) : optional p cs = (some x, rest) := by
  simp [optional, found]

section Rows

variable {p : Reader β} {write : α → List Char} {value : α → β} (ends : List Char → Prop)
  {xs : List α} {rest : List Char}

theorem ends_flatMap (starts : ∀ x ∈ xs, ∀ tail, ends (write x ++ tail)) (last : ends rest) :
    ends (xs.flatMap write ++ rest) := by
  cases xs with
  | nil => simpa using last
  | cons x xs => simpa using starts x (by simp) (xs.flatMap write ++ rest)

theorem manyWithin_flatMap {n : Nat}
    (item : ∀ x ∈ xs, ∀ tail, ends tail → p (write x ++ tail) = some (value x, tail))
    (starts : ∀ x ∈ xs, ∀ tail, ends (write x ++ tail)) (last : ends rest) (stop : p rest = none)
    (room : xs.length ≤ n) :
    manyWithin p n (xs.flatMap write ++ rest) = (xs.map value, rest) := by
  induction xs generalizing n with
  | nil => cases n <;> simp [manyWithin, stop]
  | cons x xs ih =>
    cases n with
    | zero => simp at room
    | succ n =>
      have starts' : ∀ y ∈ xs, ∀ tail, ends (write y ++ tail) := fun y hy =>
        starts y (by simp [hy])
      have hx := item x (by simp) _ (ends_flatMap ends starts' last)
      have hxs := ih (fun y hy => item y (by simp [hy])) starts' (Nat.le_of_succ_le_succ room)
      simp only [List.flatMap_cons, List.append_assoc, manyWithin, hx, hxs, List.map_cons]

theorem length_le_of_mem (write : α → List Char) {x : α} (hx : x ∈ xs) :
    (write x).length ≤ (xs.flatMap write).length :=
  (List.sublist_flatten_of_mem (List.mem_map_of_mem hx)).length_le

theorem length_le_flatMap (written : ∀ x ∈ xs, write x ≠ []) :
    xs.length ≤ (xs.flatMap write).length := by
  induction xs with
  | nil => simp
  | cons x xs ih =>
    have here : 0 < (write x).length := List.length_pos_iff.mpr (written x (by simp))
    have behind := ih fun y hy => written y (by simp [hy])
    simp only [List.flatMap_cons, List.length_append, List.length_cons]
    omega

/-- A row of items is read back from their written forms. What follows an item must not go on with
it, be it the next item or what stands behind the row, and the latter must not start an item. -/
theorem many_flatMap
    (item : ∀ x ∈ xs, ∀ tail, ends tail → p (write x ++ tail) = some (value x, tail))
    (starts : ∀ x ∈ xs, ∀ tail, ends (write x ++ tail)) (last : ends rest) (stop : p rest = none)
    (written : ∀ x ∈ xs, write x ≠ []) :
    many p (xs.flatMap write ++ rest) = (xs.map value, rest) := by
  refine manyWithin_flatMap ends item starts last stop ?_
  have room := length_le_flatMap written
  simp only [List.length_append]
  omega

theorem many_cons_flatMap {first : List Char} {x : β}
    (head : ∀ tail, ends tail → p (first ++ tail) = some (x, tail))
    (item : ∀ x ∈ xs, ∀ tail, ends tail → p (write x ++ tail) = some (value x, tail))
    (starts : ∀ x ∈ xs, ∀ tail, ends (write x ++ tail)) (last : ends rest) (stop : p rest = none)
    (written : ∀ x ∈ xs, write x ≠ []) (written' : first ≠ []) :
    many p (first ++ (xs.flatMap write ++ rest)) = (x :: xs.map value, rest) := by
  have hends := ends_flatMap ends starts last
  have room := length_le_flatMap written
  obtain ⟨c, cs, rfl⟩ := List.exists_cons_of_ne_nil written'
  rw [many, List.cons_append, List.length_cons, manyWithin, ← List.cons_append, head _ hends]
  have behind : manyWithin p (cs ++ (xs.flatMap write ++ rest)).length (xs.flatMap write ++ rest)
      = (xs.map value, rest) := by
    refine manyWithin_flatMap ends item starts last stop ?_
    simp only [List.length_append]
    omega
  simp only [behind]

end Rows

end Reader

namespace Escape

def hexValue? (c : Char) : Option Nat :=
  if '0' ≤ c ∧ c ≤ '9' then some (c.toNat - 48)
  else if 'a' ≤ c ∧ c ≤ 'f' then some (c.toNat - 87)
  else if 'A' ≤ c ∧ c ≤ 'F' then some (c.toNat - 55)
  else none

def unit : Reader Nat
  | a :: b :: c :: d :: rest => do
    let a ← hexValue? a
    let b ← hexValue? b
    let c ← hexValue? c
    let d ← hexValue? d
    some (((a * 16 + b) * 16 + c) * 16 + d, rest)
  | _ => none

def letter? (c : Char) : Option Char :=
  if c = '"' || c = '\\' || c = '/' then some c
  else if c = 'b' then some '\x08'
  else if c = 'f' then some '\x0c'
  else if c = 'n' then some '\n'
  else if c = 'r' then some '\r'
  else if c = 't' then some '\t'
  else none

end Escape

end SelectionTree
