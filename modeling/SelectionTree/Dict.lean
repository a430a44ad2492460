/-!
Dictionaries that keep the order in which their keys first appeared. A key that is written again
keeps its place and takes the new value, so `Dict.ofList` is "first position, last value".
-/
set_option autoImplicit false

namespace SelectionTree

abbrev Dict (α : Type) := List (String × α)

namespace Dict

variable {α β : Type}

def find? (key : String) : Dict α → Option α
  | [] => none
  | (k, v) :: rest => if k = key then some v else find? key rest

/-- Writes a value: in place when the key is there, at the end when it is not. -/
def insert (key : String) (value : α) : Dict α → Dict α
  | [] => [(key, value)]
  | (k, v) :: rest => if k = key then (k, value) :: rest else (k, v) :: insert key value rest

def ofList (entries : List (String × α)) : Dict α :=
  entries.foldl (fun d e => insert e.1 e.2 d) []

def keys (d : Dict α) : List String := d.map Prod.fst

def mapValues (f : α → β) (d : Dict α) : Dict β := d.map fun e => (e.1, f e.2)

@[simp] theorem find?_nil (key : String) : find? key ([] : Dict α) = none := rfl

theorem find?_insert (key : String) (value : α) (d : Dict α) (k : String) :
    find? k (insert key value d) = if key = k then some value else find? k d := by
  induction d with
  | nil => simp [insert, find?]
  | cons e rest ih =>
    obtain ⟨k', v⟩ := e
    by_cases h : k' = key
    · subst h
      by_cases h' : k' = k <;> simp [insert, find?, h']
    · by_cases h' : k' = k
      · subst h'
        simp [insert, find?, h, Ne.symm h]
      · simp [insert, find?, h, h', ih]

theorem find?_eq_lookup (key : String) (d : Dict α) : find? key d = d.lookup key := by
  induction d with
  | nil => rfl
  | cons e rest ih =>
    by_cases here : e.1 = key
    · rw [find?, if_pos here, List.lookup_cons, beq_iff_eq.mpr here.symm]
    · rw [find?, if_neg here, ih, List.lookup_cons, beq_false_of_ne (Ne.symm here)]

theorem mem_of_find? {key : String} {value : α} {d : Dict α} (found : find? key d = some value) :
    (key, value) ∈ d := by
  rw [find?_eq_lookup] at found
  obtain ⟨before, after, rfl, -⟩ := List.lookup_eq_some_iff.mp found
  exact List.mem_append_right _ List.mem_cons_self

theorem keys_mapValues (f : α → β) (d : Dict α) : keys (mapValues f d) = keys d := by
  simp [keys, mapValues]

theorem find?_mapValues (f : α → β) (d : Dict α) (key : String) :
    find? key (mapValues f d) = (find? key d).map f := by
  induction d with
  | nil => rfl
  | cons e rest ih =>
    obtain ⟨k, v⟩ := e
    by_cases h : k = key
    · simp [mapValues, find?, h]
    · simpa [mapValues, find?, h] using ih

end Dict

end SelectionTree
