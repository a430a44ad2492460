import Mathlib.Data.List.Nodup
/-!
First occurrences: what is left of a list when every key keeps its first entry. Levels and lists of
response names are described by it, so the laws here are about appending lists whose repetitions
have been dropped already.
-/
set_option autoImplicit false

namespace SelectionTree

variable {α β κ κ' : Type} [DecidableEq κ] [DecidableEq κ']

/-- The entries of a list whose keys do not occur before them, in order. -/
def firsts (key : α → κ) : List α → List α
  | [] => []
  | x :: xs => x :: (firsts key xs).filter fun y => key y ≠ key x

@[simp] theorem firsts_nil (key : α → κ) : firsts key [] = [] := rfl

@[simp] theorem firsts_singleton (key : α → κ) (x : α) : firsts key [x] = [x] := rfl

theorem mem_map_firsts (key : α → κ) (xs : List α) (k : κ) :
    k ∈ (firsts key xs).map key ↔ k ∈ xs.map key := by
  induction xs with
  | nil => simp
  | cons x xs ih =>
    by_cases h : k = key x
    · simp [firsts, h]
    · simp only [List.mem_map] at ih
      simp only [firsts, List.map_cons, List.mem_cons, h, false_or, List.mem_map, List.mem_filter,
        decide_eq_true_eq, ← ih]
      constructor
      · rintro ⟨y, ⟨hy, -⟩, e⟩
        exact ⟨y, hy, e⟩
      · rintro ⟨y, hy, e⟩
        exact ⟨y, ⟨hy, e ▸ h⟩, e⟩

theorem firsts_sublist (key : α → κ) (xs : List α) : (firsts key xs).Sublist xs := by
  induction xs with
  | nil => exact List.Sublist.refl _
  | cons x xs ih => exact (List.filter_sublist.trans ih).cons_cons x

theorem mem_of_mem_firsts {key : α → κ} {xs : List α} {x : α} (h : x ∈ firsts key xs) : x ∈ xs :=
  (firsts_sublist key xs).subset h

theorem firsts_append (key : α → κ) (xs ys : List α) :
    firsts key (xs ++ ys)
      = firsts key xs ++ (firsts key ys).filter fun y => key y ∉ xs.map key := by
  induction xs with
  | nil => simp
  | cons x xs ih =>
    simp only [List.cons_append, firsts, ih, List.filter_append, List.filter_filter, List.map_cons,
      List.mem_cons, not_or]
    congr 2
    apply List.filter_congr
    intro y _
    simp

theorem firsts_snoc (key : α → κ) (xs : List α) (y : α) :
    firsts key (xs ++ [y])
      = if key y ∈ xs.map key then firsts key xs else firsts key xs ++ [y] := by
  rw [firsts_append]
  by_cases h : key y ∈ xs.map key
  · rw [if_pos h, firsts_singleton, List.filter_cons_of_neg (by simpa using h)]
    simp
  · rw [if_neg h, firsts_singleton, List.filter_cons_of_pos (by simpa using h)]
    simp

theorem nodup_map_firsts (key : α → κ) (xs : List α) : ((firsts key xs).map key).Nodup := by
  induction xs with
  | nil => simp
  | cons x xs ih =>
    simp only [firsts, List.map_cons, List.nodup_cons]
    constructor
    · simp
    · exact ih.sublist ((List.filter_sublist).map key)

theorem firsts_of_nodup {key : α → κ} {xs : List α} (h : (xs.map key).Nodup) :
    firsts key xs = xs := by
  induction xs with
  | nil => rfl
  | cons x xs ih =>
    simp only [List.map_cons, List.nodup_cons] at h
    rw [firsts, ih h.2, List.filter_eq_self.mpr]
    intro y hy
    simp only [decide_eq_true_eq]
    intro e
    exact h.1 (e ▸ List.mem_map_of_mem hy)

theorem firsts_firsts (key : α → κ) (xs : List α) : firsts key (firsts key xs) = firsts key xs :=
  firsts_of_nodup (nodup_map_firsts key xs)

/-- Dropping the repetitions of the first part before those of the whole changes nothing. -/
theorem firsts_firsts_append (key : α → κ) (xs ys : List α) :
    firsts key (firsts key xs ++ ys) = firsts key (xs ++ ys) := by
  rw [firsts_append, firsts_append, firsts_firsts]
  congr 1
  apply List.filter_congr
  intro y _
  simp only [mem_map_firsts]

theorem firsts_append_firsts (key : α → κ) (xs ys : List α) :
    firsts key (xs ++ firsts key ys) = firsts key (xs ++ ys) := by
  rw [firsts_append, firsts_append, firsts_firsts]

theorem map_firsts (key : β → κ) (f : α → β) (xs : List α) :
    (firsts (fun x => key (f x)) xs).map f = firsts key (xs.map f) := by
  induction xs with
  | nil => rfl
  | cons x xs ih => simp [firsts, ← ih, List.filter_map, Function.comp_def]

/-- Keys that tell the same entries apart have the same first occurrences. -/
theorem firsts_congr {key : α → κ} {key' : α → κ'} {xs : List α}
    (h : ∀ x ∈ xs, ∀ y ∈ xs, key x = key y ↔ key' x = key' y) : firsts key xs = firsts key' xs := by
  induction xs with
  | nil => rfl
  | cons x xs ih =>
    have tail := ih fun y hy z hz => h y (List.mem_cons_of_mem _ hy) z (List.mem_cons_of_mem _ hz)
    rw [firsts, firsts, ← tail]
    congr 1
    apply List.filter_congr
    intro y hy
    have hy := List.mem_cons_of_mem x (mem_of_mem_firsts hy)
    simp [h y hy x List.mem_cons_self]

theorem map_key_firsts (key : α → κ) (xs : List α) :
    (firsts key xs).map key = firsts id (xs.map key) := map_firsts id key xs

theorem filter_firsts (key : α → κ) (p : κ → Bool) (xs : List α) :
    (firsts key xs).filter (fun x => p (key x)) = firsts key (xs.filter fun x => p (key x)) := by
  induction xs with
  | nil => rfl
  | cons x xs ih =>
    by_cases h : p (key x)
    · simp only [firsts, List.filter_cons, h, if_true, ← ih, List.filter_filter, Bool.and_comm]
    · simp only [firsts, List.filter_cons, h, Bool.false_eq_true, if_false, ← ih,
        List.filter_filter]
      apply List.filter_congr
      intro y _
      by_cases hy : key y = key x <;> simp [hy, h]

theorem firsts_id [BEq κ] [LawfulBEq κ] (xs : List κ) : firsts id xs = xs.eraseDups := by
  match xs with
  | [] => rfl
  | x :: xs =>
    have shorter := List.length_filter_le (fun y => !y == x) xs
    have tail := filter_firsts id (fun y => !y == x) xs
    rw [List.eraseDups_cons, ← firsts_id (xs.filter fun y => !y == x)]
    simp only [id] at tail
    rw [firsts, ← tail]
    congr 1
    apply List.filter_congr
    intro y _
    by_cases h : y = x <;> simp [h]
termination_by xs.length
decreasing_by
  simp only [List.length_cons]
  omega

theorem find?_of_mem_firsts {key : α → κ} {xs : List α} {x : α} (h : x ∈ firsts key xs) :
    xs.find? (fun y => key y = key x) = some x := by
  induction xs with
  | nil => cases h
  | cons y ys ih =>
    simp only [firsts, List.mem_cons, List.mem_filter, decide_eq_true_eq] at h
    rcases h with rfl | ⟨h, other⟩
    · simp
    · rw [List.find?_cons_of_neg (by simpa using Ne.symm other), ih h]

end SelectionTree
