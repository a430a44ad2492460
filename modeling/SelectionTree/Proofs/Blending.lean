import Mathlib.Data.Option.Basic
import SelectionTree.Proofs.Firsts
/-!
Lists with one entry for each key, and entries that are blended into them: where the key is there
the two entries are joined, where it is not the new one comes last. Such a list is known by its keys
and by the entry of each key, so laws of the blend follow from laws of the join.
-/
set_option autoImplicit false

namespace SelectionTree

variable {α κ : Type} [DecidableEq κ] (key : α → κ)

/-- Updates the first entry that has the key of the new one, or adds the new one at the end. -/
def blend (update : α → α) (new : α) : List α → List α
  | [] => [new]
  | x :: xs => if key x = key new then update x :: xs else x :: blend update new xs

def blendAll (join : α → α → α) (xs ys : List α) : List α :=
  ys.foldl (fun xs y => blend key (fun x => join x y) y xs) xs

def withKey? (k : κ) (xs : List α) : Option α := xs.find? fun x => key x = k

variable {key} {update : α → α} {join : α → α → α} {new x : α} {xs ys zs : List α} {k : κ}

@[simp] theorem withKey?_nil : withKey? key k [] = none := rfl

theorem withKey?_cons :
    withKey? key k (x :: xs) = if key x = k then some x else withKey? key k xs := by
  simp only [withKey?, List.find?_cons]
  by_cases h : key x = k <;> simp [h]

theorem mem_of_withKey? (h : withKey? key k xs = some x) : x ∈ xs ∧ key x = k :=
  ⟨List.mem_of_find?_eq_some h, by simpa using List.find?_some h⟩

theorem withKey?_eq_none : withKey? key k xs = none ↔ k ∉ xs.map key := by
  simp only [withKey?, List.find?_eq_none, decide_eq_true_eq, List.mem_map, not_exists, not_and]

theorem withKey?_eq_some (once : (xs.map key).Nodup) :
    withKey? key k xs = some x ↔ x ∈ xs ∧ key x = k := by
  refine ⟨mem_of_withKey?, fun ⟨mem, hk⟩ => ?_⟩
  subst hk
  cases found : withKey? key (key x) xs with
  | none => exact absurd (List.mem_map_of_mem mem) (withKey?_eq_none.mp found)
  | some y =>
    obtain ⟨memy, same⟩ := mem_of_withKey? found
    rw [List.inj_on_of_nodup_map once memy mem same]

theorem withKey?_perm (perm : xs.Perm ys) (once : (xs.map key).Nodup) :
    withKey? key k xs = withKey? key k ys := by
  have once' : (ys.map key).Nodup := (perm.map key).nodup_iff.mp once
  refine Option.ext fun x => ?_
  rw [withKey?_eq_some once, withKey?_eq_some once', perm.mem_iff]

/-- A list in which no key comes twice is known by its keys and their entries. -/
theorem eq_of_entries (keys : xs.map key = ys.map key) (once : (xs.map key).Nodup)
    (entries : ∀ k, withKey? key k xs = withKey? key k ys) : xs = ys := by
  induction xs generalizing ys with
  | nil => exact (List.map_eq_nil_iff.mp keys.symm).symm
  | cons x xs ih =>
    cases ys with
    | nil => cases keys
    | cons y ys =>
      rw [List.map_cons, List.map_cons] at keys
      obtain ⟨same, tails⟩ := List.cons.inj keys
      rw [List.map_cons, List.nodup_cons] at once
      have here := entries (key x)
      rw [withKey?_cons, withKey?_cons, if_pos rfl, if_pos same.symm] at here
      cases here
      congr 1
      refine ih tails once.2 fun k => ?_
      have other := entries k
      rw [withKey?_cons, withKey?_cons] at other
      by_cases h : key x = k
      · subst h
        rw [withKey?_eq_none.mpr once.1, withKey?_eq_none.mpr (tails ▸ once.1)]
      · rwa [if_neg h, if_neg h] at other

theorem map_key_blend (keeps : ∀ x, key x = key new → key (update x) = key x) (xs : List α) :
    (blend key update new xs).map key
      = if key new ∈ xs.map key then xs.map key else xs.map key ++ [key new] := by
  induction xs with
  | nil => rfl
  | cons x xs ih =>
    rw [blend]
    by_cases h : key x = key new
    · simp [h, keeps x h]
    · rw [if_neg h, List.map_cons, ih, List.map_cons]
      simp only [List.mem_cons, Ne.symm h, false_or]
      split <;> rfl

theorem firsts_id_blend (keeps : ∀ x, key x = key new → key (update x) = key x)
    (once : (xs.map key).Nodup) :
    (blend key update new xs).map key = firsts id (xs.map key ++ [key new]) := by
  have same : firsts id (xs.map key) = xs.map key := firsts_of_nodup (by simpa using once)
  rw [map_key_blend keeps, firsts_snoc, same, List.map_id]
  rfl

theorem nodup_blend (keeps : ∀ x, key x = key new → key (update x) = key x)
    (once : (xs.map key).Nodup) : ((blend key update new xs).map key).Nodup := by
  rw [firsts_id_blend keeps once]
  simpa using nodup_map_firsts id (xs.map key ++ [key new])

theorem withKey?_blend (keeps : ∀ x, key x = key new → key (update x) = key x) (k : κ)
    (xs : List α) :
    withKey? key k (blend key update new xs)
      = if key new = k then some ((withKey? key k xs).elim new update) else withKey? key k xs := by
  induction xs with
  | nil => rw [blend, withKey?_cons, withKey?_nil, Option.elim_none]
  | cons x xs ih =>
    rw [blend]
    by_cases h : key x = key new
    · rw [if_pos h, withKey?_cons, withKey?_cons, keeps x h, h]
      split <;> simp
    · rw [if_neg h, withKey?_cons, withKey?_cons, ih]
      by_cases here : key new = k
      · rw [if_pos here, if_pos here, if_neg (here ▸ h), if_neg (here ▸ h)]
      · rw [if_neg here, if_neg here]

theorem forall_mem_blend {P : α → Prop} (updated : ∀ x, key x = key new → P x → P (update x))
    (hxs : ∀ x ∈ xs, P x) (hnew : P new) : ∀ z ∈ blend key update new xs, P z := by
  induction xs with
  | nil => simpa [blend] using hnew
  | cons x xs ih =>
    rw [List.forall_mem_cons] at hxs
    rw [blend]
    split
    · next here => exact List.forall_mem_cons.mpr ⟨updated x here hxs.1, hxs.2⟩
    · exact List.forall_mem_cons.mpr ⟨hxs.1, ih hxs.2⟩

theorem blend_ne_nil (xs : List α) : blend key update new xs ≠ [] := by
  cases xs with
  | nil => simp [blend]
  | cons x xs =>
    rw [blend]
    split <;> simp

theorem blendAll_nil (join : α → α → α) (xs : List α) : blendAll key join xs [] = xs := rfl

theorem blendAll_cons (join : α → α → α) (xs ys : List α) (y : α) :
    blendAll key join xs (y :: ys)
      = blendAll key join (blend key (fun x => join x y) y xs) ys := rfl

theorem blendAll_snoc (join : α → α → α) (xs ys : List α) (y : α) :
    blendAll key join xs (ys ++ [y])
      = blend key (fun x => join x y) y (blendAll key join xs ys) := List.foldl_append

theorem blendAll_eq_nil (h : blendAll key join xs ys = []) : xs = [] ∧ ys = [] := by
  induction ys generalizing xs with
  | nil => exact ⟨h, rfl⟩
  | cons y ys ih => exact absurd (ih h).1 (blend_ne_nil xs)

def KeepsKey (key : α → κ) (join : α → α → α) : Prop :=
  ∀ x y, key x = key y → key (join x y) = key x

theorem map_key_blendAll (keeps : KeepsKey key join) (once : (xs.map key).Nodup) (ys : List α) :
    (blendAll key join xs ys).map key = firsts id (xs.map key ++ ys.map key) := by
  induction ys generalizing xs with
  | nil =>
    rw [blendAll_nil, List.map_nil, List.append_nil]
    exact (firsts_of_nodup (by simpa using once)).symm
  | cons y ys ih =>
    have step := firsts_id_blend (fun x => keeps x y) once
    rw [blendAll_cons, ih (nodup_blend (fun x => keeps x y) once), step, firsts_firsts_append,
      List.append_assoc]
    rfl

theorem nodup_blendAll (keeps : KeepsKey key join) (once : (xs.map key).Nodup) (ys : List α) :
    ((blendAll key join xs ys).map key).Nodup := by
  rw [map_key_blendAll keeps once]
  simpa using nodup_map_firsts id (xs.map key ++ ys.map key)

/-- The entry of a key is joined from those that the two lists have. -/
theorem withKey?_blendAll (keeps : KeepsKey key join) (once : (ys.map key).Nodup) (k : κ)
    (xs : List α) :
    withKey? key k (blendAll key join xs ys)
      = Option.merge join (withKey? key k xs) (withKey? key k ys) := by
  induction ys generalizing xs with
  | nil =>
    rw [blendAll_nil, withKey?_nil]
    cases withKey? key k xs <;> rfl
  | cons y ys ih =>
    rw [List.map_cons, List.nodup_cons] at once
    rw [blendAll_cons, ih once.2, withKey?_blend fun x => keeps x y, withKey?_cons]
    by_cases h : key y = k
    · have later : withKey? key k ys = none := withKey?_eq_none.mpr (h ▸ once.1)
      rw [if_pos h, if_pos h, later]
      cases withKey? key k xs <;> rfl
    · rw [if_neg h, if_neg h]

/-- What holds of all entries, and of an entry that is joined with one of the second list, holds of
the blended ones. -/
theorem forall_mem_blendAll {P : α → Prop} (hxs : ∀ x ∈ xs, P x) (hys : ∀ y ∈ ys, P y)
    (joined : ∀ x, ∀ y ∈ ys, key x = key y → P x → P (join x y)) :
    ∀ z ∈ blendAll key join xs ys, P z := by
  induction ys generalizing xs with
  | nil => exact hxs
  | cons y ys ih =>
    rw [List.forall_mem_cons] at hys
    have first := forall_mem_blend (fun x => joined x y List.mem_cons_self) hxs hys.1
    exact ih first hys.2 fun x z hz => joined x z (List.mem_cons_of_mem y hz)

theorem blendAll_of_nodup (keeps : KeepsKey key join) (once : (xs.map key).Nodup) :
    blendAll key join [] xs = xs := by
  have start : (([] : List α).map key).Nodup := List.nodup_nil
  refine eq_of_entries ?_ (nodup_blendAll keeps start xs) fun k => ?_
  · rw [map_key_blendAll keeps start]
    exact (firsts_of_nodup (by simpa using once)).trans (List.nil_append _)
  · rw [withKey?_blendAll keeps once]
    cases withKey? key k xs <;> rfl

/-- A blend is associative where the join is, on entries of one key. -/
theorem blendAll_assoc (keeps : KeepsKey key join) (hxs : (xs.map key).Nodup)
    (hys : (ys.map key).Nodup) (hzs : (zs.map key).Nodup)
    (assoc : ∀ x ∈ xs, ∀ y ∈ ys, ∀ z ∈ zs, key x = key y → key y = key z →
      join (join x y) z = join x (join y z)) :
    blendAll key join (blendAll key join xs ys) zs
      = blendAll key join xs (blendAll key join ys zs) := by
  have hxy := nodup_blendAll keeps hxs ys
  have hyz := nodup_blendAll keeps hys zs
  refine eq_of_entries ?_ (nodup_blendAll keeps hxy zs) fun k => ?_
  · rw [map_key_blendAll keeps hxy, map_key_blendAll keeps hxs, map_key_blendAll keeps hxs,
      map_key_blendAll keeps hys, firsts_firsts_append, firsts_append_firsts, List.append_assoc]
  · rw [withKey?_blendAll keeps hzs, withKey?_blendAll keeps hys, withKey?_blendAll keeps hyz,
      withKey?_blendAll keeps hzs]
    cases hx : withKey? key k xs with
    | none => cases withKey? key k ys <;> cases withKey? key k zs <;> rfl
    | some x =>
      cases hy : withKey? key k ys with
      | none => cases withKey? key k zs <;> rfl
      | some y =>
        cases hz : withKey? key k zs with
        | none => rfl
        | some z =>
          obtain ⟨memx, keyx⟩ := mem_of_withKey? hx
          obtain ⟨memy, keyy⟩ := mem_of_withKey? hy
          obtain ⟨memz, keyz⟩ := mem_of_withKey? hz
          exact congrArg some (assoc x memx y memy z memz (keyx.trans keyy.symm)
            (keyy.trans keyz.symm))

theorem blendAll_self (keeps : KeepsKey key join) (once : (xs.map key).Nodup)
    (self : ∀ x ∈ xs, join x x = x) : blendAll key join xs xs = xs := by
  refine (eq_of_entries ?_ once fun k => ?_).symm
  · rw [map_key_blendAll keeps once, firsts_append]
    have same : firsts id (xs.map key) = xs.map key := firsts_of_nodup (by simpa using once)
    rw [same, List.filter_eq_nil_iff.mpr, List.append_nil]
    intro k hk
    simpa using hk
  · rw [withKey?_blendAll keeps once]
    cases h : withKey? key k xs with
    | none => rfl
    | some x => exact congrArg some (self x (mem_of_withKey? h).1).symm

end SelectionTree
