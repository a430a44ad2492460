import SelectionTree.Proofs.Overlay
/-!
Gathering, errors included. A list that others are added to fails with the first entry that cannot
be joined with the one of its key. So it only matters for the grouping of three lists what happens
to keys that all of them have.
-/
set_option autoImplicit false

namespace SelectionTree

variable {α κ ε : Type}

theorem findSome?_congr {xs : List α} {f g : α → Option ε} (same : ∀ x ∈ xs, f x = g x) :
    xs.findSome? f = xs.findSome? g := by
  induction xs with
  | nil => rfl
  | cons x xs ih =>
    rw [List.forall_mem_cons] at same
    rw [List.findSome?_cons, List.findSome?_cons, same.1, ih same.2]

variable [DecidableEq κ]

theorem findSome?_firsts (ks : List κ) (f : κ → Option ε) :
    (firsts id ks).findSome? f = ks.findSome? f := by
  induction ks using List.reverseRecOn with
  | nil => rfl
  | append_singleton ks k ih =>
    rw [firsts_snoc, List.findSome?_append, ← ih]
    split
    · next old =>
      cases found : (firsts id ks).findSome? f with
      | some e => rfl
      | none =>
        -- what has been dropped has been looked at before
        have mem : k ∈ firsts id ks := by simpa using (mem_map_firsts id ks k).mpr old
        simp [List.findSome?_eq_none_iff.mp found k mem]
    · rw [List.findSome?_append]

def upsertAll (key : α → κ) (join : α → α → Except ε α) (xs ys : List α) : Except ε (List α) :=
  ys.foldlM (fun xs y => upsert (fun x => decide (key x = key y)) (fun x => join x y) y xs) xs

def failure? (result : Except ε α) : Option ε :=
  match result with
  | .ok _ => none
  | .error e => some e

/-- The error that keeps the entries of a key from being joined. -/
def clash? (key : α → κ) (join : α → α → Except ε α) (xs ys : List α) (k : κ) : Option ε :=
  (withKey? key k xs).bind fun x => (withKey? key k ys).bind fun y => failure? (join x y)

def Joinable (join : α → α → Except ε α) (x y : α) : Prop := ∃ z, join x y = .ok z

variable {key : α → κ} {join : α → α → Except ε α} {f : α → α → α} {xs ys zs ws : List α} {e : ε}
  {x y z : α} {k : κ}

theorem Joinable.failure? (h : Joinable join x y) : SelectionTree.failure? (join x y) = none := by
  obtain ⟨z, joined⟩ := h
  rw [joined]
  rfl

theorem clash?_of_joinable
    (h : ∀ x ∈ xs, ∀ y ∈ ys, key x = k → key y = k → Joinable join x y) :
    clash? key join xs ys k = none := by
  rw [clash?]
  cases hx : withKey? key k xs with
  | none => rfl
  | some x =>
    cases hy : withKey? key k ys with
    | none => rfl
    | some y =>
      obtain ⟨memx, keyx⟩ := mem_of_withKey? hx
      obtain ⟨memy, keyy⟩ := mem_of_withKey? hy
      exact (h x memx y memy keyx keyy).failure?

theorem upsert_eq_elim (total : ∀ x y z, join x y = .ok z → z = f x y) (y : α) (xs : List α) :
    upsert (fun x => decide (key x = key y)) (fun x => join x y) y xs
      = (clash? key join xs [y] (key y)).elim (.ok (blend key (fun x => f x y) y xs)) .error := by
  have single : withKey? key (key y) [y] = some y := by rw [withKey?_cons, if_pos rfl]
  rw [clash?, single]
  induction xs with
  | nil => rfl
  | cons x xs ih =>
    rw [upsert, withKey?_cons, blend]
    by_cases here : key x = key y
    · rw [if_pos (decide_eq_true here), if_pos here, if_pos here]
      cases joined : join x y with
      | error e => simp [SelectionTree.failure?, joined]
      | ok z =>
        obtain rfl := total x y z joined
        simp only [SelectionTree.failure?, joined, Option.bind_some, Option.elim_none, ok_bind]
        rfl
    · rw [if_neg (by simpa using here), if_neg here, if_neg here, ih]
      cases (withKey? key (key y) xs).bind fun x => (some y).bind fun y => failure? (join x y) <;>
        rfl

section

variable (keeps : KeepsKey key f) (total : ∀ x y z, join x y = .ok z → z = f x y)
include keeps total

/-- The first clash decides how gathering ends. -/
theorem upsertAll_eq (once : (ys.map key).Nodup) (xs : List α) :
    upsertAll key join xs ys = ((ys.map key).findSome? (clash? key join xs ys)).elim
      (.ok (blendAll key f xs ys)) .error := by
  induction ys generalizing xs with
  | nil => rfl
  | cons y ys ih =>
    rw [List.map_cons, List.nodup_cons] at once
    have first : clash? key join xs (y :: ys) (key y) = clash? key join xs [y] (key y) := by
      simp only [clash?, withKey?_cons, if_pos]
    have later : ∀ k ∈ ys.map key,
        clash? key join xs (y :: ys) k
          = clash? key join (blend key (fun x => f x y) y xs) ys k := fun k hk => by
      have other : key y ≠ k := fun same => once.1 (same ▸ hk)
      rw [clash?, clash?, withKey?_cons, if_neg other, withKey?_blend fun x => keeps x y,
        if_neg other]
    rw [upsertAll, List.foldlM_cons, upsert_eq_elim total, List.map_cons, List.findSome?_cons,
      first]
    cases clash? key join xs [y] (key y) with
    | some e => rfl
    | none =>
      rw [findSome?_congr later, blendAll_cons]
      exact ih once.2 _

theorem upsertAll_eq_ok (once : (ys.map key).Nodup) : upsertAll key join xs ys = .ok ws ↔
    (ys.map key).findSome? (clash? key join xs ys) = none ∧ ws = blendAll key f xs ys := by
  rw [upsertAll_eq keeps total once]
  cases (ys.map key).findSome? (clash? key join xs ys) with
  | some e => simp
  | none => simpa using eq_comm

theorem upsertAll_eq_error (once : (ys.map key).Nodup) : upsertAll key join xs ys = .error e ↔
    (ys.map key).findSome? (clash? key join xs ys) = some e := by
  rw [upsertAll_eq keeps total once]
  cases (ys.map key).findSome? (clash? key join xs ys) <;> simp

theorem upsertAll_of_joinable (once : (ys.map key).Nodup)
    (joins : ∀ x ∈ xs, ∀ y ∈ ys, key x = key y → Joinable join x y) :
    upsertAll key join xs ys = .ok (blendAll key f xs ys) := by
  refine (upsertAll_eq_ok keeps total once).mpr ⟨List.findSome?_eq_none_iff.mpr fun k _ => ?_, rfl⟩
  exact clash?_of_joinable fun x hx y hy keyx keyy => joins x hx y hy (keyx.trans keyy.symm)

/-- Where two lists have been gathered, a list in front of them may be gathered with both of them or
with one after the other, if entries that come of all three may be joined either way. -/
theorem upsertAll_upsertAll (hxs : (xs.map key).Nodup) (hys : (ys.map key).Nodup)
    (hzs : (zs.map key).Nodup)
    (meet : ∀ x ∈ xs, ∀ y ∈ ys, ∀ z ∈ zs, key x = key y → key y = key z →
      Joinable join x y ∧ Joinable join (f x y) z ∧ Joinable join x (f y z) ∧
        f (f x y) z = f x (f y z))
    (gathered : upsertAll key join ys zs = .ok ws) :
    upsertAll key join xs ws
      = upsertAll key join xs ys >>= fun left => upsertAll key join left zs := by
  obtain ⟨none, rfl⟩ := (upsertAll_eq_ok keeps total hzs).mp gathered
  have hws := nodup_blendAll keeps hys zs
  have entry := fun k => withKey?_blendAll keeps hzs k ys
  have entry' := fun k => withKey?_blendAll keeps hys k xs
  have meets : ∀ {k x y z}, withKey? key k xs = some x → withKey? key k ys = some y →
      withKey? key k zs = some z →
      Joinable join x y ∧ Joinable join (f x y) z ∧ Joinable join x (f y z) := fun hx hy hz => by
    obtain ⟨memx, keyx⟩ := mem_of_withKey? hx
    obtain ⟨memy, keyy⟩ := mem_of_withKey? hy
    obtain ⟨memz, keyz⟩ := mem_of_withKey? hz
    obtain ⟨first, second, third, -⟩ := meet _ memx _ memy _ memz (keyx.trans keyy.symm)
      (keyy.trans keyz.symm)
    exact ⟨first, second, third⟩
  have left : ∀ k ∈ ys.map key,
      clash? key join xs (blendAll key f ys zs) k = clash? key join xs ys k := fun k hk => by
    rw [clash?, clash?, entry]
    cases hx : withKey? key k xs with
    | none => rfl
    | some x =>
      cases hy : withKey? key k ys with
      | none => exact absurd hk (withKey?_eq_none.mp hy)
      | some y =>
        cases hz : withKey? key k zs with
        | none => rfl
        | some z =>
          obtain ⟨first, -, third⟩ := meets hx hy hz
          exact third.failure?.trans first.failure?.symm
  have right : ∀ k ∈ zs.map key, clash? key join xs (blendAll key f ys zs) k
      = clash? key join (blendAll key f xs ys) zs k := fun k hk => by
    have inner := List.findSome?_eq_none_iff.mp none k hk
    rw [clash?, clash?, entry, entry']
    cases hz : withKey? key k zs with
    | none => exact absurd hk (withKey?_eq_none.mp hz)
    | some z =>
      cases hy : withKey? key k ys with
      | none => cases withKey? key k xs <;> rfl
      | some y =>
        rw [clash?, hy, hz] at inner
        cases hx : withKey? key k xs with
        | none => exact inner.symm
        | some x =>
          obtain ⟨-, second, third⟩ := meets hx hy hz
          exact third.failure?.trans second.failure?.symm
  rw [upsertAll_eq keeps total hws, upsertAll_eq keeps total hys, map_key_blendAll keeps hys,
    findSome?_firsts, List.findSome?_append, findSome?_congr left, findSome?_congr right]
  cases (ys.map key).findSome? (clash? key join xs ys) with
  | some e => rfl
  | none =>
    rw [Option.elim_none, ok_bind, upsertAll_eq keeps total hzs, Option.none_or,
      blendAll_assoc keeps hxs hys hzs fun x hx y hy z hz same same' =>
        (meet x hx y hy z hz same same').2.2.2]

/-- Where two lists cannot be gathered, they cannot with a list in front of them either, and for the
same reason, if entries that come of the first list can always be joined. -/
theorem upsertAll_upsertAll_error (hys : (ys.map key).Nodup) (hzs : (zs.map key).Nodup)
    (first : ∀ x ∈ xs, ∀ y ∈ ys, key x = key y → Joinable join x y)
    (second : ∀ x ∈ xs, ∀ z ∈ zs, key x = key z → Joinable join x z)
    (both : ∀ x ∈ xs, ∀ y ∈ ys, ∀ z ∈ zs, key x = key y → key y = key z →
      Joinable join y z ∧ Joinable join (f x y) z)
    (failed : upsertAll key join ys zs = .error e) :
    (upsertAll key join xs ys >>= fun left => upsertAll key join left zs) = .error e := by
  have same : ∀ k ∈ zs.map key,
      clash? key join (blendAll key f xs ys) zs k = clash? key join ys zs k := fun k hk => by
    rw [clash?, clash?, withKey?_blendAll keeps hys]
    cases hx : withKey? key k xs with
    | none => cases withKey? key k ys <;> rfl
    | some x =>
      cases hz : withKey? key k zs with
      | none => exact absurd hk (withKey?_eq_none.mp hz)
      | some z =>
        obtain ⟨memx, keyx⟩ := mem_of_withKey? hx
        obtain ⟨memz, keyz⟩ := mem_of_withKey? hz
        cases hy : withKey? key k ys with
        | none => exact (second x memx z memz (keyx.trans keyz.symm)).failure?
        | some y =>
          obtain ⟨memy, keyy⟩ := mem_of_withKey? hy
          obtain ⟨inner, outer⟩ := both x memx y memy z memz (keyx.trans keyy.symm)
            (keyy.trans keyz.symm)
          exact outer.failure?.trans inner.failure?.symm
  rw [upsertAll_of_joinable keeps total hys first, ok_bind, upsertAll_eq_error keeps total hzs,
    findSome?_congr same]
  exact (upsertAll_eq_error keeps total hzs).mp failed

end

namespace Request

variable {q : Request} {place : Place}

def absorb (q : Request) (place : Place) (first again : Node) : Except ConversionError Node :=
  (Node.absorb q.registry place.parent place.path again first).outcome

theorem outcome_addAll (level ns : List Node) :
    (q.addAll place level ns).outcome
      = upsertAll (Node.key · place.parent.name) (q.absorb place) level ns := by
  induction ns generalizing level with
  | nil => rfl
  | cons n rest ih =>
    rw [outcome_addAll_cons, upsertAll, List.foldlM_cons, add, Node.outcome_addToLevel]
    exact congrArg _ (funext fun next => ih next)

end Request

end SelectionTree
