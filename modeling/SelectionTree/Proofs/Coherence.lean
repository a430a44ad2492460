import Mathlib.Data.List.Triplewise
import SelectionTree.Proofs.Gathering
import SelectionTree.Proofs.Merging
import SelectionTree.Schema
/-!
Operations whose fields may be grouped in any way. Merges depend on their order where fields that
come together disagree: in the type below them, and where two fields that would be merged are
parted by one that takes their place. Three levels may be gathered from either side if fields that
come of all three do not disagree.
-/
set_option autoImplicit false

namespace SelectionTree

theorem triplewise_of_sublist {α : Type} {p : α → α → α → Prop} {xs ys : List α}
    (sub : xs.Sublist ys) (h : ys.Triplewise p) : xs.Triplewise p := by
  induction sub with
  | slnil => exact h
  | cons y _ ih => exact ih (List.triplewise_cons.mp h).2
  | cons_cons y sub ih =>
    obtain ⟨here, rest⟩ := List.triplewise_cons.mp h
    exact .cons (here.sublist sub) (ih rest)

instance decidableTriplewise {α : Type} {p : α → α → α → Prop} [∀ x y z, Decidable (p x y z)] :
    (xs : List α) → Decidable (xs.Triplewise p)
  | [] => .isTrue .nil
  | x :: xs =>
    have : Decidable (xs.Triplewise p) := decidableTriplewise xs
    decidable_of_iff (xs.Pairwise (p x) ∧ xs.Triplewise p) List.triplewise_cons.symm

def Request.typeBelow? (q : Request) (s : Selected) : Option Composite :=
  q.registry.nested? s.place.parent s.place.condition s.head.name

namespace Visit

/-- The keys from the root to this field. -/
def keys (v : Visit) : List String := v.trail.map Selected.key

def stem (v : Visit) : List String := v.above.map Selected.key

theorem keys_eq (v : Visit) : v.keys = v.stem ++ [v.here.key] := List.map_append

/-- Fields that have one response name in lists that may be merged. -/
def Rivals (v w : Visit) : Prop := v.stem = w.stem ∧ v.here.responseName = w.here.responseName

instance (v w : Visit) : Decidable (v.Rivals w) :=
  inferInstanceAs (Decidable (_ ∧ _))

end Visit

/-- What a walk from below some fields meets may be grouped in any way. Fields with the same keys
agree in the type below them. Where more than one field has the same keys, fields below them with
one response name and one type condition are not parted by one with another condition; and of the
fields that are not below others, those with selections are not parted by one without. -/
structure Coherent (q : Request) (above : List Selected) (visits : List Visit) : Prop where
  type : ∀ v ∈ visits, ∀ w ∈ visits, v.keys = w.keys → v.here.body ≠ [] → w.here.body ≠ [] →
    q.typeBelow? v.here = q.typeBelow? w.here
  condition : visits.Triplewise fun v w u => v.Rivals w → w.Rivals u →
    1 < (visits.map Visit.keys).count v.stem →
      v.here.place.condition = u.here.place.condition →
        w.here.place.condition = v.here.place.condition
  full : visits.Triplewise fun v w u => v.stem = above.map Selected.key → v.keys = w.keys →
    w.keys = u.keys → v.here.body ≠ [] → u.here.body ≠ [] → w.here.body ≠ []

theorem coherent_iff {q : Request} {above : List Selected} {visits : List Visit} :
    Coherent q above visits ↔
      (∀ v ∈ visits, ∀ w ∈ visits, v.keys = w.keys → v.here.body ≠ [] → w.here.body ≠ [] →
        q.typeBelow? v.here = q.typeBelow? w.here) ∧
      (visits.Triplewise fun v w u => v.Rivals w → w.Rivals u →
        1 < (visits.map Visit.keys).count v.stem →
          v.here.place.condition = u.here.place.condition →
            w.here.place.condition = v.here.place.condition) ∧
      visits.Triplewise fun v w u => v.stem = above.map Selected.key → v.keys = w.keys →
        w.keys = u.keys → v.here.body ≠ [] → u.here.body ≠ [] → w.here.body ≠ [] :=
  ⟨fun h => ⟨h.type, h.condition, h.full⟩, fun h => ⟨h.1, h.2.1, h.2.2⟩⟩

instance (q : Request) (above : List Selected) (visits : List Visit) :
    Decidable (Coherent q above visits) :=
  @decidable_of_iff _ _ coherent_iff.symm (@instDecidableAnd _ _ inferInstance
    (@instDecidableAnd _ _ inferInstance inferInstance))

/-- The keys down to the field just below the given fields that a field is or stands below. -/
def Visit.root (base : List Selected) (v : Visit) : List String := v.keys.take (base.length + 1)

/-- A field that is or stands below one whose keys all three walks meet. Where the last two fail
together it is enough that the first one meets them. -/
def Shared (base : List Selected) (fails : Bool) (first second third : List Visit) (w : Visit) :
    Prop :=
  w.root base ∈ first.map Visit.keys ∧
    (fails ∨ w.root base ∈ second.map Visit.keys ∧ w.root base ∈ third.map Visit.keys)

instance (base : List Selected) (fails : Bool) (first second third : List Visit) (w : Visit) :
    Decidable (Shared base fails first second third w) :=
  inferInstanceAs (Decidable (_ ∧ _))

/-- What three walks from below some fields meet one after the other may be grouped either way.
Below keys that they share, fields of the last two agree with all fields in the type below them.
If the last two walks do not fail together, a field of the first one with selections and one of the
others that would be merged with it are not parted: neither by one with another type condition,
below fields that both of the others meet, nor by one without selections on the level itself. -/
structure Mingles (q : Request) (base : List Selected) (fails : Bool)
    (first second third : List Visit) : Prop where
  type : ∀ v ∈ first ++ (second ++ third), ∀ w ∈ second ++ third, v.keys = w.keys →
    Shared base fails first second third w → v.here.body ≠ [] → w.here.body ≠ [] →
      q.typeBelow? v.here = q.typeBelow? w.here
  condition : fails = false → ∀ v ∈ first, v.here.body ≠ [] → v.stem ∈ second.map Visit.keys →
    v.stem ∈ third.map Visit.keys → (second ++ third).Pairwise fun w u =>
      v.Rivals w → w.Rivals u → v.here.place.condition = u.here.place.condition →
        w.here.place.condition = v.here.place.condition
  full : fails = false → ∀ v ∈ first, ∀ w ∈ second, ∀ u ∈ third,
    v.stem = base.map Selected.key → v.keys = w.keys → w.keys = u.keys →
      v.here.body ≠ [] → u.here.body ≠ [] → w.here.body ≠ []

theorem mingles_iff {q : Request} {base : List Selected} {fails : Bool}
    {first second third : List Visit} : Mingles q base fails first second third ↔
      (∀ v ∈ first ++ (second ++ third), ∀ w ∈ second ++ third, v.keys = w.keys →
        Shared base fails first second third w → v.here.body ≠ [] → w.here.body ≠ [] →
          q.typeBelow? v.here = q.typeBelow? w.here) ∧
      (fails = false → ∀ v ∈ first, v.here.body ≠ [] → v.stem ∈ second.map Visit.keys →
        v.stem ∈ third.map Visit.keys → (second ++ third).Pairwise fun w u =>
          v.Rivals w → w.Rivals u → v.here.place.condition = u.here.place.condition →
            w.here.place.condition = v.here.place.condition) ∧
      (fails = false → ∀ v ∈ first, ∀ w ∈ second, ∀ u ∈ third,
        v.stem = base.map Selected.key → v.keys = w.keys → w.keys = u.keys →
          v.here.body ≠ [] → u.here.body ≠ [] → w.here.body ≠ []) :=
  ⟨fun h => ⟨h.type, h.condition, h.full⟩, fun h => ⟨h.1, h.2.1, h.2.2⟩⟩

instance (q : Request) (base : List Selected) (fails : Bool) (first second third : List Visit) :
    Decidable (Mingles q base fails first second third) :=
  @decidable_of_iff _ _ mingles_iff.symm (@instDecidableAnd _ _ inferInstance
    (@instDecidableAnd _ _ inferInstance inferInstance))

/-- Where a level stands: the keys of the fields around it and the type that is selected from. -/
abbrev Ground := List String × Composite

namespace Request

def ground (above : List Selected) (parent : Composite) : Ground :=
  (above.map Selected.key, parent)

structure Brings (q : Request) (i : Ground) (v : Visit) (a : Attributes) : Prop where
  stem : v.stem = i.1
  parent : v.here.place.parent = i.2
  attributes : q.attributes v.here.place v.here.head = a

end Request

structure Stems (q : Request) (own : List Visit) (i : Ground) (a : Attributes) (full : Bool)
    (v : Visit) : Prop extends q.Brings i v a where
  met : v ∈ own
  body : full = true ↔ v.here.body ≠ []
  type : full = true → ∃ type, q.registry.nested? i.2 a.condition a.name = some type

def typeAt (q : Request) (guide : List Visit) (keys : List String) : Option Composite :=
  (guide.find? fun v => v.keys = keys && !v.here.body.isEmpty).bind fun v => q.typeBelow? v.here

def Ground.below? (q : Request) (guide : List Visit) (i : Ground) (a : Attributes) :
    Option Ground :=
  (typeAt q guide (i.1 ++ [a.key i.2.name])).map fun type => (i.1 ++ [a.key i.2.name], type)

theorem Ground.below?_eq {q : Request} {guide : List Visit} {i : Ground} {a b : Attributes}
    (keys : a.key i.2.name = b.key i.2.name) : i.below? q guide a = i.below? q guide b := by
  rw [Ground.below?, Ground.below?, keys]

theorem Attributes.key_eq {a b : Attributes} (name : a.responseName = b.responseName)
    (condition : a.condition = b.condition) (parent : String) : a.key parent = b.key parent := by
  rw [key, key, name, condition]

/-- Nodes that come of some of the fields that are met, as far as the guide knows where they
stand. -/
def stems (q : Request) (guide own : List Visit) : Tracking (Option Ground) where
  holds i a full := ∀ g ∈ i, ∃ v, Stems q own g a full v
  below i a := i.bind fun g => g.below? q guide a
  below_eq {i _ _ _ _} _ _ name condition := by
    cases i with
    | none => rfl
    | some g => exact Ground.below?_eq (Attributes.key_eq name condition _)

def Ordered (q : Request) (own : List Visit) (i : Option Ground) (ns : List Node) : Prop :=
  ∀ g ∈ i, ns.Pairwise fun n m => n.responseName = m.responseName → n.condition ≠ m.condition ∧
    ∃ v w, [v, w].Sublist own ∧ q.Brings g v n.attributes ∧ q.Brings g w m.attributes

structure Grown (q : Request) (guide own : List Visit) (i : Ground) (ns : List Node) : Prop where
  arranged : (stems q guide own).Arranges (Ordered q own) (some i) ns
  once : (ns.map (Node.key · i.2.name)).Nodup

structure Rooted (q : Request) (base : List Selected) (visits : List Visit) : Prop where
  nested : ∀ w ∈ visits, w.here.body ≠ [] → ∃ type, q.typeBelow? w.here = some type
  above : ∀ w ∈ visits, ∀ above s, w.above = above ++ [s] → base.length ≤ above.length →
    Visit.mk above s ∈ visits ∧ s.body ≠ []

structure Guides (q : Request) (base : List Selected) (guide visits : List Visit) : Prop extends
    Rooted q base guide where
  type : ∀ v ∈ visits, ∀ w ∈ guide, v.keys = w.keys → v.here.body ≠ [] → w.here.body ≠ [] →
    q.typeBelow? v.here = q.typeBelow? w.here

def Request.position (q : Request) (base : List Selected) (guide : List Visit)
    (above : List Selected) (parent : Composite) : Option Ground :=
  if above.length ≤ base.length ∨ (typeAt q guide (above.map Selected.key)).isSome then
    some (Request.ground above parent)
  else none

def Ground.type? (i : Option Ground) : Option Composite := i.map Prod.snd

section

variable {q : Request} {base : List Selected} {guide visits own own₀ own₁ own₂ : List Visit}
  {g : Ground} {a b c : Attributes} {x : Bool} {u v w : Visit} {ns : List Node} {n : Node}
  {P P' : Option Ground → List Node → Prop} {i : Option Ground} {parent : Composite}

theorem Request.Brings.keys (h : q.Brings g v a) : v.keys = g.1 ++ [a.key g.2.name] := by
  rw [Visit.keys_eq, h.stem, ← h.attributes, ← h.parent]
  rfl

theorem Request.Brings.rivals (hv : q.Brings g v a) (hw : q.Brings g w b)
    (name : a.responseName = b.responseName) : v.Rivals w := by
  refine ⟨hv.stem.trans hw.stem.symm, ?_⟩
  rw [← hv.attributes, ← hw.attributes] at name
  exact name

theorem Request.Brings.condition (h : q.Brings g v a) : v.here.place.condition = a.condition := by
  rw [← h.attributes]
  rfl

theorem Stems.typeBelow? (h : Stems q own g a x v) :
    q.typeBelow? v.here = q.registry.nested? g.2 a.condition a.name := by
  rw [Request.typeBelow?, h.parent, ← h.attributes]
  rfl

theorem Guides.typeBelow? (guides : Guides q base guide visits) (met : v ∈ visits)
    (full : v.here.body ≠ []) {type : Composite} (known : typeAt q guide v.keys = some type) :
    q.typeBelow? v.here = some type := by
  obtain ⟨w, found, here⟩ := Option.bind_eq_some_iff.mp known
  have same := List.find?_some found
  simp only [Bool.and_eq_true, decide_eq_true_eq, Bool.not_eq_true', List.isEmpty_eq_false_iff]
    at same
  exact (guides.type v met w (List.mem_of_find?_eq_some found) same.1.symm full same.2).trans here

theorem Guides.exists_typeAt (guides : Guides q base guide visits) (met : w ∈ guide)
    (full : w.here.body ≠ []) : ∃ type, typeAt q guide w.keys = some type := by
  rw [typeAt]
  cases found : guide.find? fun v => decide (v.keys = w.keys) && !v.here.body.isEmpty with
  | none =>
    have none := List.find?_eq_none.mp found w met
    simp [full] at none
  | some v =>
    have here := List.find?_some found
    simp only [Bool.and_eq_true, Bool.not_eq_true', List.isEmpty_eq_false_iff] at here
    exact guides.nested v (List.mem_of_find?_eq_some found) here.2

/-- A guide that knows the type below some fields knows the types around it. -/
theorem Guides.known_above (guides : Guides q base guide visits) {above : List Selected}
    {key : String} (deep : base.length < above.length)
    (known : (typeAt q guide (above.map Selected.key ++ [key])).isSome) :
    (typeAt q guide (above.map Selected.key)).isSome := by
  obtain ⟨type, known⟩ := Option.isSome_iff_exists.mp known
  obtain ⟨w, found, -⟩ := Option.bind_eq_some_iff.mp known
  have same := List.find?_some found
  simp only [Bool.and_eq_true, decide_eq_true_eq] at same
  obtain ⟨stem, -⟩ := List.append_inj' (w.keys_eq.symm.trans same.1) rfl
  have length : w.above.length = above.length := by
    simpa [Visit.stem] using congrArg List.length stem
  rcases w.above.eq_nil_or_concat with none | ⟨outer, s, around⟩
  · rw [none] at length
    exact absurd (length ▸ deep) (Nat.not_lt_zero _)
  · rw [List.concat_eq_append] at around
    obtain ⟨met, full⟩ := guides.above w (List.mem_of_find?_eq_some found) outer s around (by
      rw [around, List.length_append, List.length_singleton] at length
      omega)
    obtain ⟨type, known⟩ := guides.exists_typeAt met full
    have keys : (Visit.mk outer s).keys = above.map Selected.key := by
      rw [← stem, Visit.stem, around]
      rfl
    exact Option.isSome_iff_exists.mpr ⟨type, keys ▸ known⟩

theorem resolves_stems (guides : Guides q base guide visits) (sub : ∀ v ∈ own, v ∈ visits) :
    (stems q guide own).Resolves q.registry Ground.type? := by
  intro i a parent here holds
  obtain ⟨g, rfl, rfl⟩ := Option.map_eq_some_iff.mp here
  obtain ⟨v, hv⟩ := holds g rfl
  obtain ⟨type, nested⟩ := hv.type rfl
  refine ⟨type, nested, fun known found => ?_⟩
  obtain ⟨g', below, rfl⟩ := Option.map_eq_some_iff.mp found
  obtain ⟨known, there, rfl⟩ := Option.map_eq_some_iff.mp below
  have typed := guides.typeBelow? (sub v hv.met) (hv.body.mp rfl) (hv.keys ▸ there)
  rw [hv.typeBelow?, nested] at typed
  exact (Option.some.inj typed).symm

theorem keyed_stems : (stems q guide own).Keyed (some g) g.2 :=
  fun _ _ _ _ _ _ keys => Ground.below?_eq keys

theorem Request.eq_ground_of_position {above : List Selected}
    (here : g ∈ q.position base guide above parent) : g = Request.ground above parent := by
  rw [position] at here
  split at here
  · exact (Option.some.inj here).symm
  · cases here

theorem Request.position_snoc {above : List Selected} (deep : base.length ≤ above.length)
    (s : Selected) (parent : Composite) :
    q.position base guide (above ++ [s]) parent
      = if (typeAt q guide (above.map Selected.key ++ [s.key])).isSome then
          some (above.map Selected.key ++ [s.key], parent)
        else none := by
  have long : ¬(above ++ [s]).length ≤ base.length := by
    rw [List.length_append, List.length_singleton]
    omega
  simp only [position, ground, List.map_append, List.map_singleton, long, false_or]

theorem follows_stems (guides : Guides q base guide visits) (sub : ∀ v ∈ own, v ∈ visits)
    (deep : ∀ v ∈ own, base.length ≤ v.above.length) :
    (stems q guide own).Follows q (q.position base guide) where
  keyed above parent := by
    rw [Request.position]
    split
    · exact keyed_stems
    · exact fun _ _ _ _ _ _ _ => rfl
  below := by
    intro above place head body type holds full nested
    change (stems q guide own).holds (q.position base guide above place.parent)
      (q.attributes place head) (!body.isEmpty) at holds
    by_cases here : above.length ≤ base.length ∨ (typeAt q guide (above.map Selected.key)).isSome
    · have stands : q.position base guide above place.parent
          = some (Request.ground above place.parent) := if_pos here
      rw [stands] at holds ⊢
      obtain ⟨v, hv⟩ := holds _ rfl
      have reached : v.above.length = above.length := by
        simpa [Visit.stem, Request.ground] using congrArg List.length hv.stem
      have below : (stems q guide own).below (some (Request.ground above place.parent))
          (q.attributes place head)
            = (typeAt q guide (above.map Selected.key ++ [Selected.key ⟨place, head, body⟩])).map
                fun type => (above.map Selected.key ++ [Selected.key ⟨place, head, body⟩], type) :=
        rfl
      rw [Request.position_snoc (reached ▸ deep v hv.met), below]
      cases known : typeAt q guide
          (above.map Selected.key ++ [Selected.key ⟨place, head, body⟩]) with
      | none => rfl
      | some known' =>
        have typed := guides.typeBelow? (sub v hv.met) (hv.body.mp (by simpa using full))
          (hv.keys ▸ known)
        rw [hv.typeBelow?] at typed
        obtain rfl := Option.some.inj (nested.symm.trans typed)
        rfl
    · -- a guide that does not know the types here knows none below
      obtain ⟨long, unknown⟩ := not_or.mp here
      have deep := Nat.lt_of_not_le long
      have stands : q.position base guide above place.parent = none := if_neg here
      rw [stands, Request.position_snoc (Nat.le_of_lt deep),
        if_neg fun known => unknown (guides.known_above deep known)]
      rfl

theorem Ordered.mono (h : Ordered q own i ns) (sub : own.Sublist own₀) : Ordered q own₀ i ns :=
  fun g hg => (h g hg).imp fun here name => (here name).imp_right fun ⟨v, w, order, hv, hw⟩ =>
    ⟨v, w, order.trans sub, hv, hw⟩

theorem ordered_of_nodup (once : (ns.map Node.responseName).Nodup) : Ordered q own i ns :=
  fun _ _ => (List.pairwise_map.mp once).imp fun other name => absurd name other

theorem settles_stems : (stems q guide own).Settles (Ordered q own) :=
  fun _ _ _ _ _ once _ => ordered_of_nodup once

theorem arranged_mono (sub : ∀ v ∈ own, v ∈ own₀) (list : ∀ i ns, P i ns → P' i ns)
    (h : n.Arranged (stems q guide own) P i) : n.Arranged (stems q guide own₀) P' i := by
  have more : ∀ {i a x}, (stems q guide own).holds i a x → (stems q guide own₀).holds i a x :=
    fun holds g hg => (holds g hg).imp fun v h => { h with met := sub v h.met }
  induction h with
  | leaf here => exact .leaf (more here)
  | branch here inside _ ih => exact .branch (more here) (list _ _ inside) ih

theorem below_stems {type : Composite}
    (known : typeAt q guide (g.1 ++ [a.key g.2.name]) = some type) :
    (stems q guide own).below (some g) a = some (g.1 ++ [a.key g.2.name], type) := by
  have below : (stems q guide own).below (some g) a = g.below? q guide a := rfl
  rw [below, Ground.below?, known, Option.map_some]

/-- Below a node that comes of fields of the guide, the types are known. -/
theorem known_of_arranged (guides : Guides q base guide visits)
    (h : n.Arranged (stems q guide own) P i) :
    ∀ g, i = some g → (∀ v ∈ own, g.1 ++ [n.key g.2.name] <+: v.keys → v ∈ guide) →
      n.Arranged (stems q guide own) (fun i ns => P i ns ∧ Tracking.Known Ground.type? i ns) i := by
  induction h with
  | leaf here => exact fun _ _ _ => .leaf here
  | @branch i a children here list _ ih =>
    rintro g rfl within
    obtain ⟨v, hv⟩ := here g rfl
    have met := within v hv.met (hv.keys ▸ List.prefix_refl _)
    obtain ⟨type, known⟩ := guides.exists_typeAt met (hv.body.mp rfl)
    have below : (stems q guide own).below (some g) a = some (g.1 ++ [a.key g.2.name], type) :=
      below_stems (hv.keys ▸ known)
    refine .branch here ⟨list, ?_⟩ fun m hm => ih m hm _ below fun w hw stands => ?_
    · rw [Tracking.Known, below]
      rfl
    · exact within w hw ((List.prefix_append _ _).trans stands)

end

end SelectionTree
