import SelectionTree.Proofs.Merging
import SelectionTree.Schema
/-!
Conversions and walks end in the same way: in a tree if the walk of the operation meets no offence,
else in the error of the first offence. Merges look types up again, but they never find another
type than the walk, nor none, as long as fields that are told apart by nothing have one name.
-/
set_option autoImplicit false

namespace SelectionTree

namespace Registry

/-- Every type that is found has the name it is found under. -/
def Named (r : Registry) : Prop := ∀ ⦃name type⦄, r.type? name = some type → type.name = name

variable {r : Registry} {parent type : Composite} {condition : Option String} {field : String}

/-- A type condition that names the type around it changes nothing. -/
theorem owner?_eq (found : r.type? parent.name = some parent) :
    r.owner? parent condition = r.type? (condition.getD parent.name) := by
  cases condition with
  | none => exact found.symm
  | some name => rfl

theorem nested?_eq (found : r.type? parent.name = some parent) {other : Option String}
    (same : condition.getD parent.name = other.getD parent.name) :
    r.nested? parent condition field = r.nested? parent other field := by
  rw [nested?, nested?, declared?, declared?, owner?_eq found, owner?_eq found, same]

theorem Named.type?_nested? (named : r.Named) (h : r.nested? parent condition field = some type) :
    r.type? type.name = some type := by
  rw [nested?, Option.bind_eq_some_iff] at h
  obtain ⟨declared, -, h⟩ := h
  rw [named h, h]

end Registry

namespace Schema

theorem named_registry (s : Schema) : s.registry.Named := by
  intro name type h
  obtain ⟨entry, -, rfl⟩ := Option.map_eq_some_iff.mp h
  rfl

theorem type?_root? {s : Schema} {kind : OperationKind} {root : Composite}
    (h : s.registry.root? kind = some root) : s.registry.type? root.name = some root := by
  obtain ⟨name, -, h⟩ := Option.bind_eq_some_iff.mp h
  rw [s.named_registry h]
  exact h

end Schema

theorem intercalate_ne_empty {x : String} {xs : List String} (h : x ≠ "") :
    ".".intercalate (x :: xs) ≠ "" := by
  cases xs with
  | nil => simpa using h
  | cons y ys => simp [String.intercalate_cons_cons, h]

theorem joinPath_intercalate {names : List String} (h : ∀ x ∈ names, x ≠ "") (x : String) :
    joinPath (".".intercalate names) x = ".".intercalate (names ++ [x]) := by
  cases names with
  | nil => simp [joinPath]
  | cons y ys =>
    rw [joinPath, if_neg (intercalate_ne_empty (h y List.mem_cons_self)),
      String.intercalate_append_of_ne_nil (by simp) (by simp), String.intercalate_singleton]

namespace Walk

variable {α β γ : Type} {w w' : Walk} {x : Except ConversionError α}

/-- The computation ends well if the walk does, and in the error of the offence otherwise. -/
def Decides (w : Walk) (x : Except ConversionError α) : Prop :=
  (w.offence = none → ∃ a, x = .ok a) ∧ ∀ o, w.offence = some o → x = .error o.error

theorem Decides.ended (h : w.Decides x) {a : α} (ok : x = .ok a) : w.offence = none := by
  cases offence : w.offence with
  | none => rfl
  | some o => cases (h.2 o offence).symm.trans ok

theorem decides_ok (a : α) : ({} : Walk).Decides (.ok a : Except ConversionError α) :=
  ⟨fun _ => ⟨a, rfl⟩, fun _ h => nomatch h⟩

theorem decides_stopped (o : Offence) :
    (stopped o).Decides (.error o.error : Except ConversionError α) := by
  refine ⟨fun h => ?_, fun o' h => ?_⟩
  · cases h
  · cases h
    rfl

theorem Decides.visit (h : w.Decides x) (v : Visit) : (w.visit v).Decides x := h

theorem Decides.bind {f : α → Except ConversionError β} (h : w.Decides x)
    (next : ∀ a, x = .ok a → ∃ b, f a = .ok b) : w.Decides (x >>= f) := by
  refine ⟨fun ended => ?_, fun o offence => ?_⟩
  · obtain ⟨a, rfl⟩ := h.1 ended
    exact next a rfl
  · rw [h.2 o offence]
    rfl

/-- Walks that decide two parts decide the whole, if what lies between the parts cannot fail. -/
theorem Decides.andThen {g : α → Except ConversionError β} {f : β → Except ConversionError γ}
    (h : w.Decides x) (next : ∀ a, x = .ok a → ∃ b, g a = .ok b ∧ w'.Decides (f b)) :
    (w.andThen w').Decides (x >>= fun a => g a >>= f) := by
  rw [Decides, offence_andThen]
  cases offence : w.offence with
  | none =>
    obtain ⟨a, rfl⟩ := h.1 offence
    obtain ⟨b, hb, next⟩ := next a rfl
    rw [ok_bind, hb]
    exact next
  | some o =>
    rw [h.2 o offence]
    refine ⟨fun h => ?_, fun o' h => ?_⟩
    · cases h
    · cases h
      rfl

end Walk

/-- Where a level stands: the slots of the fields around it and the type that is selected from. -/
abbrev Standing := List (String × String) × Composite

structure Met (r : Registry) (visits : List Visit) (i : Standing) (a : Attributes) (full : Bool) :
    Prop where
  known : r.type? i.2.name = some i.2
  visit : ∃ v ∈ visits, v.slots = i.1 ++ [a.slot i.2.name] ∧ v.here.head.name = a.name
  nested : full = true → ∃ type, r.nested? i.2 a.condition a.name = some type

def Standing.below (r : Registry) (i : Standing) (a : Attributes) : Standing :=
  (i.1 ++ [a.slot i.2.name], (r.nested? i.2 a.condition a.name).getD i.2)

/-- Fields with the same slots on the way from the root have one name. -/
def SameNames (visits : List Visit) : Prop :=
  ∀ v ∈ visits, ∀ w ∈ visits, v.slots = w.slots → v.here.head.name = w.here.head.name

section Standing

variable {r : Registry} {visits : List Visit} {i : Standing} {a b : Attributes} {x y : Bool}

theorem below_eq_of_slot_eq (agree : SameNames visits) (ha : Met r visits i a x)
    (hb : Met r visits i b y) (same : a.slot i.2.name = b.slot i.2.name) :
    i.below r a = i.below r b := by
  obtain ⟨v, hv, slots, name⟩ := ha.visit
  obtain ⟨w, hw, slots', name'⟩ := hb.visit
  have names : a.name = b.name := by
    rw [← name, ← name', agree v hv w hw (by rw [slots, slots', same])]
  rw [Standing.below, Standing.below, same, names,
    r.nested?_eq ha.known (congrArg Prod.snd same)]

theorem Met.undotted (names : ∀ v ∈ visits, Undotted v.here.responseName)
    (h : Met r visits i a x) : Undotted a.responseName := by
  obtain ⟨v, hv, slots, -⟩ := h.visit
  rw [Visit.slots_eq] at slots
  have slot := (List.append_inj' slots rfl).2
  have name : v.here.responseName = a.responseName := congrArg Prod.fst (List.singleton_inj.mp slot)
  exact name ▸ names v hv

def standings (r : Registry) {visits : List Visit} (agree : SameNames visits) :
    Tracking Standing where
  holds := Met r visits
  below := Standing.below r
  below_eq ha hb name condition := by
    refine below_eq_of_slot_eq agree ha hb ?_
    rw [Attributes.slot, Attributes.slot, name, condition]

theorem resolves_standings (agree : SameNames visits) :
    (standings r agree).Resolves r fun i => some i.2 := by
  intro i a parent here h
  cases here
  obtain ⟨type, nested⟩ := Met.nested h rfl
  exact ⟨type, nested, by simp [standings, Standing.below, nested]⟩

end Standing

namespace Request

variable {q : Request} {above : List Selected} {place : Place} {chain : List String}
  {level nodes : List Node} {visits : List Visit}

def standing (above : List Selected) (parent : Composite) : Standing :=
  (above.map Selected.slot, parent)

theorem follows_standings (agree : SameNames visits)
    (names : ∀ v ∈ visits, Undotted v.here.responseName) :
    (standings q.registry agree).Follows q standing where
  keyed above parent := by
    intro a b x y ha hb keys
    refine below_eq_of_slot_eq agree ha hb ?_
    exact (Attributes.key_eq_key (Met.undotted names ha) (Met.undotted names hb) _).mp keys
  below := by
    intro above place head body type _ _ nested
    have here : q.registry.nested? place.parent (q.attributes place head).condition
        (q.attributes place head).name = some type := nested
    simp only [standing, standings, Standing.below, here, Option.getD_some, List.map_append,
      List.map_singleton]
    rfl

theorem types_of_mem_walk (named : q.registry.Named) {selections : List Selection} {v : Visit}
    (known : q.registry.type? place.parent.name = some place.parent)
    (ended : (q.walk above place chain selections).offence = none)
    (h : v ∈ (q.walk above place chain selections).visits) :
    q.registry.type? v.here.place.parent.name = some v.here.place.parent ∧
      (v.here.body ≠ [] → ∃ type,
        q.registry.nested? v.here.place.parent v.here.place.condition v.here.head.name
          = some type) := by
  obtain ⟨-, -, known⟩ := holds_of_mem_walk
    (C := fun _ place _ _ => q.registry.type? place.parent.name = some place.parent)
    (fun _ _ nested => named.type?_nested? nested) (fun known _ => known) (fun known => known)
    known h
  exact ⟨known, nested_of_mem_walk ended h⟩

theorem holdsAt_of_known (agree : SameNames visits) {v : Visit} (met : v ∈ visits)
    (known : q.registry.type? v.here.place.parent.name = some v.here.place.parent)
    (nested : v.here.body ≠ [] → ∃ type,
      q.registry.nested? v.here.place.parent v.here.place.condition v.here.head.name
        = some type) : (standings q.registry agree).HoldsAt q standing v :=
  ⟨known, ⟨v, met, v.slots_eq, rfl⟩, fun full => nested (by simpa using full)⟩

theorem all_of_expanded (agree : SameNames visits) (named : q.registry.Named)
    (names : ∀ v ∈ visits, Undotted v.here.responseName) {selections : List Selection}
    (expanded : (q.expand place chain [] selections).outcome = .ok nodes)
    (known : q.registry.type? place.parent.name = some place.parent)
    (met : ∀ v ∈ (q.walk above place chain selections).visits, v ∈ visits) :
    (standings q.registry agree).All (standing above place.parent) nodes := by
  refine Tracking.all_expand (follows_standings agree names) (fun v hv => ?_) Tracking.all_nil
    expanded
  obtain ⟨parent, nested⟩ := types_of_mem_walk named known (offence_walk_of_ok above expanded) hv
  exact holdsAt_of_known agree (met v hv) parent nested

theorem decides_node {head : FieldHead} {body : List Selection}
    (path : joinPath place.path head.responseName
      = ".".intercalate (above.map Selected.responseName ++ [head.responseName]))
    (inside : ∀ type, body ≠ [] →
      q.registry.nested? place.parent place.condition head.name = some type →
      (q.walk (above ++ [⟨place, head, body⟩]) (place.below head type) chain body).Decides
        (q.expand (place.below head type) chain [] body).outcome) :
    (q.inside above place chain head body).Decides (q.node place chain head body) := by
  rcases q.inside_cases above place chain head body with
    ⟨rfl, e⟩ | ⟨full, missing, e⟩ | ⟨type, full, nested, e⟩
  · rw [e]
    exact Walk.decides_ok _
  · rw [e, q.node_of_none place chain full missing, path]
    exact Walk.decides_stopped (.mismatch _)
  · rw [e, q.node_of_some place chain full nested]
    exact (inside type full nested).bind fun nodes _ => ⟨_, rfl⟩

/-- An expansion ends as the walk over its selections does. -/
theorem decides_expand (agree : SameNames visits) (named : q.registry.Named)
    (names : ∀ v ∈ visits, v.here.responseName ≠ "" ∧ Undotted v.here.responseName)
    {selections : List Selection} (known : q.registry.type? place.parent.name = some place.parent)
    (reached : ∀ s ∈ above, s.responseName ≠ "")
    (path : place.path = ".".intercalate (above.map Selected.responseName))
    (met : ∀ v ∈ (q.walk above place chain selections).visits, v ∈ visits)
    (hlevel : (standings q.registry agree).All (standing above place.parent) level) :
    (q.walk above place chain selections).Decides
      (q.expand place chain level selections).outcome := by
  have undotted := fun v hv => (names v hv).2
  have follows := follows_standings (q := q) agree undotted
  -- what is added to a tracked level cannot fail, so only the walk decides
  induction place, chain, selections using expand_induction q generalizing above level with
  | nil place chain =>
    rw [walk, outcome_expand_nil]
    exact Walk.decides_ok level
  | field place chain head body rest hbody hrest =>
    have here : Visit.mk above ⟨place, head, body⟩ ∈ visits := met _ here_mem_walk
    have name : head.responseName ≠ "" := (names _ here).1
    have within : ∀ type, body ≠ [] →
        q.registry.nested? place.parent place.condition head.name = some type →
        ∀ v ∈ (q.walk (above ++ [⟨place, head, body⟩]) (place.below head type) chain body).visits,
          v ∈ visits := fun type full nested v hv => met v (mem_walk_of_below full nested hv)
    have below : joinPath place.path head.responseName
        = ".".intercalate (above.map Selected.responseName ++ [head.responseName]) := by
      rw [path]
      exact joinPath_intercalate (by simpa using reached) _
    have inside : ∀ type, body ≠ [] →
        q.registry.nested? place.parent place.condition head.name = some type →
        (q.walk (above ++ [⟨place, head, body⟩]) (place.below head type) chain body).Decides
          (q.expand (place.below head type) chain [] body).outcome := by
      intro type full nested
      refine hbody (place.below head type) (named.type?_nested? nested) ?_ ?_
        (within type full nested) Tracking.all_nil
      · simpa [or_imp, forall_and] using ⟨reached, name⟩
      · rw [List.map_append]
        exact below
    have decides := (decides_node below inside).visit ⟨above, ⟨place, head, body⟩⟩
    rw [walk_field, outcome_expand_field]
    refine decides.andThen fun n hn => ?_
    have tracked : n.Tracked (standings q.registry agree) (standing above place.parent) := by
      refine Tracking.tracked_node follows ?_ (fun type children full nested expanded => ?_) hn
      · refine holdsAt_of_known agree here known fun full => ?_
        rcases node_eq_ok hn with ⟨empty, -⟩ | ⟨type, -, -, nested, -, -⟩
        · exact absurd empty full
        · exact ⟨type, nested⟩
      · exact all_of_expanded agree named undotted expanded (named.type?_nested? nested)
          (within type full nested)
    obtain ⟨next, added⟩ := Tracking.add_succeeds (resolves_standings agree) rfl
      (follows.keyed above _) hlevel (Tracking.arranged_of_tracked (fun _ _ => rfl) tracked)
    refine ⟨next, added, hrest known reached path ?_ ?_⟩
    · exact fun v hv => met v (mem_walk_of_rest (decides.ended hn) hv)
    · exact Tracking.all_add (follows.keyed above _) added hlevel tracked
  | opens place chain s condition chain' body rest opened hbody hrest =>
    rw [walk_opens opened] at met ⊢
    rw [outcome_expand_opens q opened]
    have within := fun v hv => met v (Walk.mem_andThen_left hv)
    have inside := hbody known reached path within Tracking.all_nil
    refine inside.andThen fun nodes expanded => ?_
    have all := all_of_expanded agree named undotted expanded known within
    obtain ⟨next, added⟩ := Tracking.addAll_succeeds (resolves_standings agree) rfl
      (follows.keyed above _) hlevel (all.arranges fun _ _ => rfl)
    refine ⟨next, added, hrest known reached path ?_ ?_⟩
    · exact fun v hv => met v (Walk.mem_andThen_right (inside.ended expanded) hv)
    · exact Tracking.all_addAll (follows.keyed above _) added hlevel all
  | cyclic place chain name rest old _ =>
    rw [walk_spread_of_mem old, outcome_expand_spread_of_mem q place chain level rest old]
    exact Walk.decides_stopped (.cyclic name)
  | undefined place chain name rest new missing _ =>
    rw [walk_spread_of_none new missing,
      outcome_expand_spread_of_none q place chain level rest new missing]
    exact Walk.decides_stopped (.undefined name)

/-- A conversion by a schema ends as the walk of its operation does: in a tree exactly if the walk
meets no offence, in the error of the first offence if it meets one. -/
theorem convert_first_offence {s : Schema} {root : Composite} {operation : Operation}
    (schema : q.registry = s.registry) (rooted : q.registry.root? operation.kind = some root)
    (names : ∀ v ∈ (q.tour root operation).visits,
      v.here.responseName ≠ "" ∧ Undotted v.here.responseName)
    (agree : ∀ v ∈ (q.tour root operation).visits, ∀ w ∈ (q.tour root operation).visits,
      v.slots = w.slots → v.here.head.name = w.here.head.name) :
    ((∃ tree, (q.convert operation).outcome = .ok tree) ↔
        (q.tour root operation).offence = none) ∧
      ∀ o, (q.tour root operation).offence = some o →
        (q.convert operation).outcome = .error o.error := by
  have named : q.registry.Named := schema ▸ s.named_registry
  have known : q.registry.type? root.name = some root := by
    rw [schema] at rooted ⊢
    exact Schema.type?_root? rooted
  have expanded : (q.tour root operation).Decides
      (q.expand ⟨root, "", none⟩ [] [] operation.selections).outcome :=
    decides_expand agree named names known (by simp) rfl (fun _ hv => hv) Tracking.all_nil
  have converted : (q.tour root operation).Decides (q.convert operation).outcome := by
    rw [q.outcome_convert rooted]
    exact expanded.bind fun roots _ => ⟨_, rfl⟩
  exact ⟨⟨fun ⟨tree, ok⟩ => converted.ended ok, converted.1⟩, converted.2⟩

end Request

def Films.offending : Operation where
  kind := .query
  selections :=
    [select "hero" [select "friends" [select "name" []], .inline (some "Character")
       [select "friends" [select "id" []]]],
     select "hero" [select "name" [select "length" []], .spread "Unknown"]]

open Films in
theorem convert_first_offence_hero :
    (request.convert offending).outcome = .error (.schemaMismatch "hero.name") := by
  have rooted : request.registry.root? offending.kind = some root := by cbv
  have names : ∀ v ∈ (request.tour root offending).visits,
      v.here.responseName ≠ "" ∧ Undotted v.here.responseName := by
    have checked : ((request.tour root offending).visits.all fun v =>
        decide (v.here.responseName ≠ "" ∧ Undotted v.here.responseName)) = true := by cbv
    simpa using checked
  have agree : SameNames (request.tour root offending).visits := by
    have checked : ((request.tour root offending).visits.all fun v =>
        (request.tour root offending).visits.all fun w =>
          decide (v.slots = w.slots → v.here.head.name = w.here.head.name)) = true := by cbv
    simpa only [SameNames, List.all_eq_true, decide_eq_true_eq] using checked
  have offence : (request.tour root offending).offence = some (.mismatch ["hero", "name"]) := by
    cbv
  have error : Offence.error (.mismatch ["hero", "name"]) = .schemaMismatch "hero.name" := by cbv
  exact ((Request.convert_first_offence rfl rooted names agree).2 _ offence).trans
    (congrArg _ error)

end SelectionTree
