import SelectionTree.Proofs.Coherence
/-!
Three levels that come of walks over selections at one place. They may be gathered from either side
if what the walks meet mingles: nodes of a key that all three levels have are joined without error,
and what stands below them is merged alike.
-/
set_option autoImplicit false

namespace SelectionTree

section

variable {q : Request} {base : List Selected} {fails : Bool} {chain : List String}
  {guide visits own own₀ own₁ own₂ : List Visit} {g : Ground} {a b c : Attributes}
  {u v w : Visit} {n x y z : Node} {xs ys zs : List Node} {i : Option Ground}

theorem triple_sublist (apart : (own₀ ++ (own₁ ++ own₂)).Sublist visits) (hv : v ∈ own₀)
    (hw : w ∈ own₁) (hu : u ∈ own₂) : [v, w, u].Sublist visits :=
  ((List.singleton_sublist.mpr hv).append
    ((List.singleton_sublist.mpr hw).append (List.singleton_sublist.mpr hu))).trans apart

theorem count_of_mem_of_mem {keys : List String} (apart : (own₁ ++ own₂).Sublist visits)
    (first : keys ∈ own₁.map Visit.keys) (second : keys ∈ own₂.map Visit.keys) :
    1 < (visits.map Visit.keys).count keys := by
  have both : [keys, keys].Sublist (visits.map Visit.keys) := by
    refine List.Sublist.trans ?_ (apart.map Visit.keys)
    rw [List.map_append]
    exact (List.singleton_sublist.mpr first).append (List.singleton_sublist.mpr second)
  exact Nat.lt_of_lt_of_le (by simp) (both.count_le keys)

theorem Coherent.mingles (coherent : Coherent q base visits)
    (apart : (own₀ ++ (own₁ ++ own₂)).Sublist visits) : Mingles q base false own₀ own₁ own₂ where
  type v hv w hw same _ :=
    coherent.type v (apart.subset hv) w (apart.subset (List.mem_append_right _ hw)) same
  condition _ v hv _ twice again := by
    refine List.pairwise_iff_forall_sublist.mpr fun {w u} order rivals rivals' => ?_
    have triple := ((List.singleton_sublist.mpr hv).append order).trans apart
    have here := List.triplewise_triple.mp (triplewise_of_sublist triple coherent.condition)
    exact here rivals rivals' (count_of_mem_of_mem
      ((List.sublist_append_right own₀ _).trans apart) twice again)
  full _ v hv w hw u hu := by
    have triple := triple_sublist apart hv hw hu
    exact List.triplewise_triple.mp (triplewise_of_sublist triple coherent.full)

/-- Below fields that both of the later walks meet, a node that stands between a branch of the first
walk and a node of its name and type condition has that condition, too. -/
theorem Mingles.condition_eq (mingles : Mingles q base false own₀ own₁ own₂)
    (order : [w, u].Sublist (own₁ ++ own₂)) (twice : g.1 ∈ own₁.map Visit.keys)
    (again : g.1 ∈ own₂.map Visit.keys) (hv : Stems q own₀ g a true v) (hw : q.Brings g w b)
    (hu : q.Brings g u c) (name : a.responseName = b.responseName)
    (name' : b.responseName = c.responseName) (same : a.condition = c.condition) :
    b.condition = a.condition := by
  have here := List.pairwise_iff_forall_sublist.mp
    (mingles.condition rfl v hv.met (hv.body.mp rfl) (hv.stem ▸ twice) (hv.stem ▸ again)) order
    (hv.rivals hw name) (hw.rivals hu name')
  rw [hv.condition, hw.condition, hu.condition] at here
  exact here same

theorem Mingles.supersedes (mingles : Mingles q base false own₀ own₁ own₂)
    (sub : own.Sublist (own₁ ++ own₂)) (twice : g.1 ∈ own₁.map Visit.keys)
    (again : g.1 ∈ own₂.map Visit.keys) (hxs : (stems q guide own₀).All (some g) xs)
    (hys : Ordered q own (some g) ys) : Node.Supersedes ys xs := by
  refine (hys g rfl).imp fun {y z} here name => ?_
  obtain ⟨other, w, u, order, hw, hu⟩ := here name
  refine ⟨other, fun x hx full name' same => other ?_⟩
  obtain ⟨v, hv⟩ := Tracking.holds_of_tracked (hxs x hx) g rfl
  rw [full] at hv
  exact (mingles.condition_eq (order.trans sub) twice again hv hw hu (name'.trans name.symm) name
    same).trans same

theorem children_arranged {P : Option Ground → List Node → Prop} {t : Tracking (Option Ground)}
    (h : n.Arranged t P i) (list : ∀ i, P i []) :
    t.Arranges P (t.below i n.attributes) n.children ∧ P (t.below i n.attributes) n.children := by
  cases h with
  | leaf here => exact ⟨Tracking.arranges_nil, list _⟩
  | branch here list inside => exact ⟨inside, list⟩

/-- The children of three nodes of one key are aligned if the types below the second are known. -/
theorem Mingles.aligned (mingles : Mingles q base false own₀ own₁ own₂)
    (hx : x.Tracked (stems q guide own₀) i) : ∀ g, i = some g → ∀ y z : Node,
      y.Arranged (stems q guide own₁)
        (fun i ns => Ordered q own₁ i ns ∧ Tracking.Known Ground.type? i ns) (some g) →
      z.Arranged (stems q guide own₂) (Ordered q own₂) (some g) →
      x.key g.2.name = y.key g.2.name → y.key g.2.name = z.key g.2.name →
      x.children?.isSome → y.children?.isSome →
      Node.Aligned x.children y.children z.children := by
  induction hx with
  | leaf _ => intro _ _ _ _ _ _ _ _ full; cases full
  | @branch i a children here inside ih =>
    rintro g rfl y z hy hz hxy hyz - full
    cases hy with
    | leaf _ => cases full
    | @branch _ b more stands list inside' =>
      obtain ⟨ordery, known⟩ := list
      obtain ⟨w, hw⟩ := stands g rfl
      obtain ⟨u, hu⟩ := Tracking.holds_of_arranged hz g rfl
      obtain ⟨allz, orderz⟩ := children_arranged hz fun _ => ordered_of_nodup List.nodup_nil
      -- all three lists stand where the type below the second node is known
      obtain ⟨type, known⟩ := Option.isSome_iff_exists.mp known
      obtain ⟨g', below, -⟩ := Option.map_eq_some_iff.mp known
      have keys : g'.1 = g.1 ++ [b.key g.2.name] := by
        obtain ⟨type, -, rfl⟩ := Option.map_eq_some_iff.mp below
        rfl
      have belowx : (stems q guide own₀).below (some g) a = some g' :=
        (Ground.below?_eq hxy).trans below
      have belowz : (stems q guide own₂).below (some g) z.attributes = some g' :=
        (Ground.below?_eq hyz).symm.trans below
      rw [belowx] at inside ih
      rw [below] at ordery inside'
      rw [belowz] at allz orderz
      have twice : g'.1 ∈ own₁.map Visit.keys :=
        List.mem_map.mpr ⟨w, hw.met, hw.keys.trans keys.symm⟩
      have again : g'.1 ∈ own₂.map Visit.keys :=
        List.mem_map.mpr ⟨u, hu.met,
          (hu.keys.trans (congrArg (g.1 ++ [·]) hyz.symm)).trans keys.symm⟩
      refine .intro (mingles.supersedes (List.sublist_append_left _ _) twice again inside ordery)
        (mingles.supersedes (List.sublist_append_right _ _) twice again inside orderz)
        (fun x' hx' full' y' hy' z' hz' name name' same => ?_)
        fun x' hx' full' y' hy' full'' z' hz' name name' same same' => ?_
      · obtain ⟨v, hv⟩ := Tracking.holds_of_tracked (inside x' hx') g' rfl
        obtain ⟨w, hw⟩ := Tracking.holds_of_arranged (inside' y' hy') g' rfl
        obtain ⟨u, hu⟩ := Tracking.holds_of_arranged (allz z' hz') g' rfl
        rw [full'] at hv
        have order := (List.singleton_sublist.mpr hw.met).append (List.singleton_sublist.mpr hu.met)
        exact mingles.condition_eq order twice again hv hw.toBrings hu.toBrings name name' same
      · exact ih x' hx' g' rfl y' z' (inside' y' hy') (allz z' hz')
          (Attributes.key_eq name same _) (Attributes.key_eq name' same' _) full' full''

def shared (base : List Selected) (fails : Bool) (first second third : List Visit) : List Visit :=
  (second ++ third).filter fun w => Shared base fails first second third w

theorem mem_shared {keys : List String} (length : keys.length = base.length + 1)
    (first : keys ∈ own₀.map Visit.keys)
    (both : fails ∨ keys ∈ own₁.map Visit.keys ∧ keys ∈ own₂.map Visit.keys)
    (met : w ∈ own₁ ++ own₂) (stands : keys <+: w.keys) : w ∈ shared base fails own₀ own₁ own₂ := by
  have root : w.root base = keys := by
    rw [Visit.root, ← length]
    exact (List.prefix_iff_eq_take.mp stands).symm
  refine List.mem_filter.mpr ⟨met, decide_eq_true ?_⟩
  rw [Shared, root]
  exact ⟨first, both⟩

theorem Rooted.append (h₁ : Rooted q base own₁) (h₂ : Rooted q base own₂) :
    Rooted q base (own₁ ++ own₂) where
  nested w hw := (List.mem_append.mp hw).elim (h₁.nested w) (h₂.nested w)
  above w hw above s around deep := (List.mem_append.mp hw).elim
    (fun hw => (h₁.above w hw above s around deep).imp_left (List.mem_append_left _))
    (fun hw => (h₂.above w hw above s around deep).imp_left (List.mem_append_right _))

/-- Where walks mingle, the fields of the last two are a guide below the keys that are shared. -/
theorem Mingles.guides (mingles : Mingles q base fails own₀ own₁ own₂)
    (rooted : Rooted q base (own₁ ++ own₂)) :
    Guides q base (shared base fails own₀ own₁ own₂) (own₀ ++ (own₁ ++ own₂)) where
  nested w hw := rooted.nested w (List.mem_filter.mp hw).1
  above w hw above s around deep := by
    obtain ⟨met, here⟩ := List.mem_filter.mp hw
    obtain ⟨met', full⟩ := rooted.above w met above s around deep
    have root : (Visit.mk above s).root base = w.root base := by
      have longer : base.length + 1 ≤ (w.above.map Selected.key).length := by
        rw [around, List.length_map, List.length_append, List.length_singleton]
        exact Nat.succ_le_succ deep
      rw [Visit.root, Visit.root, w.keys_eq, Visit.stem, List.take_append_of_le_length longer,
        around]
      rfl
    refine ⟨List.mem_filter.mpr ⟨met', decide_eq_true ?_⟩, full⟩
    have here := of_decide_eq_true here
    rw [Shared] at here ⊢
    rwa [root]
  type v hv w hw same := by
    obtain ⟨met, here⟩ := List.mem_filter.mp hw
    exact mingles.type v hv w met same (of_decide_eq_true here)

theorem Grown.exists_stems (h : Grown q guide own g xs) (hx : x ∈ xs) :
    ∃ v, Stems q own g x.attributes x.children?.isSome v :=
  Tracking.holds_of_arranged (h.arranged x hx) g rfl

theorem Grown.mem_keys (h : Grown q guide own g xs) (hx : x ∈ xs) :
    g.1 ++ [x.key g.2.name] ∈ own.map Visit.keys := by
  obtain ⟨v, hv⟩ := h.exists_stems hx
  exact List.mem_map.mpr ⟨v, hv.met, hv.keys⟩

theorem Grown.tracked (h : Grown q guide own g xs) (sub : ∀ v ∈ own, v ∈ visits) (hx : x ∈ xs) :
    x.Tracked (stems q guide visits) (some g) :=
  Tracking.tracked_of_arranged (arranged_mono sub (fun _ _ list => list) (h.arranged x hx))

variable {place : Place} {selections : List Selection} {nodes : List Node}

theorem rooted_walk (ended : (q.walk base place chain selections).offence = none) :
    Rooted q base (q.walk base place chain selections).visits where
  nested _ hw := Request.nested_of_mem_walk ended hw
  above _ hw _ _ := Request.above_mem_walk ended hw

theorem ordered_expand {above : List Selected}
    (ok : (q.expand place chain [] selections).outcome = .ok nodes) :
    Ordered q (q.walk above place chain selections).visits
      (some (Request.ground above place.parent)) nodes := by
  rintro - ⟨⟩
  have outlines := Request.outlines_expand selections [] rfl ok
  have met := Request.sublist_walk_of_occurrences (Request.offence_walk_of_ok above ok)
  let key (o : Attributes × Bool) : String := o.1.key place.parent.name
  let told := (q.fragments.occurrences place chain selections).map q.outline
  have order : told.Pairwise fun o o' => ∃ v w,
      [v, w].Sublist (q.walk above place chain selections).visits ∧
        q.Brings (Request.ground above place.parent) v o.1 ∧
        q.Brings (Request.ground above place.parent) w o'.1 := by
    refine List.pairwise_map.mpr (List.pairwise_iff_forall_sublist.mpr fun {s t} pair => ?_)
    have parents := fun s hs => Request.parent_of_mem_occurrences (q := q) (s := s) (pair.subset hs)
    refine ⟨⟨above, s⟩, ⟨above, t⟩, (pair.map (Visit.mk above)).trans met, ⟨rfl, ?_, rfl⟩,
      ⟨rfl, ?_, rfl⟩⟩
    · exact parents s List.mem_cons_self
    · exact parents t (List.mem_cons_of_mem s List.mem_cons_self)
  -- a level keeps the first occurrence of each key, so what it keeps is in order, too
  have other : (firsts key told).Pairwise fun o o' => key o ≠ key o' :=
    List.pairwise_map.mp (nodup_map_firsts key told)
  have all := other.and (order.sublist (firsts_sublist key told))
  rw [List.nil_append] at outlines
  rw [← outlines, List.pairwise_map] at all
  refine all.imp fun ⟨keys, visits⟩ name => ⟨fun condition => keys ?_, visits⟩
  exact Attributes.key_eq name condition _

theorem grown_expand (guides : Guides q base guide visits)
    (sub : ∀ v ∈ (q.walk base place chain selections).visits, v ∈ visits)
    (ok : (q.expand place chain [] selections).outcome = .ok nodes) :
    Grown q guide (q.walk base place chain selections).visits (Request.ground base place.parent)
      nodes := by
  have stands : q.position base guide base place.parent
      = some (Request.ground base place.parent) := if_pos (.inl (Nat.le_refl _))
  have ended := Request.offence_walk_of_ok base ok
  refine ⟨stands ▸ Tracking.arranges_expand (follows_stems guides sub fun v hv =>
    (Request.above_of_mem_walk hv).length_le) settles_stems (List.Sublist.refl _)
    (fun v hv => ⟨fun g here => ?_, fun type chain nodes _ _ inside expanded g here => ?_⟩)
    Tracking.arranges_nil ok, Request.nodup_keys_expand ok⟩
  · obtain rfl := q.eq_ground_of_position here
    refine ⟨v, ⟨rfl, rfl, rfl⟩, hv, by simp, fun full => ?_⟩
    exact Request.nested_of_mem_walk ended hv (by simpa using full)
  · obtain rfl := q.eq_ground_of_position here
    exact (ordered_expand expanded).mono inside _ rfl

def Request.Yields (q : Request) (base : List Selected) (place : Place) (own : List Visit)
    (ns : List Node) : Prop :=
  ∃ chain selections, (q.walk base place chain selections).visits = own ∧
    (q.expand place chain [] selections).outcome = .ok ns

theorem Request.Yields.rooted (h : q.Yields base place own xs) : Rooted q base own := by
  obtain ⟨chain, selections, rfl, ok⟩ := h
  exact rooted_walk (offence_walk_of_ok base ok)

theorem Request.Yields.grown (h : q.Yields base place own xs)
    (guides : Guides q base guide visits) (sub : ∀ v ∈ own, v ∈ visits) :
    Grown q guide own (ground base place.parent) xs := by
  obtain ⟨chain, selections, rfl, ok⟩ := h
  exact grown_expand guides sub ok

theorem Request.yields_nil : q.Yields base place [] [] :=
  ⟨[], [], by rw [walk], outcome_expand_nil _ _ _ _⟩

theorem Grown.known (mingles : Mingles q base fails own₀ own₁ own₂)
    (rooted : Rooted q base (own₁ ++ own₂))
    (h : Grown q (shared base fails own₀ own₁ own₂) own (Request.ground base place.parent) ys)
    (sub : ∀ v ∈ own, v ∈ own₁ ++ own₂) (hy : y ∈ ys) {key : String}
    (same : y.key place.parent.name = key)
    (first : base.map Selected.key ++ [key] ∈ own₀.map Visit.keys)
    (both : fails ∨ base.map Selected.key ++ [key] ∈ own₁.map Visit.keys ∧
      base.map Selected.key ++ [key] ∈ own₂.map Visit.keys) :
    y.Arranged (stems q (shared base fails own₀ own₁ own₂) own)
      (fun i ns => Ordered q own i ns ∧ Tracking.Known Ground.type? i ns)
      (some (Request.ground base place.parent)) := by
  refine known_of_arranged (mingles.guides rooted) (h.arranged y hy) _ rfl fun v hv stands => ?_
  subst same
  exact mem_shared (by simp) first both (sub v hv) stands

theorem joinable_absorb (guides : Guides q base guide visits)
    (hx : x.Tracked (stems q guide visits) (some (Request.ground base place.parent)))
    (hy : y.Arranged (stems q guide visits) (Tracking.Known Ground.type?)
      (some (Request.ground base place.parent)))
    (same : x.key place.parent.name = y.key place.parent.name) : Joinable (q.absorb place) x y :=
  Tracking.absorb_succeeds (resolves_stems guides fun _ h => h) rfl keyed_stems hx hy same

theorem eq_absorbed (joined : q.absorb place x y = .ok z) : z = x.absorbed y :=
  Node.absorb_eq_ok joined

theorem arranged_absorbed {P : Option Ground → List Node → Prop} {t : Tracking (Option Ground)}
    (settles : t.Settles P) (keyed : t.Keyed i place.parent) (joins : Joinable (q.absorb place) x y)
    (hx : x.Arranged t P i) (hy : y.Arranged t P i)
    (same : x.key place.parent.name = y.key place.parent.name) : (x.absorbed y).Arranged t P i := by
  obtain ⟨z, joined⟩ := joins
  obtain rfl := eq_absorbed joined
  exact Tracking.arranged_absorb settles keyed joined hx hy same

section

variable {first second third : List Node} {e : ConversionError}
  (mingles : Mingles q base fails own₀ own₁ own₂) (rooted : Rooted q base (own₁ ++ own₂))
  (h₀ : Grown q (shared base fails own₀ own₁ own₂) own₀ (Request.ground base place.parent) first)
include mingles rooted h₀

theorem known_of_shared (sub : ∀ v ∈ own, v ∈ own₁ ++ own₂)
    (h : Grown q (shared base fails own₀ own₁ own₂) own (Request.ground base place.parent) ys)
    (hx : x ∈ first) (hy : y ∈ ys) (same : x.key place.parent.name = y.key place.parent.name)
    (both : fails ∨ base.map Selected.key ++ [x.key place.parent.name] ∈ own₁.map Visit.keys ∧
      base.map Selected.key ++ [x.key place.parent.name] ∈ own₂.map Visit.keys) :
    y.Arranged (stems q (shared base fails own₀ own₁ own₂) (own₀ ++ (own₁ ++ own₂)))
      (Tracking.Known Ground.type?) (some (Request.ground base place.parent)) :=
  arranged_mono (fun v hv => List.mem_append_right _ (sub v hv)) (fun _ _ list => list.2)
    (h.known mingles rooted sub hy same.symm (h₀.mem_keys hx) both)

theorem joinable_of_fails (failed : fails = true) (sub : ∀ v ∈ own, v ∈ own₁ ++ own₂)
    (h : Grown q (shared base fails own₀ own₁ own₂) own (Request.ground base place.parent) ys)
    (hx : x ∈ first) (hy : y ∈ ys) (same : x.key place.parent.name = y.key place.parent.name) :
    Joinable (q.absorb place) x y :=
  joinable_absorb (mingles.guides rooted) (h₀.tracked (fun _ => List.mem_append_left _) hx)
    (known_of_shared mingles rooted h₀ sub h hx hy same (.inl failed)) same

variable
  (h₁ : Grown q (shared base fails own₀ own₁ own₂) own₁ (Request.ground base place.parent) second)
  (h₂ : Grown q (shared base fails own₀ own₁ own₂) own₂ (Request.ground base place.parent) third)
include h₁ h₂

/-- Three nodes of one key can be joined, in whatever order they come together. -/
theorem joinable_of_mingles (hx : x ∈ first) (hy : y ∈ second) (hz : z ∈ third)
    (hxy : x.key place.parent.name = y.key place.parent.name)
    (hyz : y.key place.parent.name = z.key place.parent.name) :
    Joinable (q.absorb place) x y ∧ Joinable (q.absorb place) y z ∧
      Joinable (q.absorb place) (x.absorbed y) z ∧ Joinable (q.absorb place) x (y.absorbed z) := by
  have guides := mingles.guides rooted
  have both := Or.inr (a := fails = true) (And.intro (hxy ▸ h₁.mem_keys hy)
    (hxy.trans hyz ▸ h₂.mem_keys hz))
  have trackedx := h₀.tracked (fun _ => List.mem_append_left (own₁ ++ own₂)) hx
  have knowny := known_of_shared mingles rooted h₀ (fun _ => List.mem_append_left _) h₁ hx hy hxy
    both
  have knownz := known_of_shared mingles rooted h₀ (fun _ => List.mem_append_right _) h₂ hx hz
    (hxy.trans hyz) both
  have trackedy := Tracking.tracked_of_arranged knowny
  have first := joinable_absorb guides trackedx knowny hxy
  have last := joinable_absorb guides trackedy knownz hyz
  have trackedxy := arranged_absorbed Tracking.settles_true keyed_stems first
    (Tracking.arranged_of_tracked (fun _ _ => trivial) trackedx)
    (Tracking.arranged_of_tracked (fun _ _ => trivial) trackedy) hxy
  have knownyz := arranged_absorbed (fun _ _ _ known _ _ _ => known) keyed_stems last knowny knownz
    hyz
  refine ⟨first, last, ?_, ?_⟩
  · refine joinable_absorb guides (Tracking.tracked_of_arranged trackedxy) knownz ?_
    rw [Node.key_absorbed, hxy, hyz]
  · refine joinable_absorb guides trackedx knownyz ?_
    rw [Node.key_absorbed, hxy]

end

section

variable {first second third : List Node} {e : ConversionError}
  (h₀ : q.Yields base place own₀ first) (h₁ : q.Yields base place own₁ second)
  (h₂ : q.Yields base place own₂ third)
include h₀ h₁ h₂

theorem Mingles.levels (mingles : Mingles q base fails own₀ own₁ own₂) :
    Rooted q base (own₁ ++ own₂) ∧
      Grown q (shared base fails own₀ own₁ own₂) own₀ (Request.ground base place.parent) first ∧
      Grown q (shared base fails own₀ own₁ own₂) own₁ (Request.ground base place.parent) second ∧
      Grown q (shared base fails own₀ own₁ own₂) own₂ (Request.ground base place.parent) third := by
  have rooted := h₁.rooted.append h₂.rooted
  have guides := mingles.guides rooted
  exact ⟨rooted, h₀.grown guides fun _ => List.mem_append_left _,
    h₁.grown guides fun _ hv => List.mem_append_right _ (List.mem_append_left _ hv),
    h₂.grown guides fun _ hv => List.mem_append_right _ (List.mem_append_right _ hv)⟩

/-- Two levels that can be gathered may be added together or one after the other to a level with
which they mingle. -/
theorem Mingles.addAll_assoc (mingles : Mingles q base false own₀ own₁ own₂)
    (gathered : (q.addAll place second third).outcome = .ok nodes) :
    (q.addAll place first nodes).outcome
      = (q.addAll place first second).outcome >>= fun ns => (q.addAll place ns third).outcome := by
  obtain ⟨rooted, h₀, h₁, h₂⟩ := mingles.levels h₀ h₁ h₂
  simp only [Request.outcome_addAll] at gathered ⊢
  refine upsertAll_upsertAll (Node.keeps_absorbed _) (fun _ _ _ => eq_absorbed) h₀.once h₁.once
    h₂.once (fun x hx y hy z hz hxy hyz => ?_) gathered
  obtain ⟨first, -, left, right⟩ := joinable_of_mingles mingles rooted h₀ h₁ h₂ hx hy hz hxy hyz
  have knowny := h₁.known mingles rooted (fun _ => List.mem_append_left _) hy hxy.symm
    (h₀.mem_keys hx) (.inr ⟨hxy ▸ h₁.mem_keys hy, hxy.trans hyz ▸ h₂.mem_keys hz⟩)
  refine ⟨first, left, right, Node.absorbed_assoc (fun full full' => ?_) fun full full' _ => ?_⟩
  · obtain ⟨v, hv⟩ := h₀.exists_stems hx
    obtain ⟨w, hw⟩ := h₁.exists_stems hy
    obtain ⟨u, hu⟩ := h₂.exists_stems hz
    have same : v.keys = w.keys := hv.keys.trans ((congrArg (_ ++ [·]) hxy).trans hw.keys.symm)
    have same' : w.keys = u.keys := hw.keys.trans ((congrArg (_ ++ [·]) hyz).trans hu.keys.symm)
    exact hw.body.mpr (mingles.full rfl v hv.met w hw.met u hu.met hv.stem same same'
      (hv.body.mp full) (hu.body.mp full'))
  · exact mingles.aligned (h₀.tracked (fun _ h => h) hx) _ rfl y z knowny (h₂.arranged z hz) hxy hyz
      full full'

/-- Two levels that cannot be gathered cannot be added one after the other either, and fail with the
same error. -/
theorem Mingles.addAll_assoc_error (mingles : Mingles q base true own₀ own₁ own₂)
    (failed : (q.addAll place second third).outcome = .error e) :
    ((q.addAll place first second).outcome >>= fun ns => (q.addAll place ns third).outcome)
      = .error e := by
  obtain ⟨rooted, h₀, h₁, h₂⟩ := mingles.levels h₀ h₁ h₂
  simp only [Request.outcome_addAll] at failed ⊢
  refine upsertAll_upsertAll_error (Node.keeps_absorbed _) (fun _ _ _ => eq_absorbed) h₁.once
    h₂.once (fun x hx y hy => ?_) (fun x hx z hz => ?_) (fun x hx y hy z hz hxy hyz => ?_) failed
  · exact joinable_of_fails mingles rooted h₀ rfl (fun _ => List.mem_append_left _) h₁ hx hy
  · exact joinable_of_fails mingles rooted h₀ rfl (fun _ => List.mem_append_right _) h₂ hx hz
  · obtain ⟨-, last, left, -⟩ := joinable_of_mingles mingles rooted h₀ h₁ h₂ hx hy hz hxy hyz
    exact ⟨last, left⟩

theorem Mingles.addAll_succeeds (mingles : Mingles q base true own₀ own₁ own₂) :
    ∃ nodes, (q.addAll place first second).outcome = .ok nodes := by
  obtain ⟨rooted, h₀, h₁, -⟩ := mingles.levels h₀ h₁ h₂
  rw [Request.outcome_addAll]
  exact ⟨_, upsertAll_of_joinable (Node.keeps_absorbed _) (fun _ _ _ => eq_absorbed) h₁.once
    fun _ hx _ => joinable_of_fails mingles rooted h₀ rfl (fun _ => List.mem_append_left _) h₁ hx⟩

end

/-- Below a node that comes of fields that are met twice no name stands twice. -/
theorem Coherent.single_children (coherent : Coherent q base visits)
    (apart : (own ++ own).Sublist visits)
    (h : n.Arranged (stems q guide own)
      (fun i ns => Ordered q own i ns ∧ Tracking.Known Ground.type? i ns) i) :
    ∀ g, i = some g → Node.Single n.children := by
  induction h with
  | leaf _ => exact fun _ _ => .intro List.nodup_nil fun _ h => absurd h List.not_mem_nil
  | @branch i a children here list inside ih =>
    rintro g rfl
    obtain ⟨u, hu⟩ := here g rfl
    obtain ⟨type, known⟩ := Option.isSome_iff_exists.mp list.2
    obtain ⟨g', below, -⟩ := Option.map_eq_some_iff.mp known
    have twice : 1 < (visits.map Visit.keys).count g'.1 := by
      obtain ⟨type, -, rfl⟩ := Option.map_eq_some_iff.mp below
      have mem := List.mem_map.mpr ⟨u, hu.met, hu.keys⟩
      exact count_of_mem_of_mem apart mem mem
    have ordered := list.1 g' below
    refine .intro (List.pairwise_map.mpr (ordered.imp fun here name => ?_)) fun m hm =>
      ih m hm g' below
    obtain ⟨other, v, w, order, hv, hw⟩ := here name
    -- the first field would be met once more behind the second one
    have again := List.singleton_sublist.mpr (order.subset List.mem_cons_self)
    have parted := List.triplewise_triple.mp
      (triplewise_of_sublist ((order.append again).trans apart) coherent.condition)
      (hv.rivals hw name) (hw.rivals hv name.symm) (hv.stem ▸ twice) rfl
    rw [hv.condition, hw.condition] at parted
    exact other parted.symm

/-- A level whose fields are met twice stays as it is when it is added to itself. -/
theorem Coherent.addAll_self (coherent : Coherent q base visits)
    (apart : ((q.walk base place chain selections).visits
      ++ (q.walk base place chain selections).visits).Sublist visits)
    (ok : (q.expand place chain [] selections).outcome = .ok nodes) :
    (q.addAll place nodes nodes).outcome = .ok nodes := by
  have met := fun v hv => ((List.sublist_append_left _ _).trans apart).subset (a := v) hv
  have guides : Guides q base (q.walk base place chain selections).visits
      (q.walk base place chain selections).visits :=
    { rooted_walk (Request.offence_walk_of_ok base ok) with
      type v hv w hw := coherent.type v (met v hv) w (met w hw) }
  have grown := grown_expand guides (fun _ h => h) ok
  have known := fun n hn => known_of_arranged guides (grown.arranged n hn) _ rfl fun _ hv _ => hv
  have joins : ∀ x ∈ nodes, ∀ y ∈ nodes, x.key place.parent.name = y.key place.parent.name →
      Joinable (q.absorb place) x y := fun x hx y hy same =>
    joinable_absorb guides (grown.tracked (fun _ h => h) hx)
      (arranged_mono (fun _ h => h) (fun _ _ list => list.2) (known y hy)) same
  have once : (nodes.map (Node.key · place.parent.name)).Nodup := grown.once
  rw [Request.outcome_addAll, upsertAll_of_joinable (Node.keeps_absorbed _)
    (fun _ _ _ => eq_absorbed) once joins]
  refine congrArg _ (blendAll_self (Node.keeps_absorbed _) once fun n hn => ?_)
  exact Node.absorbed_self (coherent.single_children apart (known n hn) _ rfl)

end

end SelectionTree
