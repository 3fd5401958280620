import GraphClient.Proofs.FrozenRegistry
import GraphClient.Proofs.Operation.Elaboration
import GraphClient.Proofs.Operation.Nullability
import GraphClient.Proofs.Operation.RelocateOperation
import GraphClient.Proofs.Operation.UnusedVariables

/-!
# Places of a response

A shape is built level by level: at each response path stand the merged selections of all fields that lead
there. What holds at the root, and goes from a place to those below it, holds of every shape.

* **`Registry.Place.mergeable`**: in an accepted operation, fields under one key agree at every place.
* **`Scope.Accepts.typed`**: at every place, the fields that an object is asked for are typed.
-/

namespace GraphClient

open List FieldGroup Or Option

/-! ## Types that are told apart -/

namespace Registry

/-- **The types that a shape tells apart** for a type: its object types, or the type itself if there are
none. -/
def Represents (registry : Registry) (object type : String) : Prop :=
  registry.IsOf object type ∨ object = type ∧ ∀ other, ¬ registry.IsOf other type

variable {reg : Registry} {obj type : String}

theorem Valid.isOf_iff (h : reg.Valid) : obj ∈ reg.possibleTypes type ↔ reg.IsOf obj type :=
  mem_possibleTypes h.named h.wellFormed

theorem Valid.possibleTypes_eq_nil (h : reg.Valid) : reg.possibleTypes type = [] ↔ ∀ other, ¬ reg.IsOf other type := by
  simp only [eq_nil_iff_forall_not_mem, h.isOf_iff]

theorem Valid.applies_iff (h : reg.Valid) : reg.applies (some type) obj ↔ type = obj ∨ reg.IsOf obj type := by
  rw [applies_some, h.isOf_iff]

theorem Represents.uniform (hr : reg.Represents obj type) (h : reg.Valid) : reg.Uniform obj := by
  rcases hr with hobject | ⟨rfl, hnone⟩
  · exact inl (h.named.kind?_of_possible (h.isOf_iff.mpr hobject))
  · exact inr (h.possibleTypes_eq_nil.mpr hnone)

theorem Represents.applies (hr : reg.Represents obj type) (h : reg.Valid) : reg.applies (some type) obj := by
  rw [h.applies_iff]
  rcases hr with hobject | ⟨rfl, -⟩
  · exact inr hobject
  · exact inl rfl

theorem mem_variantTypes : obj ∈ reg.variantTypes type ↔
    reg.HasKind TypeKind.isAbstract type ∧ obj ∈ reg.possibleTypes type := by
  rw [variantTypes, HasKind]
  cases reg.kind? type with
  | none => simp
  | some kind => cases ha : kind.isAbstract <;> simp

theorem variantTypes_subset : reg.variantTypes type ⊆ reg.possibleTypes type := fun _ h =>
  (mem_variantTypes.mp h).2

theorem Valid.represents_iff (h : reg.Valid) : reg.Represents obj type ↔
    obj ∈ reg.variantTypes type ∨ reg.variantTypes type = [] ∧ obj = type := by
  constructor
  · rintro (hobject | ⟨rfl, hnone⟩)
    · have hp := h.isOf_iff.mpr hobject
      rcases h.named.possibleTypes_cases hp with ⟨hk, rfl⟩ | ha
      · exact inr ⟨by simp [variantTypes, hk, TypeKind.isAbstract], rfl⟩
      · exact inl (mem_variantTypes.mpr ⟨ha, hp⟩)
    · refine inr ⟨subset_nil.mp ?_, rfl⟩
      rw [← h.possibleTypes_eq_nil.mpr hnone]
      exact variantTypes_subset
  · rintro (hobject | ⟨hnone, rfl⟩)
    · exact inl (h.isOf_iff.mp (variantTypes_subset hobject))
    · by_cases hal : ∀ other, ¬ reg.IsOf other obj
      · exact inr ⟨rfl, hal⟩
      · simp only [not_forall, not_not] at hal
        obtain ⟨other, ho⟩ := hal
        have hp := h.isOf_iff.mpr ho
        rcases h.named.possibleTypes_cases hp with ⟨-, rfl⟩ | ha
        · exact inl ho
        · have := mem_variantTypes.mpr ⟨ha, hp⟩
          rw [hnone] at this
          cases this

variable {selections : List BoundSelection} {f : ShapeField}

theorem Valid.describes_iff (h : reg.Valid) (hr : reg.Represents obj type) :
    (reg.resultShape type selections).Describes obj f ↔ f ∈ reg.objectKeys obj selections := by
  rcases hr with hobject | ⟨rfl, hnone⟩
  · exact reg.describes_resultShape h.named (h.isOf_iff.mpr hobject) selections f
  · have hv : reg.variantTypes obj = [] := by
      rw [← subset_nil, ← h.possibleTypes_eq_nil.mpr hnone]
      exact variantTypes_subset
    rw [resultShape_eq, shapeLevel, hv]
    simp [ResultShape.Describes]

theorem Valid.exists_objectKey (h : reg.Valid) (hd : (reg.resultShape type selections).Describes obj f) :
    ∃ other, reg.Represents other type ∧ f ∈ reg.objectKeys other selections := by
  rw [resultShape_eq, shapeLevel] at hd
  cases hv : reg.variantTypes type with
  | nil =>
    simp only [hv, ResultShape.Describes, not_mem_nil, false_and, exists_false, or_false]
      at hd
    exact ⟨type, h.represents_iff.mpr (inr ⟨hv, rfl⟩), hd⟩
  | cons first rest =>
    simp only [hv] at hd
    have hr : ∀ other ∈ first :: rest, reg.Represents other type := fun other ho =>
      h.represents_iff.mpr (inl (by rwa [hv]))
    rcases hd with hs | ⟨v, ha, -, hf⟩
    · exact ⟨first, hr first mem_cons_self, mem_sharedFields hs (mem_map.mpr ⟨first, mem_cons_self, rfl⟩)⟩
    · obtain ⟨other, ho, rfl⟩ := mem_map.mp ha
      exact ⟨other, hr other ho, hf⟩

theorem mem_variants {v : ShapeVariant} : v ∈ (reg.resultShape type selections).variants ↔
      ∃ obj ∈ reg.variantTypes type, v = ⟨obj, reg.objectKeys obj selections⟩ := by
  rw [resultShape_eq, shapeLevel]
  cases reg.variantTypes type with
  | nil => simp
  | cons first rest => simp [eq_comm]

end Registry

/-! ## Places -/

/-- **The shapes at any depth of a shape.** -/
inductive ResultShape.Contains (root : ResultShape) : ResultShape → Prop
  | self : Contains root root
  | field {shape inner : ResultShape} {object : String} {field : ShapeField}
      (hshape : Contains root shape) (hfield : shape.Describes object field)
      (hinner : field.shape = some inner) : Contains root inner

namespace Registry

/-- **The selections merged at a response path**, with the type there. A path lists the types of the
objects on the way and their keys, from the last one to the root. -/
inductive Place (registry : Registry) (root : String) (selections : List BoundSelection) :
    List (String × String) → String → List BoundSelection → Prop
  | root : Place registry root selections [] root selections
  | field {path : List (String × String)} {type object : String} {merged : List BoundSelection}
      {group : FieldGroup} (hplace : Place registry root selections path type merged)
      (hobject : registry.Represents object type)
      (hgroup : group ∈ ofList (registry.collect object merged))
      (hbelow : group.selections ≠ []) :
    Place registry root selections ((object, group.key) :: path) group.first.field.type.name
      group.selections

variable {reg : Registry} {root type : String} {selections merged : List BoundSelection}
  {path : List (String × String)} {group : FieldGroup} {shape : ResultShape}

theorem shapeKey_shape_eq {inner : String → List BoundSelection → ResultShape} :
    (shapeKey inner group).shape = some shape ↔
      group.selections ≠ [] ∧ shape = inner group.first.field.type.name group.selections := by
  rw [shapeKey]
  cases hs : group.selections with
  | nil => simp
  | cons first rest =>
    simp only [isEmpty_cons, Bool.false_eq_true, if_false, some.injEq, ne_eq, cons_ne_nil,
      not_false_eq_true, true_and]
    exact eq_comm

theorem contains_iff (h : reg.Valid) : (reg.resultShape root selections).Contains shape ↔
      ∃ path type merged, reg.Place root selections path type merged ∧ shape = reg.resultShape type merged := by
  constructor
  · intro hc
    induction hc with
    | self => exact ⟨[], root, selections, .root, rfl⟩
    | field _ hf hi ih =>
      obtain ⟨path, type, merged, hplace, rfl⟩ := ih
      obtain ⟨obj, hobject, hk⟩ := h.exists_objectKey hf
      obtain ⟨group, hgroup, rfl⟩ := mem_map.mp hk
      obtain ⟨hb, rfl⟩ := shapeKey_shape_eq.mp hi
      exact ⟨_, _, _, .field hplace hobject hgroup hb, rfl⟩
  · rintro ⟨path, type, merged, hplace, rfl⟩
    induction hplace with
    | root => exact .self
    | field _ hobject hgroup hb ih =>
      exact .field ih ((h.describes_iff hobject).mpr (mem_map_of_mem hgroup))
        (shapeKey_shape_eq.mpr ⟨hb, rfl⟩)

theorem Place.unique {type' : String} {merged' : List BoundSelection} (h : reg.Place root selections path type merged)
    (h' : reg.Place root selections path type' merged') : type' = type ∧ merged' = merged := by
  induction h generalizing type' merged' with
  | root =>
    cases h'
    exact ⟨rfl, rfl⟩
  | @field path type obj merged group _ _ hgroup _ ih =>
    generalize hp : (obj, group.key) :: path = whole at h'
    cases h' with
    | root => cases hp
    | @field _ _ _ _ other hplace _ ho _ =>
      obtain ⟨hs, rfl⟩ := cons.inj hp
      obtain ⟨rfl, hk⟩ := Prod.mk.inj hs
      obtain ⟨rfl, rfl⟩ := ih hplace
      have he : other.entries = group.entries := by
        rw [mem_ofList.mp hgroup, mem_ofList.mp ho, hk]
      obtain rfl : other = group := entries_eq.mp he
      exact ⟨rfl, rfl⟩

/-! ## Conflicts -/

theorem conflictsWithin_eq_nil (h : reg.Valid) {fuel : ℕ} : reg.conflictsWithin (fuel + 1) type merged = [] ↔
      ∀ obj, reg.Represents obj type → conflictsAmong (reg.collect obj merged) = [] ∧
        ∀ group ∈ ofList (reg.collect obj merged),
          reg.conflictsWithin fuel group.first.field.type.name group.selections = [] := by
  simp only [h.represents_iff, conflictsWithin]
  cases hv : reg.variantTypes type with
  | nil => simp
  | cons first rest => simp [and_assoc]

theorem canMerge_of_conflictsAmong {fs : List Collected} (hnone : conflictsAmong fs = [])
    (hgroup : group ∈ ofList fs) {e : Collected} (hentry : e ∈ group.entries) : canMerge group.first.field e.field := by
  obtain ⟨hm, hk⟩ := (mem_entries hgroup).mp hentry
  have hf : fs.find? (fun first => first.field.responseKey == e.field.responseKey) = some group.first := by
    rw [← head?_filter, hk, ← mem_ofList.mp hgroup]
    rfl
  have ha := filterMap_eq_nil_iff.mp hnone e hm
  simp only [hf] at ha
  by_contra hn
  simp [hn] at ha

section

variable (hplace : reg.Place root selections path type merged) (h : reg.Valid)
  (hnone : reg.conflicts root selections = []) {obj : String} (hobject : reg.Represents obj type)
  (hgroup : group ∈ ofList (reg.collect obj merged)) {e : Collected}
  (hentry : e ∈ group.entries)

include hplace h hnone hobject hgroup hentry

theorem Place.mergeable : canMerge group.first.field e.field := by
  have hf : ∃ fuel, BoundSelection.depthOf merged ≤ fuel ∧ reg.conflictsWithin (fuel + 1) type merged = [] := by
    clear hobject hgroup hentry
    induction hplace with
    | root => exact ⟨_, le_refl _, reg.conflicts_eq_nil.mp hnone⟩
    | @field _ _ _ _ below _ hobject hgroup _ ih =>
      obtain ⟨fuel, hd, hc⟩ := ih
      have hl := reg.depthOf_group_lt hgroup
      obtain ⟨less, rfl⟩ : ∃ less, fuel = less + 1 := ⟨fuel - 1, by omega⟩
      exact ⟨less, by omega, ((conflictsWithin_eq_nil h).mp hc _ hobject).2 _ hgroup⟩
  obtain ⟨fuel, -, hc⟩ := hf
  exact canMerge_of_conflictsAmong ((conflictsWithin_eq_nil h).mp hc obj hobject).1 hgroup hentry

theorem Place.name_first : group.first.field.name = e.field.name := by
  have hm := hplace.mergeable h hnone hobject hgroup hentry
  rw [canMerge, Bool.and_eq_true, beq_iff_eq] at hm
  exact hm.1

end

end Registry

/-! ## Types of the fields at a place -/

namespace Scope

variable {scope : Scope} {root type obj : String} {selections merged : List BoundSelection}
  {path : List (String × String)}

theorem Complete.collected_typed (h : scope.Complete) (hv : scope.registry.Valid)
    (hy : ∀ bound ∈ merged, scope.Yields type bound) (hobject : scope.registry.Represents obj type) {e : Collected}
    (hentry : e ∈ scope.registry.collect obj merged) : scope.FieldTyped obj e.field e.selections :=
  h.selects_typed hv (hobject.uniform hv) hy (hobject.applies hv)
    (Registry.mem_collect.mp hentry)

theorem FieldTyped.type_name_eq {ha other : BoundField} {inner below : List BoundSelection}
    (h : scope.FieldTyped obj ha inner) (ho : scope.FieldTyped obj other below)
    (hn : ha.name = other.name) : ha.type.name = other.type.name := by
  rcases h with ⟨he, ht, -⟩ | ⟨hne, decls, hd, hc, -, -⟩
  · rcases ho with ⟨-, ht', -⟩ | ⟨hne, -⟩
    · rw [ht, ht']
    · exact absurd (hn.symm.trans he) hne
  · rcases ho with ⟨he, -, -⟩ | ⟨-, decls', hd', hc', -, -⟩
    · exact absurd (hn.trans he) hne
    · rw [hn, hd', some.injEq] at hd
      rw [← TypeRef.name_of_isCovariant hc, ← TypeRef.name_of_isCovariant hc', hd]

/-- **At every place, the merged selections are members of sets on the type there.** -/
theorem Complete.place_yields (h : scope.Complete) (hv : scope.registry.Valid)
    (hr : ∀ bound ∈ selections, scope.Yields root bound) (hnone : scope.registry.conflicts root selections = [])
    (hplace : scope.registry.Place root selections path type merged) : ∀ bound ∈ merged, scope.Yields type bound := by
  induction hplace with
  | root => exact hr
  | @field _ _ obj _ group hplace hobject hgroup _ ih =>
    intro bound hb
    obtain ⟨e, hentry, hb⟩ := mem_flatMap.mp hb
    have ht : ∀ e ∈ group.entries, scope.FieldTyped obj e.field e.selections :=
      fun e hentry => h.collected_typed hv ih hobject ((mem_entries hgroup).mp hentry).1
    have hn := hplace.name_first hv hnone hobject hgroup hentry
    rw [(ht group.first mem_cons_self).type_name_eq (ht e hentry) hn]
    rcases ht e hentry with ⟨-, -, hi⟩ | ⟨-, decl, -, hc, -, hi⟩
    · rw [hi] at hb
      cases hb
    · rw [← TypeRef.name_of_isCovariant hc]
      exact hi bound hb

/-! ## Accepted operations -/

/-- **An operation that is bound without errors**, from its definition. -/
structure Accepts (scope : Scope) (definition : OperationDefinition) (operation : BoundOperation) :
    Prop where
  complete : scope.Complete
  valid : scope.registry.Valid
  name : definition.name = some operation.name
  root : scope.registry.rootType definition.kind = some operation.root
  clean : scope.Clean operation.root definition.selections
  selections : operation.selections = (scope.bindSet operation.root definition.selections).1
  shape : operation.shape = scope.registry.resultShape operation.root operation.selections
  agrees : scope.registry.conflicts operation.root operation.selections = []

variable {defn : OperationDefinition} {op : BoundOperation}

theorem Accepts.yields (h : scope.Accepts defn op) : ∀ bound ∈ op.selections, scope.Yields op.root bound := by
  intro bound hb
  rw [h.selections] at hb
  exact ⟨_, h.clean, hb⟩

section

variable (h : scope.Accepts defn op)
  (hplace : scope.registry.Place op.root op.selections path type merged)
  (hobject : scope.registry.Represents obj type) {e : Collected}

include h hplace hobject

theorem Accepts.typed (hentry : e ∈ scope.registry.collect obj merged) : scope.FieldTyped obj e.field e.selections :=
  h.complete.collected_typed h.valid (h.complete.place_yields h.valid h.yields h.agrees hplace) hobject hentry

theorem Accepts.same_first {group : FieldGroup}
    (hgroup : group ∈ ofList (scope.registry.collect obj merged)) (hentry : e ∈ group.entries) :
    group.first.field.name = e.field.name ∧ group.first.field.type.name = e.field.type.name := by
  have hn := hplace.name_first h.valid h.agrees hobject hgroup hentry
  have ht : ∀ e ∈ group.entries, scope.FieldTyped obj e.field e.selections :=
    fun e hentry => h.typed hplace hobject ((mem_entries hgroup).mp hentry).1
  exact ⟨hn, (ht group.first mem_cons_self).type_name_eq (ht e hentry) hn⟩

end

theorem accepts_of_bind (ho : scope.Complete) (hv : scope.registry.Valid) (hb : (scope.bindOperation defn).1 = some op)
    (hl : (scope.bindOperation defn).2.hasErrors = false) : scope.Accepts defn op := by
  obtain ⟨hn, hr, he⟩ := bindOperation_some hb
  obtain ⟨name, root, -, hr', -, -, -, hc⟩ := bindOperation_clean.mp hl
  obtain rfl : op.root = root := some.inj (hr.symm.trans hr')
  have hs : op.selections = (scope.bindSet op.root defn.selections).1 :=
    congrArg BoundOperation.selections he
  have hh : op.shape = scope.registry.resultShape op.root
      (scope.bindSet op.root defn.selections).1 := congrArg BoundOperation.shape he
  exact
    { complete := ho
      valid := hv
      name := hn
      root := hr
      clean := clean_operation hb hl
      selections := hs
      shape := by rw [hs, hh]
      agrees := by rw [hs]; exact (Registry.conflicts_fatal _ _ _).eq_nil hc }

end Scope

/-- **Every operation of an accepted run is bound without errors.** -/
theorem exists_accepts {srcs : List Source} (hi : ∀ src ∈ srcs, src.id ≠ Location.builtinSource)
    (ho : (analyze srcs).isOk) {op : BoundOperation} (h : op ∈ (analyze srcs).operations) :
    ∃ defn ∈ (Source.documents srcs).flatMap Document.operations, (Source.scope srcs).Accepts defn op := by
  obtain ⟨defn, hd, hb⟩ := exists_definition h
  have hv : (Source.scope srcs).registry.Valid :=
    registry_scope srcs ▸ valid_of_passed hi (passed_of_isOk ho)
  exact ⟨defn, hd, Scope.accepts_of_bind (complete_scope ho) hv hb (clean_of_isOk ho hd)⟩

end GraphClient
