import GraphClient.Proofs.Operation.Expansion
import Mathlib.Data.List.Perm.Basic

/-!
# The keys of a response

The keys that the shape of an operation describes are compared with those that its selections ask for.
-/

namespace GraphClient

open List Registry FieldGroup ResultShape Bool

/-! ## Keys of shapes -/

namespace ResultShape

/-- The keys of the objects of type `object`: those of its variant if there are variants. -/
def fieldsFor (shape : ResultShape) (object : String) : List ShapeField :=
  if shape.isPolymorphic then
    (shape.variants.filter fun variant => variant.type == object).flatMap ShapeVariant.fields
  else shape.fields

/-- **The shape at a response path.** -/
inductive At (registry : Registry) (root : ResultShape) : List (String × String) → ResultShape → Prop
  | root : At registry root [] root
  | field {path : List (String × String)} {shape inner : ResultShape} {object : String} {field : ShapeField}
      (hshape : At registry root path shape) (hobject : registry.Represents object shape.type)
      (hfield : field ∈ shape.fieldsFor object) (hinner : field.shape = some inner) :
    At registry root ((object, field.key) :: path) inner

end ResultShape

namespace Registry

variable {registry : Registry} {root type obj : String} {selections merged : List BoundSelection}
  {path : List (String × String)}

theorem Valid.mem_fieldsFor (h : registry.Valid) (ho : registry.Represents obj type)
    {f : ShapeField} : f ∈ (registry.resultShape type selections).fieldsFor obj ↔
      f ∈ registry.objectKeys obj selections := by
  rcases h.represents_iff.mp ho with hv | ⟨hn, rfl⟩
  · have hm : ⟨obj, registry.objectKeys obj selections⟩ ∈
        (registry.resultShape type selections).variants := mem_variants.mpr ⟨obj, hv, rfl⟩
    have hp : (registry.resultShape type selections).isPolymorphic := by
      rw [isPolymorphic, not_eq_true', isEmpty_eq_false_iff]
      exact ne_nil_of_mem hm
    rw [fieldsFor, if_pos hp]
    simp only [mem_flatMap, mem_filter, beq_iff_eq]
    constructor
    · rintro ⟨v, ⟨hot, rfl⟩, hf⟩
      obtain ⟨other, -, rfl⟩ := mem_variants.mp hot
      exact hf
    · exact fun hf => ⟨_, ⟨hm, rfl⟩, hf⟩
  · rw [resultShape_eq, shapeLevel, hn]
    simp [fieldsFor, isPolymorphic]

/-- **The shape at a path is the shape of the place.** -/
theorem at_iff (h : registry.Valid) {shape : ResultShape} :
    (registry.resultShape root selections).At registry path shape ↔
      ∃ type merged, registry.Place root selections path type merged ∧ shape = registry.resultShape type merged := by
  constructor
  · intro ha
    induction ha with
    | root => exact ⟨root, selections, .root, rfl⟩
    | field _ ho hf hi ih =>
      obtain ⟨type, merged, hp, rfl⟩ := ih
      rw [type_resultShape] at ho
      obtain ⟨group, hg, rfl⟩ := mem_map.mp ((h.mem_fieldsFor ho).mp hf)
      obtain ⟨hb, rfl⟩ := shapeKey_shape_eq.mp hi
      exact ⟨_, _, .field hp ho hg hb, rfl⟩
  · rintro ⟨type, merged, hp, rfl⟩
    induction hp with
    | root => exact .root
    | @field _ _ _ _ group _ ho hg hb ih =>
      have hk : shapeKey registry.resultShape group ∈ _ := (h.mem_fieldsFor ho).mpr (mem_map_of_mem hg)
      exact ih.field (by rwa [type_resultShape]) hk (shapeKey_shape_eq.mpr ⟨hb, rfl⟩)

end Registry

/-! ## Arguments -/

theorem Binary64.same_euclidean {a b c : Binary64} (ha : a.same b) (hac : a.same c) : b.same c := by
  have hc : ∀ {x y : Binary64}, x.same y → x = y ∨ (∃ s e, x = .finite s 0 e) ∧ ∃ s e, y = .finite s 0 e := by
    intro x y hs
    rw [same.eq_def] at hs
    split at hs
    · exact Or.inr ⟨⟨_, _, rfl⟩, _, _, rfl⟩
    · exact Or.inl (beq_iff_eq.mp hs)
  rcases hc ha with rfl | ⟨-, s, e, rfl⟩
  · exact hac
  · rcases hc hac with rfl | ⟨-, s', e', rfl⟩
    · rcases hc ha with rfl | ⟨⟨s', e', rfl⟩, -⟩ <;> rfl
    · rfl

namespace Value

mutual

theorem same_euclidean : (a b c : Value) → same a b → same a c → same b c
  | .variable _, b, c | .int _, b, c => by cases b <;> cases c <;> simp [same]; rintro rfl; exact id
  | .float _, b, c => by cases b <;> cases c <;> simp [same]; exact Binary64.same_euclidean
  | .string _, b, c | .boolean _, b, c =>
    by cases b <;> cases c <;> simp [same]; rintro rfl; exact id
  | .null, b, c => by cases b <;> cases c <;> simp [same]
  | .enum _, b, c => by cases b <;> cases c <;> simp [same]; rintro rfl; exact id
  | .list as, b, c => by cases b <;> cases c <;> simp [same]; exact sameItems_euclidean as _ _
  | .object as, b, c => by cases b <;> cases c <;> simp [same]; exact sameFields_euclidean as _ _

theorem sameItems_euclidean : (as bs cs : List Value) → sameItems as bs → sameItems as cs → sameItems bs cs
  | [], bs, cs => by cases bs <;> cases cs <;> simp [sameItems]
  | a :: as, bs, cs => by
    cases bs <;> cases cs <;> simp only [sameItems, and_eq_true, false_eq_true, false_implies, implies_true]
    rintro ⟨ha, hr⟩ ⟨hc, hr'⟩
    exact ⟨same_euclidean a _ _ ha hc, sameItems_euclidean as _ _ hr hr'⟩

theorem sameFields_euclidean : (as bs cs : List (String × Value)) → sameFields as bs →
    sameFields as cs → sameFields bs cs
  | [], bs, cs => by cases bs <;> cases cs <;> simp [sameFields]
  | (name, a) :: as, bs, cs => by
    cases bs <;> cases cs <;> simp only [sameFields, and_eq_true, false_eq_true, false_implies,
      implies_true, beq_iff_eq]
    rintro ⟨⟨hn, ha⟩, hr⟩ ⟨⟨hn', hc⟩, hr'⟩
    exact ⟨⟨hn.symm.trans hn', same_euclidean a _ _ ha hc⟩, sameFields_euclidean as _ _ hr hr'⟩

end

theorem sameFields_iff {as bs : List (String × Value)} : sameFields as bs ↔
    Forall₂ (fun a b => a.1 = b.1 ∧ a.2.same b.2) as bs := by
  induction as generalizing bs with
  | nil => cases bs <;> simp [sameFields]
  | cons a as ih => cases bs <;> simp [sameFields, ih]

end Value

/-- **Two argument lists are the same up to order.** -/
def SameUpToOrder (a b : List Argument) : Prop :=
  ∃ reordered, reordered.Perm a ∧ Forall₂ (fun x y => x.name = y.name ∧ x.value.same y.value) reordered b

def sortedArguments (arguments : List Argument) : List Argument :=
  sortBy (fun x y => compare x.name y.name) arguments

theorem sameArguments_eq (a b : List Argument) : sameArguments a b =
    Value.sameFields ((sortedArguments a).map fun arg => (arg.name, arg.value))
      ((sortedArguments b).map fun arg => (arg.name, arg.value)) := by
  rw [sameArguments, sortedArguments, sortedArguments]
  rw [map_sortBy (fun x y : Argument => compare x.name y.name) (fun x y => compare x.1 y.1) _ fun _ _ => rfl,
    map_sortBy (fun x y : Argument => compare x.name y.name) (fun x y => compare x.1 y.1) _ fun _ _ => rfl]

/-- **Arguments that agree with the same ones agree**, up to order. -/
theorem sameArguments_euclidean {a b c : List Argument} (ha : sameArguments a b)
    (hc : sameArguments a c) : SameUpToOrder b c := by
  rw [sameArguments_eq] at ha hc
  have hs := Value.sameFields_iff.mp (Value.sameFields_euclidean _ _ _ ha hc)
  rw [forall₂_map_left_iff, forall₂_map_right_iff] at hs
  obtain ⟨reordered, hf, hp⟩ :=
    perm_comp_forall₂ (sortBy_perm _ c).symm (List.Forall₂.flip hs)
  exact ⟨reordered, hp.trans (sortBy_perm _ b), hf.flip⟩

/-! ## Keys that are asked for -/

namespace Registry

variable (registry : Registry) (fragments : List FragmentDefinition) (root : String) (selections : List Selection)

/-- **A field that an object at a response path is asked for.** -/
def AskedAt (path : List (String × String)) (object : String) (head : FieldHead) : Prop :=
  ∃ type set inner, registry.Requested fragments root selections path type set ∧
    registry.Represents object type ∧ registry.Asks fragments object type set head inner

/-- Whether a set on an interface or union applies to an object at a response path. -/
def AbstractAt (path : List (String × String)) (object : String) : Prop :=
  ∃ type set, registry.Requested fragments root selections path type set ∧
    registry.Represents object type ∧ ∃ isConditional abstract inside,
      registry.Expands fragments object type set isConditional abstract inside ∧
        registry.HasKind TypeKind.isAbstract abstract

end Registry

/-- **A shape has exactly the keys that the definitions ask for.** -/
structure KeysExact (registry : Registry) (fragments : List FragmentDefinition) (root : String)
    (selections : List Selection) (shape : ResultShape) : Prop where
  /-- There is a shape at each path where selection sets meet, for the type there, and at no other. -/
  paths : ∀ path type, (∃ inner, shape.At registry path inner ∧ inner.type = type) ↔
    ∃ set, registry.Requested fragments root selections path type set
  /-- The keys are those of the fields, and that of the type's name if there is an interface or union. -/
  keys : ∀ path inner object, shape.At registry path inner → registry.Represents object inner.type →
    ∀ key, key ∈ (inner.fieldsFor object).map ShapeField.key ↔
      (∃ head, registry.AskedAt fragments root selections path object head ∧ head.responseKey = key) ∨
        key = typename ∧ registry.AbstractAt fragments root selections path object
  agree : ∀ path object head other, registry.AskedAt fragments root selections path object head →
    registry.AskedAt fragments root selections path object other → head.responseKey = other.responseKey →
        head.name = other.name ∧ SameUpToOrder head.arguments other.arguments

namespace Scope

variable {scope : Scope} {fragments : List FragmentDefinition} {definition : OperationDefinition}
  {operation : BoundOperation} {path : List (String × String)} {obj type : String} {merged : List BoundSelection}

theorem Accepts.exists_entry (h : scope.Accepts definition operation) (hd : scope.Declares fragments)
    (hp : scope.registry.Place operation.root operation.selections path type merged) {ha : FieldHead}
    (hk : scope.registry.AskedAt fragments operation.root definition.selections path obj ha) :
    scope.registry.Represents obj type ∧ ∃ e ∈ scope.registry.collect obj merged,
      e.field.responseKey = ha.responseKey ∧ e.field.name = ha.name ∧ e.field.arguments = ha.arguments := by
  obtain ⟨type', set, inner, hse, ho, isCond, above, inside, he, hm⟩ := hk
  obtain ⟨hc, merged', hp', hu⟩ := h.place_of_requested hd hse
  obtain ⟨rfl, rfl⟩ := hp.unique hp'
  obtain ⟨e, hs, hf, -⟩ :=
    h.complete.selects_of_asks h.valid hd hc he hm
  exact ⟨ho, e, mem_collect.mpr (hs.mono hu), hf.key, hf.name, hf.arguments⟩

theorem mem_keys_objectKeys {registry : Registry} {key : String} :
    key ∈ (registry.objectKeys obj merged).map ShapeField.key ↔
      ∃ e ∈ registry.collect obj merged, e.field.responseKey = key := by
  simp only [shapeKeys, map_map, mem_map]
  constructor
  · rintro ⟨group, hg, rfl⟩
    exact ⟨group.first, ((mem_entries hg).mp mem_cons_self).1, rfl⟩
  · rintro ⟨e, he, rfl⟩
    exact exists_mem_ofList he

/-- **The keys at a place.** -/
theorem Accepts.mem_keys (h : scope.Accepts definition operation) (hd : scope.Declares fragments)
    (hp : scope.registry.Place operation.root operation.selections path type merged)
    (ho : scope.registry.Represents obj type) {key : String} :
    (∃ e ∈ scope.registry.collect obj merged, e.field.responseKey = key) ↔
      (∃ head, scope.registry.AskedAt fragments operation.root definition.selections path obj head ∧
        head.responseKey = key) ∨ key = typename ∧
        scope.registry.AbstractAt fragments operation.root definition.selections path obj := by
  constructor
  · rintro ⟨e, hn, rfl⟩
    obtain ⟨set, hs, isCond, above, inside, he, hw⟩ :=
      h.exists_written hd (h.requested_of_place hd hp) hn
    rcases hw with ⟨head, inner, hm, hf, -⟩ | ⟨had, loc, rfl⟩
    · exact Or.inl ⟨head, ⟨type, set, inner, hs, ho, _, _, _, he, hm⟩, hf.key.symm⟩
    · exact Or.inr ⟨rfl, type, set, hs, ho, _, _, _, he, had.1⟩
  · rintro (⟨head, hasked, rfl⟩ | ⟨rfl, type', set, hs, -, isCond, above, inside, he, ha⟩)
    · obtain ⟨-, e, hn, hk, -⟩ := h.exists_entry hd hp hasked
      exact ⟨e, hn, hk⟩
    · obtain ⟨hc, merged', hp', hu⟩ := h.place_of_requested hd hs
      obtain ⟨rfl, rfl⟩ := hp.unique hp'
      obtain ⟨-, hl⟩ := h.complete.selects_of_expands h.valid hd hc he
      obtain ⟨bound, hb, hk⟩ := exists_hasKey_typename ha inside
      cases bound with
      | field head inner =>
        exact ⟨_, mem_collect.mpr ((hl _ (.field hb)).mono hu), beq_iff_eq.mp hk⟩
      | fragment use inner => cases hk

/-- **The shape of an accepted operation has exactly the keys that its definition asks for.** -/
theorem Accepts.keysExact (h : scope.Accepts definition operation) (hd : scope.Declares fragments) :
    KeysExact scope.registry fragments operation.root definition.selections operation.shape where
  paths path type := by
    rw [h.shape]
    constructor
    · rintro ⟨inner, ht, rfl⟩
      obtain ⟨type, merged, hp, rfl⟩ := (at_iff h.valid).mp ht
      rw [type_resultShape]
      exact h.exists_requested hd hp
    · rintro ⟨set, hs⟩
      obtain ⟨-, merged, hp, -⟩ := h.place_of_requested hd hs
      exact ⟨_, (at_iff h.valid).mpr ⟨type, merged, hp, rfl⟩, type_resultShape _ _ _⟩
  keys path inner obj ht ho key := by
    rw [h.shape] at ht
    obtain ⟨type, merged, hp, rfl⟩ := (at_iff h.valid).mp ht
    rw [type_resultShape] at ho
    rw [← h.mem_keys hd hp ho, ← mem_keys_objectKeys]
    simp [h.valid.mem_fieldsFor ho]
  agree path obj head other hh hot hy := by
    obtain ⟨merged, type, hp⟩ : ∃ merged type,
        scope.registry.Place operation.root operation.selections path type merged := by
      obtain ⟨type, set, -, hs, -⟩ := hh
      obtain ⟨-, merged, hp, -⟩ := h.place_of_requested hd hs
      exact ⟨merged, type, hp⟩
    obtain ⟨ho, e, he, hek, hn, ha⟩ := h.exists_entry hd hp hh
    obtain ⟨-, e', he', hk', hn', ha'⟩ := h.exists_entry hd hp hot
    obtain ⟨group, hg, hk⟩ := exists_mem_ofList he
    have hm := hp.mergeable h.valid h.agrees ho hg
      ((mem_entries hg).mpr ⟨he, hk.symm⟩)
    have hm' := hp.mergeable h.valid h.agrees ho hg
      ((mem_entries hg).mpr ⟨he', by rw [hk, hek, hk', hy]⟩)
    rw [canMerge, and_eq_true, beq_iff_eq] at hm hm'
    rw [← hn, ← hn', ← ha, ← ha']
    exact ⟨hm.1.symm.trans hm'.1, sameArguments_euclidean hm.2 hm'.2⟩

end Scope

/-- **The result shape has exactly the response keys.** In an accepted run, the shape of an operation is
compared with the definitions of the documents, where every fragment is looked up by its name. -/
theorem responseKeys_exact (sources : List Source) (hids : ∀ source ∈ sources, source.id ≠ Location.builtinSource)
    (hok : (analyze sources).isOk) (operation : BoundOperation) (h : operation ∈ (analyze sources).operations) :
    ∃ definition ∈ (Source.documents sources).flatMap Document.operations, definition.name = some operation.name ∧
      (analyze sources).registry.rootType definition.kind = some operation.root ∧
      KeysExact (analyze sources).registry ((Source.documents sources).flatMap Document.fragments)
        operation.root definition.selections operation.shape := by
  obtain ⟨definition, hdefinition, haccepts⟩ := exists_accepts hids hok h
  rw [registry_of_passed (passed_of_isOk hok), ← registry_scope]
  exact ⟨definition, hdefinition, haccepts.name, haccepts.root, haccepts.keysExact (declares_of_isOk hok)⟩

/-- Fields that meet under one key through fragments on an object type and on its interface. -/
def meetingSources : List Source :=
  Source.number [("schema.graphql",
      "interface Node \x7b id: ID \x7d type Query implements Node \x7b id: ID node: Node \x7d"),
    ("query.graphql", "query Q \x7b node \x7b ...Both ... on Query \x7b node \x7b __typename \x7d \x7d \x7d \x7d " ++
        "fragment Both on Query \x7b node \x7b key: id \x7d \x7d")]

theorem responseKeys_exact_meeting : (∀ source ∈ meetingSources, source.id ≠ Location.builtinSource) ∧
      (analyze meetingSources).isOk ∧ ∃ operation ∈ (analyze meetingSources).operations,
        ∃ definition ∈ (Source.documents meetingSources).flatMap Document.operations,
          definition.name = some operation.name ∧
          (analyze meetingSources).registry.rootType definition.kind = some operation.root ∧
          KeysExact (analyze meetingSources).registry
            ((Source.documents meetingSources).flatMap Document.fragments) operation.root
            definition.selections operation.shape := by
  have hids : ∀ source ∈ meetingSources, source.id ≠ Location.builtinSource := by decide
  obtain ⟨hok, hbound⟩ : (analyze meetingSources).isOk ∧
      0 < (analyze meetingSources).operations.length := by decide +kernel
  have hmem := get_mem (analyze meetingSources).operations ⟨0, hbound⟩
  exact ⟨hids, hok, _, hmem, responseKeys_exact meetingSources hids hok _ hmem⟩

end GraphClient
