import GraphClient.Proofs.Operation.Expansion

/-!
# Telling variants apart

A response for an interface or union is read by the name of its type, under the key `__typename`. The name is
added to a set unless something stands under that key, which may be another field, or a name that is left
out.
-/

namespace GraphClient

open Registry FieldGroup List

/-- **Every variant of a shape, at any depth, tells its type** under the key `__typename`. -/
def ResultShape.Discriminated (shape : ResultShape) : Prop :=
  ∀ inner, shape.Contains inner → ∀ variant ∈ inner.variants, ∃ field ∈ variant.fields,
    field.key = typename ∧ field.name = typename ∧ field.type = (TypeRef.named "String").nonNull

namespace Registry

/-- A set tells the type of every object that it applies to: it asks for the name of the type under its own
key and without condition, or it is on an interface or union and leaves that key free. -/
def TellsType (registry : Registry) (type : String) (set : List Selection) : Prop :=
  (∃ head inner, .field head inner ∈ set ∧ head.responseKey = typename ∧ head.name = typename ∧
    DirectiveUse.isConditional head.directives = false) ∨
  registry.HasKind TypeKind.isAbstract type ∧ ∀ head inner, .field head inner ∈ set → head.responseKey ≠ typename

/-- **The types of objects are told**: wherever selection sets on an interface or union meet, for each object
type of it, a set that applies without condition tells it. -/
def TypesTold (registry : Registry) (fragments : List FragmentDefinition) (root : String)
    (selections : List Selection) : Prop :=
  ∀ path type set, registry.Requested fragments root selections path type set →
    registry.HasKind TypeKind.isAbstract type → ∀ object, registry.IsOf object type →
      ∃ other, registry.Requested fragments root selections path type other ∧ ∃ above inside,
        registry.Expands fragments object type other false above inside ∧ registry.TellsType above inside

end Registry

namespace Scope

variable {scope : Scope} {frags : List FragmentDefinition} {definition : OperationDefinition}
  {operation : BoundOperation} {path : List (String × String)} {obj type : String} {merged : List BoundSelection}

/-- Whether an object is asked for the name of its type, under its own key and without condition. -/
def NamesType (entry : Collected) : Prop :=
  entry.field.responseKey = typename ∧ entry.field.name = typename ∧ entry.isConditional = false

/-- **A key of an object tells its type just if some field under it does.** -/
theorem Accepts.exists_key_iff (h : scope.Accepts definition operation)
    (hp : scope.registry.Place operation.root operation.selections path type merged)
    (ho : scope.registry.Represents obj type) :
    (∃ f ∈ scope.registry.objectKeys obj merged, f.key = typename ∧ f.name = typename ∧
      f.type = (TypeRef.named "String").nonNull) ↔ ∃ e ∈ scope.registry.collect obj merged, NamesType e := by
  constructor
  · rintro ⟨f, hfi, hk, hn, ht⟩
    obtain ⟨group, hg, rfl⟩ := mem_map.mp hfi
    have hnn : group.type.isNonNull := by
      rw [show group.type = _ from ht]
      rfl
    obtain ⟨-, e, hi, hc⟩ := isNonNull_type.mp hnn
    obtain ⟨he, hek⟩ := (mem_entries hg).mp hi
    exact ⟨e, he, hek.trans hk, (h.same_first hp ho hg hi).1.symm.trans hn, hc⟩
  · rintro ⟨e, he, hk, hn, hc⟩
    obtain ⟨group, hg, hgk⟩ := exists_mem_ofList he
    have hi : e ∈ group.entries := (mem_entries hg).mpr ⟨he, hgk.symm⟩
    have hf : group.first.field.name = typename := (h.same_first hp ho hg hi).1.trans hn
    have ht : group.first.field.type = (TypeRef.named "String").nonNull := by
      rcases h.typed hp ho ((mem_entries hg).mp mem_cons_self).1 with
        ⟨-, ht, -⟩ | ⟨hne, -⟩
      · exact ht
      · exact absurd hf hne
    refine ⟨_, mem_map_of_mem hg, hgk.trans hk, hf, ?_⟩
    change group.type = _
    rw [FieldGroup.type, isConditional_eq_false.mpr ⟨e, hi, hc⟩, ht]
    rfl

/-- **An object is asked for the name of its type just if a set that applies to it tells it.** -/
theorem Accepts.exists_namesType_iff (h : scope.Accepts definition operation) (hd : scope.Declares frags)
    (hp : scope.registry.Place operation.root operation.selections path type merged) :
    (∃ e ∈ scope.registry.collect obj merged, NamesType e) ↔
      ∃ set, scope.registry.Requested frags operation.root definition.selections path type set ∧
        ∃ above inside, scope.registry.Expands frags obj type set false above inside ∧
          scope.registry.TellsType above inside := by
  constructor
  · rintro ⟨e, hen, hk, hn, hc⟩
    obtain ⟨set, hs, isCond, above, inside, he, hw⟩ :=
      h.exists_written hd (h.requested_of_place hd hp) hen
    rcases hw with ⟨head, inner, hm, hf, hq⟩ | ⟨ha, loc, rfl⟩
    · rw [hq, Bool.or_eq_false_iff] at hc
      obtain ⟨rfl, hh⟩ := hc
      exact ⟨set, hs, above, inside, he, Or.inl ⟨head, inner, hm, hf.key.symm.trans hk, hf.name.symm.trans hn, hh⟩⟩
    · obtain rfl : isCond = false := hc
      exact ⟨set, hs, above, inside, he, Or.inr ha⟩
  · rintro ⟨set, hs, above, inside, he, ht⟩
    obtain ⟨hcl, merged', hp', hu⟩ := h.place_of_requested hd hs
    obtain ⟨-, rfl⟩ := hp.unique hp'
    rcases ht with ⟨head, inner, hm, hk, hn, hh⟩ | ha
    · obtain ⟨e, hse, hf, hc⟩ :=
        h.complete.selects_of_asks h.valid hd hcl he hm
      exact ⟨e, mem_collect.mpr (hse.mono hu), hf.key.trans hk, hf.name.trans hn, by rw [hc, hh]; rfl⟩
    · obtain ⟨hi, hl⟩ := h.complete.selects_of_expands h.valid hd hcl he
      obtain ⟨loc, hb⟩ := h.complete.exists_typename hi ha
      exact ⟨_, mem_collect.mpr ((hl _ (.field hb)).mono hu), rfl, rfl, rfl⟩

/-- **The shape of an accepted operation is discriminated just if its definition tells all types.** -/
theorem Accepts.discriminated_iff (h : scope.Accepts definition operation) (hd : scope.Declares frags) :
    operation.shape.Discriminated ↔ scope.registry.TypesTold frags operation.root definition.selections := by
  rw [h.shape]
  constructor
  · intro hdi path type set hs ha obj ho
    obtain ⟨-, merged, hp, -⟩ := h.place_of_requested hd hs
    have hc := (contains_iff h.valid).mpr ⟨path, type, merged, hp, rfl⟩
    have hv : ⟨obj, scope.registry.objectKeys obj merged⟩ ∈
        (scope.registry.resultShape type merged).variants := mem_variants.mpr ⟨obj,
      mem_variantTypes.mpr ⟨ha, h.valid.isOf_iff.mpr ho⟩, rfl⟩
    exact (h.exists_namesType_iff hd hp).mp
      ((h.exists_key_iff hp (Or.inl ho)).mp (hdi _ hc _ hv))
  · intro ht inner hc v hv
    obtain ⟨path, type, merged, hp, rfl⟩ := (contains_iff h.valid).mp hc
    obtain ⟨obj, ho, rfl⟩ := mem_variants.mp hv
    obtain ⟨ha, hpo⟩ := mem_variantTypes.mp ho
    have hi := h.valid.isOf_iff.mp hpo
    obtain ⟨set, hs⟩ := h.exists_requested hd hp
    exact (h.exists_key_iff hp (Or.inl hi)).mpr
      ((h.exists_namesType_iff hd hp).mpr (ht path type set hs ha obj hi))

end Scope

/-- **A response can be discriminated exactly if the definitions tell all types.** -/
theorem discriminated_iff_typesTold (sources : List Source)
    (hids : ∀ source ∈ sources, source.id ≠ Location.builtinSource)
    (hok : (analyze sources).isOk) (operation : BoundOperation) (h : operation ∈ (analyze sources).operations) :
    ∃ definition ∈ (Source.documents sources).flatMap Document.operations,
      definition.name = some operation.name ∧ (operation.shape.Discriminated ↔
        (analyze sources).registry.TypesTold ((Source.documents sources).flatMap Document.fragments)
          operation.root definition.selections) := by
  obtain ⟨definition, hdefinition, haccepts⟩ := exists_accepts hids hok h
  rw [registry_of_passed (passed_of_isOk hok), ← registry_scope]
  exact ⟨definition, hdefinition, haccepts.name, haccepts.discriminated_iff (declares_of_isOk hok)⟩

/-- A selection on an interface whose key for the name of the type can be left out. -/
def takenKeySources : List Source :=
  Source.number [("schema.graphql",
      "interface Node \x7b id: ID \x7d type Query implements Node \x7b id: ID node: Node \x7d"),
    ("query.graphql", "query Q($x: Boolean!) \x7b node \x7b __typename @include(if: $x) \x7d \x7d")]

theorem discriminated_iff_typesTold_taken : (∀ source ∈ takenKeySources, source.id ≠ Location.builtinSource) ∧
      (analyze takenKeySources).isOk ∧ ∃ operation ∈ (analyze takenKeySources).operations,
        ∃ definition ∈ (Source.documents takenKeySources).flatMap Document.operations,
          definition.name = some operation.name ∧ (operation.shape.Discriminated ↔
            (analyze takenKeySources).registry.TypesTold
              ((Source.documents takenKeySources).flatMap Document.fragments) operation.root
              definition.selections) := by
  have hids : ∀ source ∈ takenKeySources, source.id ≠ Location.builtinSource := by decide
  obtain ⟨hok, hbound⟩ : (analyze takenKeySources).isOk ∧
      0 < (analyze takenKeySources).operations.length := by decide +kernel
  have hmem := get_mem (analyze takenKeySources).operations ⟨0, hbound⟩
  exact ⟨hids, hok, _, hmem, discriminated_iff_typesTold takenKeySources hids hok _ hmem⟩

/-- **Responses to an accepted operation need not tell their types.** The name of the type stands under its
key only with a condition, so it is not added, and the variant can lack it. -/
theorem not_discriminated_of_taken_key : (analyze takenKeySources).isOk ∧
      ∃ operation ∈ (analyze takenKeySources).operations, ¬ operation.shape.Discriminated := by
  obtain ⟨hok, operation, hmem, field, hfield, inner, hinner, variant, hvariant, hnullable⟩ :
      (analyze takenKeySources).isOk ∧ ∃ operation ∈ (analyze takenKeySources).operations,
        ∃ field ∈ operation.shape.fields, ∃ inner ∈ field.shape.toList, ∃ variant ∈ inner.variants,
          ∀ below ∈ variant.fields, below.key = typename → below.type.isNonNull = false := by
    decide +kernel
  refine ⟨hok, operation, hmem, fun hdiscriminated => ?_⟩
  have hcontains : operation.shape.Contains inner :=
    .field .self (show operation.shape.Describes "Query" field from Or.inl hfield) (Option.mem_toList.mp hinner)
  obtain ⟨below, hbelow, hkey, -, htype⟩ := hdiscriminated inner hcontains variant hvariant
  have := hnullable below hbelow hkey
  rw [htype] at this
  cases this

end GraphClient
