import GraphClient.Proofs.Operation.Places

/-!
# Types in shapes

The type of a key is that of the field that was collected first, on whatever interface or union it was
selected. It fits every object that the shape describes.
-/

namespace GraphClient

/-- The object types that a shape describes: those of its variants, or its own type if that is one. -/
def ResultShape.DescribesType (registry : Registry) (shape : ResultShape) (object : String) : Prop :=
  shape.type = object ∧ registry.kind? object = some .object ∨ ∃ variant ∈ shape.variants, variant.type = object

/-- **A key of an object fits the field that the object declares for it**: the declared type can stand for
that of the key, and there is a shape below the key just if it names a type with fields. -/
def ShapeField.Fits (registry : Registry) (object : String) (field : ShapeField) : Prop :=
  ∃ declared, registry.field? object field.name = some declared ∧ declared.type.isCovariant field.type ∧
    (field.shape.isSome ↔ registry.HasKind TypeKind.isComposite declared.type.name)

theorem Registry.Valid.represents_of_describesType {reg : Registry} (h : reg.Valid)
    {obj type : String} {sels : List BoundSelection} (ho : (reg.resultShape type sels).DescribesType reg obj) :
    reg.Represents obj type := by
  rcases ho with ⟨ht, hk⟩ | ⟨v, hv, rfl⟩
  · obtain rfl : type = obj := by rwa [type_resultShape] at ht
    exact h.represents_iff.mpr (Or.inr ⟨by simp [variantTypes, hk, TypeKind.isAbstract], rfl⟩)
  · obtain ⟨obj, ho, rfl⟩ := mem_variants.mp hv
    exact h.represents_iff.mpr (Or.inl ho)

theorem FieldGroup.isCovariant_type {group : FieldGroup} {actual : TypeRef}
    (h : actual.isCovariant group.first.field.type) : actual.isCovariant group.type := by
  rw [type]
  split_ifs
  · exact TypeRef.isCovariant_nullable h
  · exact h

/-- **The keys of an object at a place fit it.** -/
theorem Scope.Accepts.fits {scope : Scope} {defn : OperationDefinition} {op : BoundOperation}
    (h : scope.Accepts defn op) {path : List (String × String)} {type obj : String}
    {merged : List BoundSelection} (hp : scope.registry.Place op.root op.selections path type merged)
    (hob : scope.registry.Represents obj type) {f : ShapeField}
    (hf : f ∈ scope.registry.objectKeys obj merged) (hn : f.name ≠ typename) : f.Fits scope.registry obj := by
  obtain ⟨group, hg, rfl⟩ := List.mem_map.mp hf
  have ht : ∀ e ∈ group.entries, scope.FieldTyped obj e.field e.selections :=
    fun e he => h.typed hp hob ((FieldGroup.mem_entries hg).mp he).1
  rcases ht group.first List.mem_cons_self with ⟨heq, -⟩ | ⟨-, decls, hd, hco, -⟩
  · exact absurd heq hn
  refine ⟨decls, hd, FieldGroup.isCovariant_type hco, ?_⟩
  have hi : ∀ e ∈ group.entries, (e.selections ≠ [] ↔
      scope.registry.HasKind TypeKind.isComposite decls.type.name) := by
    intro e he
    have hs := hp.name_first h.valid h.agrees hob hg he
    rcases ht e he with ⟨heq, -⟩ | ⟨-, other, ho, -, hse, -⟩
    · exact absurd (hs.trans heq) hn
    · rw [← hs, hd, Option.some.injEq] at ho
      rwa [ho]
  have hsh : (Registry.shapeKey scope.registry.resultShape group).shape.isSome ↔ group.selections ≠ [] := by
    simp [Option.isSome_iff_exists, Registry.shapeKey_shape_eq]
  rw [hsh, FieldGroup.selections, ne_eq, List.flatMap_eq_nil_iff]
  constructor
  · intro hso
    by_contra hno
    exact hso fun e he => by_contra fun hne => hno ((hi e he).mp hne)
  · exact fun hc hem =>
      (hi group.first List.mem_cons_self).mpr hc (hem group.first List.mem_cons_self)

/-- **Types in shapes are sound for every object type.** In an accepted run, every key of every object that
a shape describes, at any depth, is the name of the type or fits what the object declares. -/
theorem shapeTypes_sound (sources : List Source) (hids : ∀ source ∈ sources, source.id ≠ Location.builtinSource)
    (hok : (analyze sources).isOk) (operation : BoundOperation)
    (h : operation ∈ (analyze sources).operations) (shape : ResultShape)
    (hshape : operation.shape.Contains shape) (object : String)
    (hobject : shape.DescribesType (analyze sources).registry object) (field : ShapeField)
    (hfield : shape.Describes object field) (hname : field.name ≠ typename) :
    field.Fits (analyze sources).registry object := by
  obtain ⟨definition, -, haccepts⟩ := exists_accepts hids hok h
  rw [registry_of_passed (passed_of_isOk hok), ← registry_scope] at hobject ⊢
  rw [haccepts.shape] at hshape
  obtain ⟨path, type, merged, hplace, rfl⟩ := (Registry.contains_iff haccepts.valid).mp hshape
  have hrepresents := haccepts.valid.represents_of_describesType hobject
  exact haccepts.fits hplace hrepresents ((haccepts.valid.describes_iff hrepresents).mp hfield) hname

/-- A field that is selected on an interface and declared with a narrower type by an object. -/
def narrowedSources : List Source :=
  Source.number [("schema.graphql",
      "interface Node \x7b id: ID \x7d type User implements Node \x7b id: ID! \x7d type Query \x7b node: Node \x7d"),
    ("query.graphql", "query Q \x7b node \x7b id \x7d \x7d")]

theorem shapeTypes_sound_narrowed : (∀ source ∈ narrowedSources, source.id ≠ Location.builtinSource) ∧
      (analyze narrowedSources).isOk ∧
      ∃ operation ∈ (analyze narrowedSources).operations, ∃ shape, operation.shape.Contains shape ∧
        shape.DescribesType (analyze narrowedSources).registry "User" ∧
        ∃ field, shape.Describes "User" field ∧ field.name ≠ typename ∧
          field.Fits (analyze narrowedSources).registry "User" := by
  have hids : ∀ source ∈ narrowedSources, source.id ≠ Location.builtinSource := by decide
  have hok : (analyze narrowedSources).isOk := by decide +kernel
  have hshape : ∃ operation ∈ (analyze narrowedSources).operations, ∃ field ∈ operation.shape.fields,
      ∃ inner ∈ field.shape.toList, ∃ variant ∈ inner.variants, variant.type = "User" ∧
        ∃ below ∈ variant.fields, below.name ≠ typename := by
    decide +kernel
  obtain ⟨operation, hmem, field, hfield, inner, hinner, variant, hvariant, htype, below, hbelow, hname⟩ :=
    hshape
  have hcontains : operation.shape.Contains inner :=
    .field .self (show operation.shape.Describes "Query" field from Or.inl hfield) (Option.mem_toList.mp hinner)
  have hobject : inner.DescribesType (analyze narrowedSources).registry "User" := Or.inr ⟨variant, hvariant, htype⟩
  have hdescribes : inner.Describes "User" below := Or.inr ⟨variant, hvariant, htype, hbelow⟩
  exact ⟨hids, hok, operation, hmem, inner, hcontains, hobject, below, hdescribes, hname,
    shapeTypes_sound narrowedSources hids hok operation hmem inner hcontains "User" hobject below hdescribes
      hname⟩

end GraphClient
