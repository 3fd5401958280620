import GraphClient.Proofs.Operation.Places

/-!
# The keys of a shape

* **`Registry.tidy_of_contains`**: the shapes of selection sets are tidy at every depth.
-/

namespace GraphClient

open List

/-- **Each key has one group.** -/
theorem FieldGroup.nodup_ofList (fs : List Collected) : ((ofList fs).map key).Nodup := by
  induction fs with
  | nil => exact nodup_nil
  | cons e rest ih =>
    change ((put e (ofList rest)).map key).Nodup
    rw [put, map_cons, nodup_cons]
    refine ⟨fun hm => ?_, ih.sublist (filter_sublist.map _)⟩
    obtain ⟨group, hg, hk⟩ := mem_map.mp hm
    have ho := (mem_filter.mp hg).2
    exact absurd hk (by simpa [key] using ho)

namespace ResultShape

/-- **What the shapes of selection sets look like**: no key stands twice, and what a shape with variants
has is shared by all of them. -/
structure Tidy (shape : ResultShape) : Prop where
  fields : (shape.fields.map ShapeField.key).Nodup
  variants : ∀ variant ∈ shape.variants, (variant.fields.map ShapeField.key).Nodup
  shared : ∀ variant ∈ shape.variants, shape.fields ⊆ variant.fields

theorem Contains.trans {root shape inner : ResultShape} (h : root.Contains shape)
    (hi : shape.Contains inner) : root.Contains inner := by
  induction hi with
  | self => exact h
  | field _ hf hb ih => exact .field ih hf hb

end ResultShape

namespace Registry

variable {reg : Registry} {type obj : String} {sels : List BoundSelection}
  {shape : ResultShape} {field : ShapeField}

theorem nodup_objectKeys (reg : Registry) (obj : String) (sels : List BoundSelection) :
    ((reg.objectKeys obj sels).map ShapeField.key).Nodup := by
  rw [objectKeys, shapeKeys, map_map]
  exact FieldGroup.nodup_ofList _

theorem sharedFields_sublist {first : ShapeVariant} {rest : List ShapeVariant} :
    (sharedFields (first :: rest)).Sublist first.fields := filter_sublist

theorem tidy_resultShape (reg : Registry) (type : String) (sels : List BoundSelection) :
    (reg.resultShape type sels).Tidy := by
  rw [resultShape_eq, shapeLevel]
  cases reg.variantTypes type with
  | nil =>
    exact ⟨nodup_objectKeys reg type sels, fun _ h => absurd h not_mem_nil, fun _ h => absurd h not_mem_nil⟩
  | cons first rest =>
    refine ⟨?_, ?_, fun v hv field hf => mem_sharedFields hf hv⟩
    · exact (nodup_objectKeys reg first sels).sublist (sharedFields_sublist.map _)
    · intro v hv
      obtain ⟨obj, -, rfl⟩ := mem_map.mp hv
      exact nodup_objectKeys reg obj sels

theorem exists_group (h : (reg.resultShape type sels).Describes obj field) :
    ∃ other, ∃ group ∈ FieldGroup.ofList (reg.collect other sels), field = shapeKey reg.resultShape group := by
  have hk : ∀ other, field ∈ reg.objectKeys other sels → ∃ other, ∃ group ∈ FieldGroup.ofList (reg.collect other sels),
        field = shapeKey reg.resultShape group := by
    intro other hf
    obtain ⟨group, hg, rfl⟩ := mem_map.mp hf
    exact ⟨other, group, hg, rfl⟩
  rcases h with hf | ⟨v, ha, -, hf⟩
  · rw [resultShape_eq, shapeLevel] at hf
    cases hv : reg.variantTypes type with
    | nil => exact hk type (by simpa only [hv] using hf)
    | cons first rest =>
      simp only [hv] at hf
      exact hk first (sharedFields_sublist.subset hf)
  · obtain ⟨other, -, rfl⟩ := mem_variants.mp ha
    exact hk other hf

theorem exists_resultShape (h : (reg.resultShape type sels).Contains shape) :
    ∃ name inner, shape = reg.resultShape name inner := by
  induction h with
  | self => exact ⟨type, sels, rfl⟩
  | field _ hf hi ih =>
    obtain ⟨name, inner, rfl⟩ := ih
    obtain ⟨other, group, -, rfl⟩ := exists_group hf
    exact ⟨_, _, (shapeKey_shape_eq.mp hi).2⟩

theorem tidy_of_contains (h : (reg.resultShape type sels).Contains shape) : shape.Tidy := by
  obtain ⟨name, inner, rfl⟩ := exists_resultShape h
  exact tidy_resultShape reg name inner

end Registry

end GraphClient
