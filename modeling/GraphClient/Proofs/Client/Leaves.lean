import GraphClient.Proofs.Client.Members
import GraphClient.Proofs.Operation.ShapeTypes

/-!
# The types that clients refer to

What the code of a client says about a type depends on its kind. Every type that a field, an input or a
variable names has one, and what a response holds without a shape is a scalar or an enum.
-/

namespace GraphClient

open List Source Registry

namespace Registry

/-- Scalars and enums, whose values have no parts. -/
def IsLeaf (registry : Registry) (name : String) : Prop :=
  registry.kind? name = some .scalar ∨ registry.kind? name = some .enum

variable {reg : Registry} {name : String}

theorem isLeaf_of_output (h : reg.HasKind TypeKind.isOutput name)
    (hn : ¬reg.HasKind TypeKind.isComposite name) : reg.IsLeaf name := by
  obtain ⟨kind, hk, ho⟩ := h
  rw [IsLeaf, hk]
  cases kind with
  | scalar => exact .inl rfl
  | enum => exact .inr rfl
  | inputObject => cases ho
  | object | interface | union => exact absurd ⟨_, hk, rfl⟩ hn

theorem Valid.isOutput_of_field? (h : reg.Valid) {field : String} {declared : FieldDefinition}
    (hf : reg.field? name field = some declared) : reg.HasKind TypeKind.isOutput declared.type.name := by
  obtain ⟨type, ht, hf⟩ := Option.bind_eq_some_iff.mp hf
  have hw := h.wellFormed.types type ((mem_values h.named).mpr ⟨name, ht⟩)
  have hm := mem_of_find?_eq_some hf
  rw [TypeDefinition.fields] at hm
  cases hb : type.body with
  | object _ _ | interface _ _ =>
    rw [hb] at hw hm
    exact hw.kinds _ hm
  | _ => simp [hb] at hm

end Registry

/-- The shape below a key is a smaller one. -/
theorem ResultShape.Describes.sizeOf_lt {shape inner : ResultShape} {obj : String} {field : ShapeField}
    (h : shape.Describes obj field) (hi : field.shape = some inner) : sizeOf inner < sizeOf shape := by
  have hf : sizeOf inner < sizeOf field := by
    cases field
    simp only at hi
    simp [hi]
    omega
  obtain ⟨type, fields, vs⟩ := shape
  rw [mk.sizeOf_spec]
  rcases h with hm | ⟨⟨obj, own⟩, hv, -, hm⟩
  · have hl : sizeOf field < sizeOf fields := sizeOf_lt_of_mem hm
    omega
  · have hl : sizeOf field < sizeOf own := sizeOf_lt_of_mem hm
    have hg : sizeOf (ShapeVariant.mk obj own) < sizeOf vs := sizeOf_lt_of_mem hv
    rw [ShapeVariant.mk.sizeOf_spec] at hg
    omega

theorem Target.native?_eq (target : Target) (name : String) : target.native? name =
    if target.registry.kind? name = some .scalar then nativeType target.language name else none := by
  rw [native?, scalar?]
  split_ifs
  · cases nativeType target.language name with
    | some type => rfl
    | none => cases target.options.scalars.find? name <;> rfl
  · rfl

/-- A field of a response type is a leaf, or names the response type of the shape below. -/
def FieldPlan.Stands (registry : Registry) (plans : List ShapePlan) (entry : FieldPlan) : Prop :=
  entry.nested = none ∧ registry.IsLeaf entry.field.type.name ∨ ∃ inner, entry.field.shape = some inner ∧
    ∃ plan ∈ plans, entry.nested = some plan.name ∧ plan.IsOf plans inner

variable {srcs : List Source} {op : BoundOperation}

theorem kind?_builtin (hok : (analyze srcs).isOk) {name : String} (h : name ∈ builtinScalars) :
    (registry srcs).kind? name = some .scalar := by
  have hp := passed_of_isOk hok
  simp only [schemaProblems, Diagnostics.append_clean] at hp
  obtain ⟨type, ht, hg⟩ := (build_clean.mp hp.1.2).1.grown_builtin h
  exact (kind?_of_type? ht).trans (congrArg some hg.kind)

theorem isInput_of_mem_parameters (hok : (analyze srcs).isOk) (h : op ∈ (analyze srcs).operations)
    {entry : BoundVariable} (he : entry ∈ op.parameters) :
    (registry srcs).HasKind TypeKind.isInput entry.type.name := by
  obtain ⟨defn, hd, hb⟩ := exists_definition h
  obtain ⟨_, _, -, -, hv, -⟩ := Scope.bindOperation_clean.mp (clean_of_isOk hok hd)
  rw [(Scope.bindOperation_some hb).2.2] at he
  obtain ⟨param, hp, rfl⟩ := mem_map.mp he
  have hc := ((Scope.variableDiagnostics_clean.mp hv).2 param (mem_of_mem_firsts hp)).2
  rw [Scope.variableTypeDiagnostics, registry_scope] at hc
  cases hk : (registry srcs).kind? param.type.name with
  | none => simp [hk] at hc
  | some kind =>
    refine ⟨kind, hk, ?_⟩
    by_contra hi
    simp [hk, hi] at hc

section Accepted

variable (hids : ∀ source ∈ srcs, source.id ≠ Location.builtinSource) (hok : (analyze srcs).isOk)

include hids hok

/-- **Every type is built in or has a file.** -/
theorem mem_userTypes_or_builtin {name : String} {kind : TypeKind} (h : (registry srcs).kind? name = some kind) :
    (∃ type ∈ (registry srcs).userTypes, type.name = name ∧ type.kind = kind) ∨
      name ∈ builtinScalars ∧ kind = .scalar := by
  obtain ⟨type, ht, rfl⟩ := Option.map_eq_some_iff.mp h
  have hp := passed_of_isOk hok
  simp only [schemaProblems, Diagnostics.append_clean] at hp
  rcases (build_clean.mp hp.1.2).1.user_or_grown ht (placed_documents hids) with hu | ⟨hb, hg⟩
  · exact .inl ⟨type, hu, (named_registry srcs).name_eq ht, rfl⟩
  · exact .inr ⟨hb, hg.kind⟩

/-- **What a response holds without a shape is a leaf.** -/
theorem isLeaf_of_describes (h : op ∈ (analyze srcs).operations) {shape : ResultShape} {obj : String}
    {field : ShapeField} (hc : op.shape.Contains shape) (hf : shape.Describes obj field)
    (hs : field.shape = none) : (registry srcs).IsLeaf field.type.name := by
  obtain ⟨defn, -, ha⟩ := exists_accepts hids hok h
  rw [ha.shape] at hc
  obtain ⟨path, type, merged, hp, rfl⟩ := (contains_iff ha.valid).mp hc
  obtain ⟨other, hr, hk⟩ := ha.valid.exists_objectKey hf
  by_cases hn : field.name = typename
  · obtain ⟨group, hg, rfl⟩ := mem_map.mp hk
    rcases ha.typed hp hr ((FieldGroup.mem_entries hg).mp mem_cons_self).1 with ⟨-, ht, -⟩ | ⟨hne, -⟩
    · have he : group.type.name = "String" := by rw [FieldGroup.type]; split_ifs <;> rw [ht] <;> rfl
      exact .inl ((congrArg _ he).trans (kind?_builtin hok (by decide)))
    · exact absurd hn hne
  · obtain ⟨declared, hd, ht, hi⟩ := ha.fits hp hr hk hn
    rw [← TypeRef.name_of_isCovariant ht, ← registry_scope]
    exact isLeaf_of_output (ha.valid.isOutput_of_field? hd) fun hm => by simpa [hs] using hi.mpr hm

/-- **The response types of an operation** are planned from shapes, and their fields stand for what is there. -/
theorem operation_cases {taken : TakenNames} {root : String} {plans : List ShapePlan}
    (h : .operation op root plans ∈ planFiles (analyze srcs).declarations taken) :
    op ∈ (analyze srcs).operations ∧ root ∈ plans.map ShapePlan.name ∧
      ∀ plan ∈ plans, (∃ shape, plan.PlannedFrom plans shape) ∧
        ∀ e ∈ plan.entries, e.Stands (registry srcs) plans := by
  obtain ⟨hd, before, hp⟩ := exists_planOperation h
  obtain ⟨rfl, rfl⟩ := Prod.mk.inj hp
  have ho := Analysis.operation_mem hd
  obtain ⟨⟨first, rest, hq, hn, -⟩, hs⟩ := settled_planShape (before.claim (op.name ++ "Result")).1
    (allTidy_of_mem_operations ho) _ op.name op.shape _ .self (.inl rfl) (List.Subset.refl _)
  refine ⟨ho, mem_map.mpr ⟨first, hq ▸ mem_cons_self, hn⟩, fun plan hm => ?_⟩
  obtain ⟨hf, ⟨shape, hc, hfr⟩, -⟩ := hs plan hm
  refine ⟨⟨shape, hfr⟩, fun e he => ?_⟩
  have hr := hf e he
  obtain ⟨obj, hd⟩ := hfr.describes he
  rw [FieldPlan.Resolves] at hr
  cases hn : e.nested with
  | none =>
    cases hi : e.field.shape with
    | none => exact .inl ⟨hn, isLeaf_of_describes hids hok ho hc hd hi⟩
    | some inner => simp [hn, hi] at hr
  | some name =>
    cases hi : e.field.shape with
    | none => simp [hn, hi] at hr
    | some inner =>
      simp only [hn, hi] at hr
      obtain ⟨other, hot, rfl, hof⟩ := hr
      exact .inr ⟨inner, hi, other, hot, hn, hof⟩

end Accepted

end GraphClient
