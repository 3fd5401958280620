import GraphClient.Proofs.Client.Plan

/-!
# Closed lists of response types

A list of response types is closed when every response type that one of them names is in the list, planned
from the shape of the field or variant that names it.

* **`closedPlans_planShape`**: the response types of a shape are closed.
-/

namespace GraphClient

open List FieldPlan ShapePlan

/-! ## Response types of a shape -/

/-- The fields of a response type. Those of a union are what its variants share. -/
def ShapePlan.entries : ShapePlan → List FieldPlan
  | .object plan => plan.fields
  | .union plan => plan.common

/-- The response types that a response type names. -/
def ShapePlan.references : ShapePlan → List String
  | .object plan => plan.fields.filterMap nested
  | .union plan => plan.common.filterMap FieldPlan.nested ++ plan.variants.map Prod.snd

/-- What a union and its variants know of a field that they share. -/
def FieldPlan.signature (entry : FieldPlan) : ShapeField × Option String := (entry.field, entry.nested)

/-- **The response type of a variant of a union.** The fields of the union are exactly its inherited
ones. -/
structure ObjectPlan.IsVariant (union : UnionPlan) (variant : ShapeVariant) (plan : ObjectPlan) : Prop where
  objectType : plan.objectType = some variant.type
  parent : plan.parent = some union.name
  fields : PlannedFields plan.fields variant.fields
  inherited : ((plan.fields.filter isInherited).map signature).Perm
    (union.common.map signature)

/-- **The response type planned from a shape.** The variants of a union are among `plans`. -/
def ShapePlan.IsOf (plans : List ShapePlan) (shape : ResultShape) : ShapePlan → Prop
  | .object plan =>
    shape.variants = [] ∧ plan.objectType = none ∧ plan.parent = none ∧ PlannedFields plan.fields shape.fields
  | .union plan =>
    shape.variants ≠ [] ∧ PlannedFields plan.common shape.fields ∧
      Forall₂ (fun name variant => name.1 = variant.type ∧
        ∃ inner, .object inner ∈ plans ∧ inner.name = name.2 ∧ inner.IsVariant plan variant)
        plan.variants shape.variants

/-- A field names the response type that is planned from its shape, if it has one. -/
def FieldPlan.Resolves (plans : List ShapePlan) (entry : FieldPlan) : Prop :=
  match entry.nested, entry.field.shape with
  | none, none => True
  | some name, some shape => ∃ plan ∈ plans, plan.name = name ∧ plan.IsOf plans shape
  | _, _ => False

/-- A response type that another one names. -/
def Referenced (plans : List ShapePlan) (name : String) : Prop :=
  ∃ other ∈ plans, name ∈ other.references

/-- **The response types of a shape, root first.** No two of them have one name, so each name stands for
one response type. -/
structure ClosedPlans (shape : ResultShape) (plans : List ShapePlan) : Prop where
  nodup : (plans.map ShapePlan.name).Nodup
  root : ∃ first rest, plans = first :: rest ∧ first.IsOf plans shape ∧ ∀ plan ∈ rest, Referenced plans plan.name
  fields : ∀ plan ∈ plans, ∀ entry ∈ plan.entries, entry.Resolves plans
  /-- A union is the root or belongs to a field, and its variants are planned from the same shape. -/
  unions : ∀ union, .union union ∈ plans → ∃ inner, IsOf plans inner (.union union) ∧
    (plans.head? = some (.union union) ∧ inner = shape ∨ ∃ other ∈ plans, ∃ entry ∈ other.entries,
        entry.nested = some union.name ∧ entry.field.shape = some inner)

/-! ## Inherited fields -/

theorem ObjectPlan.ownFields_sublist (plan : ObjectPlan) : plan.ownFields.Sublist plan.fields := by
  rw [ownFields]
  split_ifs
  · exact filter_sublist
  · exact List.Sublist.refl _

variable {es : List FieldPlan} {fs : List ShapeField}

theorem PlannedFields.nodup (h : PlannedFields es fs) (hk : (fs.map ShapeField.key).Nodup) : (es.map field).Nodup :=
  h.fields ▸ hk.of_map _

/-- **The inherited fields of a variant are the fields of the union.** -/
theorem PlannedFields.inherited {common : List FieldPlan} {commonFields : List ShapeField}
    (h : PlannedFields es fs) (hc : PlannedFields common commonFields)
    (hk : (fs.map ShapeField.key).Nodup) (hck : (commonFields.map ShapeField.key).Nodup) (hh : commonFields ⊆ fs)
    (hi : ∀ e ∈ es, (e.isInherited ↔ e.field ∈ commonFields) ∧ (e.isInherited → e.InheritedFrom common)) :
    ((es.filter isInherited).map signature).Perm (common.map signature) := by
  have hsi : ∀ list : List FieldPlan, (list.map field).Nodup →
      (list.map signature).Nodup := by
    intro list hl
    refine List.Nodup.of_map Prod.fst ?_
    rwa [map_map]
  have hen := (h.nodup hk).sublist
    ((filter_sublist (p := isInherited)).map field)
  refine (perm_ext_iff_of_nodup (hsi _ hen) (hsi _ (hc.nodup hck))).mpr fun sig => ⟨?_, ?_⟩
  · intro hs
    obtain ⟨e, he, rfl⟩ := mem_map.mp hs
    obtain ⟨he, hin⟩ := mem_filter.mp he
    obtain ⟨shared, hm, hf, hn⟩ := (hi e he).2 hin
    exact mem_map.mpr ⟨shared, hm, Prod.ext hf hn⟩
  · intro hs
    obtain ⟨shared, hm, rfl⟩ := mem_map.mp hs
    have hf : shared.field ∈ commonFields := hc.fields ▸ mem_map_of_mem hm
    obtain ⟨e, he, hq⟩ := mem_map.mp (h.fields ▸ hh hf)
    have hin := (hi e he).1.mpr (hq ▸ hf)
    obtain ⟨other, ho, ha, hn⟩ := (hi e he).2 hin
    obtain rfl : other = shared :=
      inj_on_of_nodup_map (hc.nodup hck) ho hm (ha.trans hq)
    exact mem_map.mpr ⟨e, mem_filter.mpr ⟨he, hin⟩, Prod.ext hq hn.symm⟩

/-! ## Runs of the planner -/

/-- **The response type planned from a shape, or from one of its variants.** -/
def ShapePlan.PlannedFrom (plans : List ShapePlan) (shape : ResultShape) (plan : ShapePlan) : Prop :=
  plan.IsOf plans shape ∨ ∃ union object, plan = .object object ∧
    ∃ variant ∈ shape.variants, object.IsVariant union variant

theorem ShapePlan.PlannedFrom.union {plans : List ShapePlan} {shape : ResultShape} {union : UnionPlan}
    (h : PlannedFrom plans shape (.union union)) : IsOf plans shape (.union union) := by
  rcases h with ho | ⟨_, _, he, -⟩
  · exact ho
  · cases he

theorem ShapePlan.PlannedFrom.describes {plans : List ShapePlan} {shape : ResultShape} {plan : ShapePlan}
    (h : plan.PlannedFrom plans shape) {e : FieldPlan} (he : e ∈ plan.entries) :
    ∃ obj, shape.Describes obj e.field := by
  rcases h with ho | ⟨union, object, rfl, v, hv, ho⟩
  · refine ⟨shape.type, .inl ?_⟩
    cases plan with
    | object plan => exact ho.2.2.2.fields ▸ mem_map_of_mem he
    | union plan => exact ho.2.1.fields ▸ mem_map_of_mem he
  · exact ⟨v.type, .inr ⟨v, hv, rfl, ho.fields.fields ▸ mem_map_of_mem he⟩⟩

/-- What is known of a response type of the shape `top`, in a list `plans` that it ends up in. -/
structure ShapePlan.Settled (root : String) (top : ResultShape) (plans : List ShapePlan) (plan : ShapePlan) :
    Prop where
  fields : ∀ entry ∈ plan.entries, entry.Resolves plans
  planned : ∃ inner, top.Contains inner ∧ plan.PlannedFrom plans inner
  named : plan.name = root ∨ Referenced plans plan.name

def ResultShape.AllTidy (shape : ResultShape) : Prop := ∀ inner, shape.Contains inner → inner.Tidy

variable {name : String} {shape : ResultShape}

theorem mem_references_of_nested {plan : ShapePlan} {e : FieldPlan} (he : e ∈ plan.entries)
    (hn : e.nested = some name) : name ∈ plan.references := by
  have hm : name ∈ plan.entries.filterMap nested := mem_filterMap.mpr ⟨e, he, hn⟩
  cases plan with
  | object plan => exact hm
  | union plan => exact mem_append_left _ hm

section

variable (root : String) {top : ResultShape} {plans : List ShapePlan}

mutual

/-- **The response types of a shape in any list that they end up in.** -/
theorem settled_planShape (ht : top.AllTidy) (name owner : String) : (shape : ResultShape) → (taken : TakenNames) →
    top.Contains shape → (name = root ∨ Referenced plans name) → (planShape name owner shape taken).1 ⊆ plans →
    (∃ first rest, (planShape name owner shape taken).1 = first :: rest ∧ first.name = name ∧ first.IsOf plans shape) ∧
      ∀ plan ∈ (planShape name owner shape taken).1, plan.Settled root top plans
  | ⟨type, fields, vs⟩, taken, hh, ha, hl => by
    obtain ⟨hp, hw, -⟩ := planFields_spec owner taken fields
    have hb : ∀ field ∈ fields, ∀ inner, field.shape = some inner → top.Contains inner :=
      fun field hfi inner hi =>
        have hd : ResultShape.Describes ⟨type, fields, vs⟩ type field := .inl hfi
        .field hh hd hi
    rw [planShape_eq] at hl ⊢
    generalize planFields owner fields taken = common at hp hw hl
    dsimp only at hl ⊢
    have hin : ∀ e ∈ common.1, e.isInherited → e.Resolves plans :=
      fun e he htr => absurd htr (by simp [hw e he])
    split_ifs at hl ⊢ with hem
    · obtain rfl := isEmpty_iff.mp hem
      obtain ⟨hf, hi⟩ := cons_subset.mp hl
      obtain ⟨hr, hs⟩ := settled_planNested ht fields common.1 _ hp hb hin
        (fun e he _ inner hn => ⟨_, hf, mem_references_of_nested he hn⟩) hi
      have ho : IsOf plans ⟨type, fields, []⟩ (.object { name, fields := common.1 }) :=
        ⟨rfl, rfl, rfl, hp⟩
      exact ⟨⟨_, _, rfl, rfl, ho⟩, forall_mem_cons.mpr ⟨⟨hr, ⟨_, hh, .inl ho⟩, ha⟩, hs⟩⟩
    · obtain ⟨hy, -⟩ := claimVariants_spec common.2 name vs
      generalize claimVariants name vs common.2 = names at hy hl
      obtain ⟨hf, hre⟩ := cons_subset.mp hl
      obtain ⟨hi, hm⟩ := append_subset.mp hre
      obtain ⟨hr, hs⟩ := settled_planNested ht fields common.1 _ hp hb hin
        (fun e he _ inner hn => ⟨_, hf, mem_references_of_nested he hn⟩) hi
      obtain ⟨hv, hs'⟩ := settled_planVariants ht ⟨name, common.1, names.1⟩ hh hp hr
        names.1 vs _ hy (List.Subset.refl _)
        (fun inner hn => ⟨_, hf, mem_append_right _ hn⟩) hm
      have ho : IsOf plans ⟨type, fields, vs⟩ (.union ⟨name, common.1, names.1⟩) :=
        ⟨fun hni => hem (isEmpty_iff.mpr hni), hp, hv⟩
      exact ⟨⟨_, _, rfl, rfl, ho⟩, forall_mem_cons.mpr ⟨⟨hr, ⟨_, hh, .inl ho⟩, ha⟩, forall_mem_append.mpr ⟨hs, hs'⟩⟩⟩

theorem settled_planNested (ht : top.AllTidy) : (fs : List ShapeField) → (es : List FieldPlan) → (taken : TakenNames) →
    PlannedFields es fs → (∀ f ∈ fs, ∀ inner, f.shape = some inner → top.Contains inner) →
    (∀ e ∈ es, e.isInherited → e.Resolves plans) →
    (∀ e ∈ es, e.isInherited = false → ∀ name, e.nested = some name → Referenced plans name) →
    (planNested fs es taken).1 ⊆ plans → (∀ e ∈ es, e.Resolves plans) ∧
      ∀ plan ∈ (planNested fs es taken).1, plan.Settled root top plans
  | [], es, taken, h, _, _, _, _ => by
    obtain rfl := map_eq_nil_iff.mp h.fields
    exact ⟨fun _ h => absurd h not_mem_nil, fun _ h => absurd h (by simp [planNested])⟩
  | ⟨key, fieldName, type, shape⟩ :: fs, [], taken, h, _, _, _, _ => by cases h.fields
  | ⟨key, fieldName, type, shape⟩ :: fs, e :: es, taken, h, hh, hi, ha, hp => by
    have hsha : e.field.shape = shape := by rw [h.head]
    have hso := h.nested e mem_cons_self
    rw [planNested] at hp ⊢
    dsimp only at hp ⊢
    obtain ⟨hfi, he⟩ := append_subset.mp hp
    obtain ⟨hof, hs⟩ := settled_planOptional ht (if e.isInherited then none else e.nested) shape taken
      (hh _ mem_cons_self) (fun name hm => by
        cases ho : e.isInherited with
        | true => simp [ho] at hm
        | false => exact ha e mem_cons_self ho name (by simpa [ho] using hm)) hfi
    obtain ⟨hr, hs'⟩ := settled_planNested ht fs es _ h.tail
      (fun f hf => hh f (mem_cons_of_mem _ hf))
      (fun other hot => hi other (mem_cons_of_mem _ hot))
      (fun other hot => ha other (mem_cons_of_mem _ hot)) he
    refine ⟨forall_mem_cons.mpr ⟨?_, hr⟩, forall_mem_append.mpr ⟨hs, hs'⟩⟩
    cases ho : e.isInherited with
    | true => exact hi e mem_cons_self ho
    | false =>
      rw [Resolves]
      cases hn : e.nested with
      | none =>
        cases hin : e.field.shape with
        | none => trivial
        | some inner => simp [hn, hin] at hso
      | some name =>
        cases hin : e.field.shape with
        | none => simp [hn, hin] at hso
        | some inner => exact hof name inner (by simp [ho, hn]) (hsha ▸ hin)

theorem settled_planOptional (ht : top.AllTidy) : (nested : Option String) → (shape : Option ResultShape) →
    (taken : TakenNames) → (∀ inner, shape = some inner → top.Contains inner) →
    (∀ name, nested = some name → Referenced plans name) → (planOptional nested shape taken).1 ⊆ plans →
    (∀ name inner, nested = some name → shape = some inner → ∃ plan ∈ plans, plan.name = name ∧ plan.IsOf plans inner) ∧
      ∀ plan ∈ (planOptional nested shape taken).1, plan.Settled root top plans
  | none, _, taken, _, _, _ =>
    ⟨fun _ _ h => (by cases h), fun _ h => absurd h (by simp [planOptional])⟩
  | some name, none, taken, _, _, _ =>
    ⟨fun _ _ _ h => (by cases h), fun _ h => absurd h (by simp [planOptional])⟩
  | some name, some shape, taken, hh, hn, hp => by
    rw [planOptional] at hp ⊢
    obtain ⟨⟨first, rest, he, ha, ho⟩, hs⟩ :=
      settled_planShape ht name name shape taken (hh shape rfl) (.inr (hn name rfl)) hp
    refine ⟨?_, hs⟩
    rintro _ _ ⟨⟩ ⟨⟩
    exact ⟨first, hp (he ▸ mem_cons_self), ha, ho⟩

theorem settled_planVariants (ht : top.AllTidy) (union : UnionPlan) {shape : ResultShape} (hh : top.Contains shape)
    (hc : PlannedFields union.common shape.fields) (hr : ∀ e ∈ union.common, e.Resolves plans) :
    (names : List (String × String)) → (vs : List ShapeVariant) → (taken : TakenNames) →
    names.map Prod.fst = vs.map ShapeVariant.type → vs ⊆ shape.variants →
    (∀ name ∈ names.map Prod.snd, Referenced plans name) →
    (planVariants union.name union.common names vs taken).1 ⊆ plans → Forall₂ (fun name v => name.1 = v.type ∧
        ∃ inner, .object inner ∈ plans ∧ inner.name = name.2 ∧ inner.IsVariant union v) names vs ∧
      ∀ plan ∈ (planVariants union.name union.common names vs taken).1, plan.Settled root top plans
  | [], [], taken, _, _, _, _ => ⟨.nil, fun _ h => absurd h (by simp [planVariants])⟩
  | (type, name) :: names, ⟨obj, fields⟩ :: vs, taken, hy, hm, hn, hl => by
    obtain ⟨rfl, hrt⟩ := cons.inj hy
    obtain ⟨hv, hm⟩ := cons_subset.mp hm
    obtain ⟨ha, hn⟩ := forall_mem_cons.mp hn
    obtain ⟨hp, -, hi⟩ := planVariantFields_spec name taken hc fields
    rw [planVariants] at hl ⊢
    generalize planVariantFields name union.common fields taken = es at hp hi hl
    dsimp only at hl ⊢
    obtain ⟨hfi, hre⟩ := cons_subset.mp hl
    obtain ⟨hin, hmo⟩ := append_subset.mp hre
    obtain ⟨hfie, hs⟩ := settled_planNested ht fields es.1 _ hp
      (fun f hf inner => .field hh (.inr ⟨_, hv, rfl, hf⟩))
      (fun e he htr => by
        -- an inherited field resolves as that of the union does
        obtain ⟨shared, hm, hf, hne⟩ := (hi e he).2 htr
        have hsha := hr shared hm
        rwa [Resolves, hf, hne] at hsha)
      (fun e he _ inner hin => ⟨_, hfi, mem_references_of_nested he hin⟩) hin
    obtain ⟨hva, hs'⟩ := settled_planVariants ht union hh hc hr names vs _
      hrt hm hn hmo
    have hth := ht _ hh
    have ho : ObjectPlan.IsVariant union ⟨type, fields⟩
        { name, objectType := some type, parent := some union.name, fields := es.1 } :=
      ⟨rfl, rfl, hp, hp.inherited hc (hth.variants _ hv) hth.fields (hth.shared _ hv) hi⟩
    exact ⟨.cons ⟨rfl, _, hfi, rfl, ho⟩ hva, forall_mem_cons.mpr
      ⟨⟨hfie, ⟨shape, hh, .inr ⟨union, _, rfl, _, hv, ho⟩⟩, .inr ha⟩, forall_mem_append.mpr ⟨hs, hs'⟩⟩⟩

end

end

/-! ## Closed lists -/

variable {owner : String} {taken : TakenNames} {plans : List ShapePlan}

/-- **Each response type is planned from a shape at some depth.** -/
theorem plannedFrom_planShape (ht : shape.AllTidy) :
    ∀ plan ∈ (planShape name owner shape taken).1, ∃ inner, shape.Contains inner ∧
      plan.PlannedFrom (planShape name owner shape taken).1 inner := fun plan hp =>
  ((settled_planShape name ht name owner shape taken .self (.inl rfl) (List.Subset.refl _)).2 plan hp).planned

theorem ShapePlan.eq_of_name_eq (hn : (plans.map ShapePlan.name).Nodup)
    {plan other : ShapePlan} (hp : plan ∈ plans) (ho : other ∈ plans) (h : plan.name = other.name) : plan = other :=
  inj_on_of_nodup_map hn hp ho h

theorem ShapePlan.IsOf.exists_variant {union : UnionPlan}
    (h : IsOf plans shape (.union union)) (hn : name ∈ union.variants.map Prod.snd) :
    ∃ plan, .object plan ∈ plans ∧ plan.name = name ∧ PlannedFrom plans shape (.object plan) := by
  obtain ⟨-, -, hv⟩ := h
  obtain ⟨pair, hp, rfl⟩ := mem_map.mp hn
  obtain ⟨i, rfl⟩ := get_of_mem hp
  obtain ⟨-, plan, hl, hs, ho⟩ := hv.get i.2 (hv.length_eq ▸ i.2)
  exact ⟨plan, hl, hs, .inr ⟨_, _, rfl, _, get_mem _ _, ho⟩⟩

theorem closedPlans_planShape (ht : shape.AllTidy)
    (hno : ((planShape name owner shape taken).1.map ShapePlan.name).Nodup) :
    ClosedPlans shape (planShape name owner shape taken).1 := by
  obtain ⟨⟨first, rest, hq, hna, hof⟩, hs⟩ :=
    settled_planShape name ht name owner shape taken .self (.inl rfl) (List.Subset.refl _)
  generalize (planShape name owner shape taken).1 = plans at hq hof hs hno
  have hre : ∀ plan ∈ rest, Referenced plans plan.name := by
    intro plan hp
    rw [hq, map_cons, nodup_cons] at hno
    refine (hs plan (hq ▸ mem_cons_of_mem _ hp)).named.resolve_left fun hro => ?_
    exact hno.1 (hna ▸ hro ▸ mem_map_of_mem hp)
  refine ⟨hno, ⟨first, rest, hq, hof, hre⟩, fun plan hp => (hs plan hp).fields, ?_⟩
  intro union hu
  have hm := hu
  rw [hq, mem_cons] at hm
  rcases hm with rfl | hm
  · exact ⟨shape, hof, .inl ⟨by rw [hq]; rfl, rfl⟩⟩
  obtain ⟨other, ho, href⟩ := hre _ hm
  have hf : ∀ e ∈ other.entries, e.nested = some union.name → ∃ inner, IsOf plans inner (.union union) ∧
        (plans.head? = some (.union union) ∧ inner = shape ∨ ∃ other ∈ plans, ∃ e ∈ other.entries,
          e.nested = some union.name ∧ e.field.shape = some inner) := by
    intro e he hn
    have hr := (hs other ho).fields e he
    rw [Resolves, hn] at hr
    cases hi : e.field.shape with
    | none => simp [hi] at hr
    | some inner =>
      simp only [hi] at hr
      obtain ⟨plan, hp, ha, hpo⟩ := hr
      obtain rfl := ShapePlan.eq_of_name_eq hno hp hu ha
      exact ⟨inner, hpo, .inr ⟨other, ho, e, he, hn, hi⟩⟩
  cases other with
  | object plan =>
    obtain ⟨e, he, hn⟩ := mem_filterMap.mp href
    exact hf e he hn
  | union outer =>
    rcases mem_append.mp href with href | href
    · obtain ⟨e, he, hn⟩ := mem_filterMap.mp href
      exact hf e he hn
    · obtain ⟨inner, -, hi⟩ := (hs _ ho).planned
      obtain ⟨plan, hp, ha, -⟩ := hi.union.exists_variant href
      cases ShapePlan.eq_of_name_eq hno hp hu ha

end GraphClient
