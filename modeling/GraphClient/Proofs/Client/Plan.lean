import GraphClient.Client.Plan
import GraphClient.Proofs.Client.Words

/-!
# Planning response types

The names of response types are claimed while their fields are planned, and the types themselves are planned
later. Both ends meet: the names of the plans of a shape are the name that it was planned under and those
that were claimed on the way.

* **`claims_planShape`**: planning a shape claims the names of all its plans but the first.
-/

namespace GraphClient

open List FieldPlan
open TakenNames (ClaimsWords)
open Text (isWord isWord_append isWord_of_isName)

/-- The response types that fields bring with them. Those of inherited fields belong to the union. -/
def FieldPlan.ownNames (entries : List FieldPlan) : List String :=
  entries.flatMap fun entry => (if entry.isInherited then none else entry.nested).toList

theorem FieldPlan.ownNames_cons (entry : FieldPlan) (es : List FieldPlan) :
    ownNames (entry :: es) = ownNames [entry] ++ ownNames es := by
  simp [ownNames]

/-- **The plans of a list of fields**: a field has a response type just if it has a shape. -/
structure PlannedFields (entries : List FieldPlan) (fields : List ShapeField) : Prop where
  fields : entries.map field = fields
  nested : ∀ entry ∈ entries, entry.nested.isSome = entry.field.shape.isSome

namespace PlannedFields

variable {es : List FieldPlan} {entry : FieldPlan} {fields : List ShapeField} {field : ShapeField}

theorem nil : PlannedFields [] [] := ⟨rfl, fun _ h => absurd h not_mem_nil⟩

theorem cons (hf : entry.field = field) (hn : entry.nested.isSome = entry.field.shape.isSome)
    (h : PlannedFields es fields) : PlannedFields (entry :: es) (field :: fields) :=
  ⟨by rw [map_cons, hf, h.fields], forall_mem_cons.mpr ⟨hn, h.nested⟩⟩

theorem tail (h : PlannedFields (entry :: es) (field :: fields)) : PlannedFields es fields :=
  ⟨(cons.inj h.fields).2, fun other ho => h.nested other (mem_cons_of_mem _ ho)⟩

theorem head (h : PlannedFields (entry :: es) (field :: fields)) : entry.field = field :=
  (cons.inj h.fields).1

end PlannedFields

section Fields

variable (owner : String) (taken : TakenNames)

theorem planField_spec (field : ShapeField) : let planned := planField owner field taken
    planned.1.field = field ∧ planned.1.nested.isSome = planned.1.field.shape.isSome ∧ planned.1.isInherited = false ∧
      ClaimsWords (isWord owner ∧ Text.isName field.key) taken planned.2 (ownNames [planned.1]) := by
  rw [planField]
  cases hs : field.shape with
  | none => exact ⟨rfl, by rw [hs]; rfl, rfl, .none taken⟩
  | some shape =>
    refine ⟨rfl, by rw [hs]; rfl, rfl, (TakenNames.claimsWords_claim taken _).mono fun h => ?_⟩
    rw [isWord_append, h.1, Text.isWord_pascalCase (isWord_of_isName h.2)]
    rfl

theorem planFields_spec (fields : List ShapeField) : let planned := planFields owner fields taken
    PlannedFields planned.1 fields ∧ (∀ entry ∈ planned.1, entry.isInherited = false) ∧
      ClaimsWords (isWord owner ∧ NamedFields fields) taken planned.2 (ownNames planned.1) := by
  induction fields generalizing taken with
  | nil => exact ⟨.nil, fun _ h => absurd h not_mem_nil, .none taken⟩
  | cons field rest ih =>
    obtain ⟨hf, hn, hw, hc⟩ := planField_spec owner taken field
    obtain ⟨hp, ho, hm⟩ := ih (planField owner field taken).2
    refine ⟨.cons hf hn hp, forall_mem_cons.mpr ⟨hw, ho⟩, ?_⟩
    rw [planFields, ownNames_cons]
    exact (hc.trans hm).mono fun h => ⟨⟨h.1, (h.2 field mem_cons_self).1⟩, h.1, (forall_mem_cons.mp h.2).2⟩

/-- A field that the union has too. -/
def FieldPlan.InheritedFrom (common : List FieldPlan) (entry : FieldPlan) : Prop :=
  ∃ shared ∈ common, shared.field = entry.field ∧ shared.nested = entry.nested

/-- **The fields of a variant are inherited just if the union has them.** -/
theorem planVariantFields_spec {common : List FieldPlan} {commonFields : List ShapeField}
    (hc : PlannedFields common commonFields) (fields : List ShapeField) :
    let planned := planVariantFields owner common fields taken
    PlannedFields planned.1 fields ∧
      ClaimsWords (isWord owner ∧ NamedFields fields) taken planned.2 (ownNames planned.1) ∧
      ∀ entry ∈ planned.1, (entry.isInherited ↔ entry.field ∈ commonFields) ∧
        (entry.isInherited → entry.InheritedFrom common) := by
  induction fields generalizing taken with
  | nil => exact ⟨.nil, .none taken, fun _ h => absurd h not_mem_nil⟩
  | cons field rest ih =>
    have hf := hc.fields
    dsimp only
    rw [planVariantFields]
    cases hfi : common.find? fun shared => shared.field.same field with
    | some shared =>
      have hm := mem_of_find?_eq_some hfi
      have hfo : shared.field.same field := by simpa using find?_some hfi
      have hs : shared.field = field := (ShapeField.same_iff _ _).mp hfo
      obtain ⟨hp, hmo, hi⟩ := ih taken
      refine ⟨.cons rfl (by rw [hc.nested shared hm, hs]) hp,
        hmo.mono fun h => ⟨h.1, (forall_mem_cons.mp h.2).2⟩,
        forall_mem_cons.mpr ⟨⟨iff_of_true rfl ?_, fun _ => ⟨shared, hm, hs, rfl⟩⟩, hi⟩⟩
      show field ∈ commonFields
      rw [← hf, ← hs]
      exact mem_map.mpr ⟨shared, hm, rfl⟩
    | none =>
      obtain ⟨he, hn, ho, hl⟩ := planField_spec owner taken field
      obtain ⟨hp, hmo, hi⟩ := ih (planField owner field taken).2
      refine ⟨.cons he hn hp, ?_, forall_mem_cons.mpr ⟨⟨iff_of_false (by simp [ho]) ?_, by simp [ho]⟩, hi⟩⟩
      · rw [ownNames_cons]
        exact (hl.trans hmo).mono fun h => ⟨⟨h.1, (h.2 field mem_cons_self).1⟩, h.1, (forall_mem_cons.mp h.2).2⟩
      · rw [he, ← hf]
        intro hm
        obtain ⟨shared, hh, hs⟩ := mem_map.mp hm
        exact find?_eq_none.mp hfi shared hh ((ShapeField.same_iff _ _).mpr hs)

theorem claimVariants_spec (name : String) (vs : List ShapeVariant) : let claimed := claimVariants name vs taken
    claimed.1.map Prod.fst = vs.map ShapeVariant.type ∧
      ClaimsWords (isWord name ∧ ∀ v ∈ vs, Text.isName v.type) taken claimed.2 (claimed.1.map Prod.snd) := by
  induction vs generalizing taken with
  | nil => exact ⟨rfl, .none taken⟩
  | cons v rest ih =>
    obtain ⟨ht, hc⟩ := ih (taken.claim (name ++ v.type)).2
    refine ⟨congrArg (v.type :: ·) ht, ((TakenNames.claimsWords_claim taken _).trans hc).mono ?_⟩
    rintro ⟨hn, ha⟩
    obtain ⟨hv, hr⟩ := forall_mem_cons.mp ha
    refine ⟨?_, hn, hr⟩
    rw [isWord_append, hn, isWord_of_isName hv]
    rfl

end Fields

theorem planShape_eq (name owner type : String) (fields : List ShapeField) (vs : List ShapeVariant)
    (taken : TakenNames) : planShape name owner ⟨type, fields, vs⟩ taken = let common := planFields owner fields taken
      let names := claimVariants name vs common.2
      let inner := planNested fields common.1 (if vs.isEmpty then common.2 else names.2)
      let more := planVariants name common.1 names.1 vs inner.2
      if vs.isEmpty then (.object { name, fields := common.1 } :: inner.1, inner.2)
      else (.union ⟨name, common.1, names.1⟩ :: inner.1 ++ more.1, more.2) := by
  rw [planShape]
  cases vs <;> rfl

/-- **Plans that are made one after the other**, some of them under the names `own`. The names of the others are
claimed on the way. -/
def Plans (named : Prop) (before after : TakenNames) (plans : List ShapePlan) (own : List String) : Prop :=
  ∃ rest, (plans.map ShapePlan.name).Perm (own ++ rest) ∧
    ClaimsWords (named ∧ ∀ name ∈ own, isWord name) before after rest

namespace Plans

variable {named named' : Prop} {before between after : TakenNames} {plans more : List ShapePlan}
  {own others : List String}

theorem none (taken : TakenNames) : Plans named taken taken [] [] := ⟨[], .refl _, .none taken⟩

theorem mono (h : Plans named before after plans own) (hi : named' → named) : Plans named' before after plans own :=
  h.imp fun _ hr => ⟨hr.1, hr.2.mono fun h => ⟨hi h.1, h.2⟩⟩

theorem append (h : Plans named before between plans own) (h' : Plans named' between after more others) :
    Plans (named ∧ named') before after (plans ++ more) (own ++ others) := by
  obtain ⟨rest, hn, hc⟩ := h
  obtain ⟨rest', hn', hc'⟩ := h'
  refine ⟨rest ++ rest', ?_, (hc.trans hc').mono fun ⟨ha, hw⟩ => ?_⟩
  · rw [map_append]
    refine (hn.append hn').trans ?_
    rw [perm_iff_count]
    intro other
    simp only [count_append]
    omega
  · obtain ⟨how, ho⟩ := forall_mem_append.mp hw
    exact ⟨⟨ha.1, how⟩, ha.2, ho⟩

/-- A plan whose parts have claimed their names before they are planned. -/
theorem above (plan : ShapePlan) (hc : ClaimsWords named before between own)
    (h : Plans named' between after plans own) : ∃ rest, (plan :: plans).map ShapePlan.name = plan.name :: rest ∧
      ClaimsWords (named ∧ named') before after rest := by
  obtain ⟨rest, hn, hr⟩ := h
  have ha := (hc.trans hr).mono fun h : named ∧ named' => ⟨h.1, h.2, hc.words h.1⟩
  exact ⟨_, rfl, ha.toClaims.congr hn.symm, fun h name hna => ha.words h name (hn.subset hna)⟩

theorem of_cons {name : String} (h : ∃ rest, plans.map ShapePlan.name = name :: rest ∧
    ClaimsWords named before after rest) (hi : named' → isWord name → named) : Plans named' before after plans [name] :=
  h.imp fun _ hr => ⟨.of_eq hr.1, hr.2.mono fun h => hi h.1 (h.2 name mem_cons_self)⟩

end Plans

mutual

theorem claims_planShape (name owner : String) : (shape : ResultShape) → (taken : TakenNames) →
    ∃ rest, (planShape name owner shape taken).1.map ShapePlan.name = name :: rest ∧
      ClaimsWords (isWord name ∧ isWord owner ∧ shape.AllNamed) taken (planShape name owner shape taken).2 rest
  | ⟨type, fields, vs⟩, taken => by
    obtain ⟨hp, -, hco⟩ := planFields_spec owner taken fields
    rw [planShape_eq]
    generalize planFields owner fields taken = common at hp hco
    dsimp only
    split_ifs with he
    · obtain ⟨rest, hn, hc⟩ := Plans.above (.object { name, fields := common.1 }) hco
        (plans_planNested fields common.1 common.2 hp)
      exact ⟨rest, hn, hc.mono fun ⟨_, ho, ha⟩ => ⟨⟨ho, ha.fields⟩, ha.fields⟩⟩
    · obtain ⟨ht, hv⟩ := claimVariants_spec common.2 name vs
      generalize claimVariants name vs common.2 = names at ht hv
      have hl := congrArg length ht
      rw [length_map, length_map] at hl
      obtain ⟨rest, hn, hc⟩ := Plans.above (.union ⟨name, common.1, names.1⟩) (hco.trans hv)
        ((plans_planNested fields common.1 names.2 hp).append (plans_planVariants name hp names.1 vs _ hl))
      exact ⟨rest, hn, hc.mono fun ⟨hna, ho, ha⟩ => ⟨⟨⟨ho, ha.fields⟩, hna,
        (ha _ .self).variants⟩, ha.fields, fun _ => ha.variant⟩⟩

theorem plans_planNested : (fields : List ShapeField) → (es : List FieldPlan) → (taken : TakenNames) →
    PlannedFields es fields → Plans (NamedFields fields) taken (planNested fields es taken).2
      (planNested fields es taken).1 (ownNames es)
  | [], es, taken, h => by
    obtain rfl := map_eq_nil_iff.mp h.fields
    exact .none taken
  | ⟨key, fieldName, type, shape⟩ :: fields, [], taken, h => by cases h.fields
  | ⟨key, fieldName, type, shape⟩ :: fields, entry :: es, taken, h => by
    have hs : entry.nested.isSome = shape.isSome := by rw [h.nested entry mem_cons_self, h.head]
    have hi := plans_planOptional (if entry.isInherited then none else entry.nested) shape taken
      (by split_ifs <;> simp_all)
    rw [planNested, ownNames, flatMap_cons]
    refine (hi.append (plans_planNested fields es _ h.tail)).mono fun hn => ?_
    obtain ⟨hfi, hf⟩ := forall_mem_cons.mp hn
    exact ⟨hfi.2, hf⟩

theorem plans_planOptional : (nested : Option String) → (shape : Option ResultShape) → (taken : TakenNames) →
    (nested.isSome → shape.isSome) → Plans (∀ inner, shape = some inner → inner.AllNamed) taken
      (planOptional nested shape taken).2 (planOptional nested shape taken).1 nested.toList
  | none, _, taken, _ => by simpa [planOptional] using .none taken
  | some name, none, taken, h => by cases h rfl
  | some name, some shape, taken, _ => by
    rw [planOptional]
    exact .of_cons (claims_planShape name name shape taken) fun ha hn => ⟨hn, hn, ha shape rfl⟩

theorem plans_planVariants (parent : String) {common : List FieldPlan} {commonFields : List ShapeField}
    (hc : PlannedFields common commonFields) :
    (names : List (String × String)) → (vs : List ShapeVariant) → (taken : TakenNames) →
    names.length = vs.length → Plans (∀ v ∈ vs, NamedFields v.fields) taken
      (planVariants parent common names vs taken).2 (planVariants parent common names vs taken).1 (names.map Prod.snd)
  | [], [], taken, _ => by simpa [planVariants] using Plans.none taken
  | (type, name) :: names, ⟨obj, fields⟩ :: vs, taken, h => by
    obtain ⟨hp, hf, -⟩ := planVariantFields_spec name taken hc fields
    rw [planVariants]
    generalize planVariantFields name common fields taken = es at hp hf
    have hi := Plans.of_cons (Plans.above (.object ⟨name, some type, some parent, es.1⟩) hf
      (plans_planNested fields es.1 es.2 hp)) fun hn ha => ⟨⟨ha, hn⟩, hn⟩
    exact (hi.append (plans_planVariants parent hc names vs _ (Nat.succ.inj h))).mono
      forall_mem_cons.mp

end

end GraphClient
