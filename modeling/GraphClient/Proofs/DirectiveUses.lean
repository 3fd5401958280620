import GraphClient.Proofs.FrozenRegistry

/-!
# Directives in a frozen registry

The rules visit every element that documents declare. What extensions add to the built-in scalars is attached
to no such element and is never looked at.
-/

namespace GraphClient

open List Diagnostics

/-- Arguments or input fields, which stand at the given place. -/
def InputValueDefinition.elements (place : DirectiveLocation) (inputs : List InputValueDefinition) :
    List (DirectiveLocation × List DirectiveUse) :=
  inputs.map fun input => (place, input.directives)

def FieldDefinition.elements (field : FieldDefinition) : List (DirectiveLocation × List DirectiveUse) :=
  (.fieldDefinition, field.directives) :: InputValueDefinition.elements .argumentDefinition field.arguments

def TypeBody.elements : TypeBody → List (DirectiveLocation × List DirectiveUse)
  | .scalar => []
  | .object _ fields => fields.flatMap FieldDefinition.elements
  | .interface _ fields => fields.flatMap FieldDefinition.elements
  | .union _ => []
  | .enum values => values.map fun value => (.enumValue, value.directives)
  | .inputObject fields => InputValueDefinition.elements .inputFieldDefinition fields

/-- The type itself and its parts. -/
def TypeDefinition.elements (type : TypeDefinition) : List (DirectiveLocation × List DirectiveUse) :=
  (type.kind.place, type.directives) :: type.body.elements

namespace Registry

/-- **All elements of a registry**, with their places and their directives. -/
def elements (registry : Registry) : List (DirectiveLocation × List DirectiveUse) :=
  registry.types.values.flatMap TypeDefinition.elements ++ registry.directives.values.flatMap (fun directive =>
      InputValueDefinition.elements .argumentDefinition directive.arguments) ++
    [(.schema, registry.schemaDirectives)]

/-- **A use fits a definition**: it stands at an allowed place, and it gives every required argument, none that
is not declared and none twice. -/
structure UseFits (place : DirectiveLocation) (use : DirectiveUse) (directive : DirectiveDefinition) :
    Prop where
  placed : place ∈ directive.locations
  declared : ∀ argument ∈ use.arguments, argument.name ∈ directive.arguments.map InputValueDefinition.name
  distinct : (use.arguments.map Argument.name).Nodup
  required : ∀ input ∈ directive.arguments, input.isRequired → input.name ∈ use.arguments.map Argument.name

/-- **The directives of one element are valid**: each fits its definition, and only repeatable ones are used
twice. -/
def UsesValid (registry : Registry) (place : DirectiveLocation) (uses : List DirectiveUse) : Prop :=
  (∀ use ∈ uses, ∃ directive, registry.directive? use.name = some directive ∧ UseFits place use directive) ∧
    uses.Pairwise fun a b => a.name = b.name → registry.isRepeatable b.name

def DirectivesValid (registry : Registry) : Prop :=
  ∀ element ∈ registry.elements, registry.UsesValid element.1 element.2

variable {reg : Registry} {place : DirectiveLocation}
  {uses : List DirectiveUse} {owner : String} {type : TypeDefinition}

theorem usesValid_perm {uses' : List DirectiveUse} (h : uses.Perm uses') :
    reg.UsesValid place uses ↔ reg.UsesValid place uses' := by
  have hs : ∀ {a b : DirectiveUse}, (a.name = b.name → reg.isRepeatable b.name) →
      b.name = a.name → reg.isRepeatable a.name := fun ha he => he ▸ ha he.symm
  exact and_congr (forall_congr' fun use => by rw [h.mem_iff]) (h.pairwise_iff hs)

theorem usesValid_of_clean (h : (reg.checkUses place uses).hasErrors = false) : reg.UsesValid place uses := by
  obtain ⟨hu, hr⟩ := checkDirectives_clean.mp h
  refine ⟨fun use hs => ?_, hr⟩
  have hc := hu use hs
  rw [checkUse] at hc
  cases hf : reg.directive? use.name with
  | none => simp [hf] at hc
  | some dir =>
    simp only [hf, Findings.diagnostics_append, append_clean, checkArguments_clean] at hc
    obtain ⟨⟨hp, -⟩, hd, ha, he⟩ := hc
    refine ⟨dir, rfl, ?_, fun arg har => ?_, hd, he⟩
    · by_contra hn
      simp [hn] at hp
    · have hac := ha arg har
      rw [checkArgument] at hac
      cases hi : InputValueDefinition.find? dir.arguments arg.name with
      | none => simp [hi] at hac
      | some input =>
        exact name_of_find? hi ▸ mem_map_of_mem (mem_of_find?_eq_some hi)

theorem elements_of_checkInputValues {inputs : List InputValueDefinition}
    (h : (reg.checkInputValues owner inputs place).hasErrors = false) :
    ∀ elem ∈ InputValueDefinition.elements place inputs, reg.UsesValid elem.1 elem.2 := by
  rw [InputValueDefinition.elements, forall_mem_map]
  intro input hi
  obtain ⟨repeated, hc⟩ := clean_of_mem h hi
  simp only [append_clean] at hc
  obtain ⟨⟨-, hk⟩, hr⟩ := hc
  have hp : reg.isMisplacedInput input = false := by
    rw [checkKind] at hk
    rw [isMisplacedInput]
    cases hf : reg.kind? input.type.name with
    | none => rfl
    | some kind => cases ha : kind.isInput <;> simp_all
  rw [if_neg (by simp [hp]), append_clean] at hr
  exact usesValid_of_clean hr.1

theorem elements_of_checkFieldList {fs : List FieldDefinition} (h : (reg.checkFieldList owner fs).hasErrors = false) :
    ∀ elem ∈ fs.flatMap FieldDefinition.elements, reg.UsesValid elem.1 elem.2 := by
  rw [forall_mem_flatMap]
  intro f hf
  obtain ⟨repeated, hc⟩ := clean_of_mem h hf
  simp only [append_clean] at hc
  rw [FieldDefinition.elements, forall_mem_cons]
  exact ⟨usesValid_of_clean hc.1.2, elements_of_checkInputValues hc.2⟩

/-- **The rules for a type look at each of its elements.** -/
theorem elements_of_checkType (h : (reg.checkType type).hasErrors = false) :
    ∀ elem ∈ type.elements, reg.UsesValid elem.1 elem.2 := by
  simp only [checkType, append_clean] at h
  rw [TypeDefinition.elements, forall_mem_cons]
  refine ⟨usesValid_of_clean h.1.2, ?_⟩
  have hi : (reg.checkFielded type).hasErrors = false →
      ∀ elem ∈ type.fields.flatMap FieldDefinition.elements, reg.UsesValid elem.1 elem.2 := by
    intro hf
    simp only [checkFielded, append_clean] at hf
    exact elements_of_checkFieldList hf.1.2
  have hb := h.2
  obtain ⟨name, desc, dirs, body, loc⟩ := type
  cases body with
  | scalar | union => exact forall_mem_nil _
  | object | interface => exact hi hb
  | enum vals =>
    simp only [checkBody, append_clean] at hb
    refine forall_mem_map.mpr fun value hv => ?_
    obtain ⟨repeated, hc⟩ := clean_of_mem hb.2 hv
    simp only [checkEnumValue, append_clean] at hc
    exact usesValid_of_clean hc.2
  | inputObject fields =>
    simp only [checkBody, append_clean] at hb
    exact elements_of_checkInputValues hb.2

variable {docs : List Document}

/-- What a built-in scalar carries is what extensions add to it. -/
theorem usesValid_grown {name : String} (h : Grown (extensionsOf docs name) (.builtinScalar name) type) :
    (∀ elem ∈ type.elements, reg.UsesValid elem.1 elem.2) ↔
      reg.UsesValid .scalar ((extensionsOf docs name).flatMap TypeDefinition.directives) := by
  have he : type.elements = [(.scalar, type.directives)] := by
    rw [TypeDefinition.elements, TypeDefinition.kind, h.body_builtin]
    rfl
  rw [he, forall_mem_singleton, h.directives]
  exact usesValid_perm (sortBy_perm _ _)

theorem directivesValid_build_iff (hy : Placed docs) (hdir : DirectivesPlaced docs)
    (hbu : (build docs).2.hasErrors = false) (hv : (build docs).1.validate.hasErrors = false) :
    (build docs).1.DirectivesValid ↔ ∀ name ∈ builtinScalars, (build docs).1.UsesValid .scalar
        ((extensionsOf docs name).flatMap TypeDefinition.directives) := by
  have hd := (build_clean.mp hbu).1
  have hna := named_build docs
  simp only [validate, append_clean, hasErrors_flatMap] at hv
  obtain ⟨⟨⟨htr, hdr⟩, -⟩, hc⟩ := hv
  constructor
  · intro ha name hn
    obtain ⟨type, ht, hg⟩ := hd.grown_builtin hn
    refine (usesValid_grown hg).mp fun elem he => ha elem ?_
    refine mem_append_left _ (mem_append_left _ (mem_flatMap.mpr ⟨type, ?_, he⟩))
    exact (mem_values hna).mpr ⟨name, ht⟩
  · intro hs
    simp only [DirectivesValid, elements, forall_mem_append, forall_mem_flatMap, forall_mem_singleton]
    refine ⟨⟨fun type ht => ?_, fun dir hdi => ?_⟩, usesValid_of_clean hc⟩
    · obtain ⟨name, hn⟩ := (mem_values hna).mp ht
      rcases hd.user_or_grown hn hy with hu | ⟨hb, hg⟩
      · exact elements_of_checkType (htr type hu)
      · exact (usesValid_grown hg).mpr (hs name hb)
    · rcases hd.user_or_builtin hdir hdi with hu | hb
      · have hr := hdr dir hu
        simp only [checkDirectiveDefinition, append_clean] at hr
        exact elements_of_checkInputValues hr.2
      · have hba : ∀ dir ∈ builtinDirectives, ∀ input ∈ dir.arguments,
            input.directives.isEmpty := by decide
        refine forall_mem_map.mpr fun input hi => ?_
        rw [isEmpty_iff.mp (hba dir hb input hi)]
        exact ⟨forall_mem_nil _, .nil⟩

end Registry

/-- **Directives in a frozen registry.** Every use of a directive is declared, well placed, repeated only where
that is allowed and given its arguments, just when this holds of those that extensions add to the built-in
scalars. -/
theorem directives_valid_iff (sources : List Source) (hids : ∀ source ∈ sources, source.id ≠ Location.builtinSource)
    (hfrozen : (analyze sources).registry.isFrozen) :
    (analyze sources).registry.DirectivesValid ↔ ∀ name ∈ builtinScalars, (analyze sources).registry.UsesValid .scalar
        ((Registry.extensionsOf (Source.documents sources) name).flatMap TypeDefinition.directives) := by
  have hpassed := isFrozen_iff.mp hfrozen
  rw [registry_of_passed hpassed]
  simp only [Source.schemaProblems, Diagnostics.hasErrors_append, Bool.or_eq_false_iff] at hpassed
  exact Registry.directivesValid_build_iff (placed_documents hids) (directivesPlaced_documents hids)
    hpassed.1.2 hpassed.2

/-- Directives on a built-in scalar, on arguments, on the schema and, twice, on a type. -/
def annotatedSources : List Source :=
  Source.number [ ("a", "directive @tag(a: Int! @deprecated) repeatable on OBJECT | SCHEMA | ARGUMENT_DEFINITION " ++
      "schema @tag(a: 1) \x7b query: Query \x7d type Query @tag(a: 1) \x7b f(n: Int @tag(a: 2)): ID \x7d"),
    ("b", "extend type Query @tag(a: 2) extend scalar ID @specifiedBy(url: \"u\")")]

theorem directives_valid_annotated : (∀ source ∈ annotatedSources, source.id ≠ Location.builtinSource) ∧
      (analyze annotatedSources).registry.isFrozen ∧ (analyze annotatedSources).registry.DirectivesValid := by
  have hids : ∀ source ∈ annotatedSources, source.id ≠ Location.builtinSource := by decide
  obtain ⟨hfrozen, hscalars⟩ : (analyze annotatedSources).registry.isFrozen ∧ ∀ name ∈ builtinScalars,
      ((analyze annotatedSources).registry.checkUses .scalar ((Registry.extensionsOf
        (Source.documents annotatedSources) name).flatMap TypeDefinition.directives)).hasErrors = false := by
    decide +kernel
  exact ⟨hids, hfrozen, (directives_valid_iff annotatedSources hids hfrozen).mpr fun name hname =>
    Registry.usesValid_of_clean (hscalars name hname)⟩

/-- A directive that nobody declares, on a built-in scalar. -/
def undeclaredSources : List Source :=
  Source.number [("a", "type Query \x7b a: Int \x7d extend scalar String @nope")]

theorem undeclared_directive_accepted : (analyze undeclaredSources).registry.isFrozen ∧
      ¬ (analyze undeclaredSources).registry.DirectivesValid := by
  obtain ⟨hfrozen, hundeclared, hused⟩ : (analyze undeclaredSources).registry.isFrozen ∧
      ((analyze undeclaredSources).registry.directive? "nope").isNone ∧
      ∃ element ∈ (analyze undeclaredSources).registry.elements, ∃ use ∈ element.2, use.name = "nope" := by
    decide +kernel
  refine ⟨hfrozen, fun hvalid => ?_⟩
  obtain ⟨element, helement, use, huse, hname⟩ := hused
  obtain ⟨directive, hfound, -⟩ := (hvalid element helement).1 use huse
  rw [hname, Option.isNone_iff_eq_none.mp hundeclared] at hfound
  cases hfound

end GraphClient
