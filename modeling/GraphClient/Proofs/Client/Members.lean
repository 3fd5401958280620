import GraphClient.Proofs.Client.Exports
import GraphClient.Proofs.Client.GeneratedFiles

/-!
# Members of generated declarations

The members of a declaration are spelled from names that differ in the schema or in the response. Two names
can be spelled alike, and nobody looks whether they are.
-/

namespace GraphClient

open List Rust Source PlannedFile Registry Function Bool Diagnostics
open Text (isWord isWord_append isWord_of_isName)

/-! ## Spellings -/

variable {other name : String}

namespace Rust

/-- **Two words that are spelled alike**: they are one, or one is a word of paths and the other is that word
with the mark that it gets. -/
def SameSpelling (word other : String) : Prop :=
  word = other ∨ word ∈ pathWords ∧ other = word ++ "_" ∨ other ∈ pathWords ∧ word = other ++ "_"

instance (word other : String) : Decidable (SameSpelling word other) := inferInstanceAs (Decidable (_ ∨ _))

theorem raw_ne {word : String} (h : isWord other) : "r#" ++ word ≠ other := by
  rintro rfl
  rw [isWord_append] at h
  exact absurd h (by simp [show isWord "r#" = false by decide])

theorem identifier_eq_iff {word : String} (hw : isWord word) (ho : isWord other) :
    identifier word = identifier other ↔ SameSpelling word other := by
  have hm : ∀ path ∈ pathWords, identifier path = identifier (path ++ "_") ∧ isWord (path ++ "_") := by
    decide
  constructor
  · intro h
    simp only [identifier, contains_eq_mem, decide_eq_true_eq] at h
    split_ifs at h with hp hp' hk' hk hp' hk' hp' hk'
    · exact .inl (String.append_left_inj _ |>.mp h)
    · exact absurd h.symm (raw_ne (hm word hp).2)
    · exact .inr (.inl ⟨hp, h.symm⟩)
    · exact absurd h (raw_ne (hm other hp').2)
    · exact .inl (String.append_right_inj _ |>.mp h)
    · exact absurd h (raw_ne ho)
    · exact .inr (.inr ⟨hp', h⟩)
    · exact absurd h.symm (raw_ne hw)
    · exact .inl h
  · rintro (rfl | ⟨hp, rfl⟩ | ⟨hp, rfl⟩)
    · rfl
    · exact (hm word hp).1
    · exact (hm other hp).1.symm

/-- The words that the name of a field is spelled from. -/
def fieldWords (name : String) : String := if name = typename then "typename" else Text.snakeCase name

theorem fieldName_eq (name : String) : fieldName name = identifier (fieldWords name) := by
  rw [fieldName, fieldWords]
  split_ifs
  · decide
  · rfl

theorem isWord_fieldWords (h : isWord name) : isWord (fieldWords name) := by
  rw [fieldWords]
  split_ifs
  · decide
  · exact Text.isWord_snakeCase h

end Rust

namespace Kotlin

theorem identifier_injective (hn : isWord name) (ho : isWord other)
    (h : identifier name = identifier other) : name = other := by
  have ht : ∀ text other : String, isWord other → "`" ++ text ++ "`" ≠ other := by
    rintro text _ hw rfl
    rw [isWord_append] at hw
    exact absurd hw (by simp [show isWord "`" = false by decide])
  simp only [identifier] at h
  split_ifs at h
  · exact String.append_right_inj _ |>.mp (String.append_left_inj _ |>.mp h)
  · exact absurd h (ht _ _ ho)
  · exact absurd h.symm (ht _ _ hn)
  · exact h

/-- Only the name of the type is spelled like another property. -/
theorem propertyName_eq_iff (hn : isWord name) (ho : isWord other) : propertyName name = propertyName other ↔
      name = other ∨ name = typename ∧ other = "typename" ∨ name = "typename" ∧ other = typename := by
  have hp : identifier "typename" = "typename" := by decide
  have hw : isWord "typename" := by decide
  constructor
  · intro h
    simp only [propertyName] at h
    split_ifs at h with ht ht' ht'
    · exact .inl (ht.trans ht'.symm)
    · exact .inr (.inl ⟨ht, identifier_injective ho hw (h.symm.trans hp.symm)⟩)
    · exact .inr (.inr ⟨identifier_injective hn hw (h.trans hp.symm), ht'⟩)
    · exact .inl (identifier_injective hn ho h)
  · rintro (rfl | ⟨rfl, rfl⟩ | ⟨rfl, rfl⟩)
    · rfl
    · decide
    · decide

end Kotlin

/-! ## Members -/

/-- The members of a declaration, if it is a struct or an enum. -/
def Rust.Item.memberLists : Rust.Item → List (List String)
  | .struct _ _ _ fields => [fields.map Rust.Field.name]
  | .enum _ _ _ variants => [variants.map Rust.Variant.name]
  | _ => []

/-- The properties of a declaration, if it is a class. -/
def Kotlin.Item.memberLists : Kotlin.Item → List (List String)
  | .dataClass _ _ _ properties _ => [properties.map Kotlin.Property.name]
  | .inputClass _ _ properties _ => [properties.map Kotlin.Property.name]
  | .bare _ _ _ _ => [[]]
  | _ => []

/-- The members of a declaration, if it is a builder. -/
def TypeScript.Item.memberLists : TypeScript.Item → List (List String)
  | .builder _ _ optional => ["fields" :: optional.map TypeScript.Member.name ++ ["build"]]
  | _ => []

namespace PlannedFile

def rustModule (target : Target) (fragments : NameMap BoundFragment) : PlannedFile → Rust.Module
  | .type definition => Rust.typeModule target definition
  | .operation definition root plans =>
    Rust.operationModule target definition (definition.document fragments) root plans

def kotlinModule (target : Target) (fragments : NameMap BoundFragment) : PlannedFile → Kotlin.Module
  | .type definition => Kotlin.typeModule target definition
  | .operation definition root plans =>
    Kotlin.operationModule target definition (definition.document fragments) root plans

end PlannedFile

/-- **The members of each declaration of a file.** -/
def Target.memberLists (target : Target) (fragments : NameMap BoundFragment) (file : PlannedFile) :
    List (List String) :=
  match target.language with
  | .typeScript => (file.module target fragments).sections.flatten.flatMap TypeScript.Item.memberLists
  | .rust => (file.rustModule target fragments).items.flatMap Rust.Item.memberLists
  | .kotlin => (file.kotlinModule target fragments).items.flatMap Kotlin.Item.memberLists

/-- What members are: fields, values and variants in Rust, properties in Kotlin, setters in TypeScript. -/
inductive MemberKind
  | field
  | value
  | variant
  | property
  | inputProperty
  | setter

namespace MemberKind

/-- The words that a member in Rust is spelled from. -/
@[simp] def words : MemberKind → String → String
  | .field => Rust.fieldWords
  | .value => Text.pascalCase
  | _ => id

@[simp] def spell : MemberKind → String → String
  | .property => Kotlin.propertyName
  | .inputProperty => Kotlin.identifier
  | .setter => id
  | kind => fun name => Rust.identifier (kind.words name)

theorem isWord_words (kind : MemberKind) (h : isWord name) : isWord (kind.words name) := by
  cases kind
  case field => exact isWord_fieldWords h
  case value => exact Text.isWord_pascalCase h
  all_goals exact h

end MemberKind

/-- **The names behind the members of one declaration.** -/
structure MemberGroup where
  kind : MemberKind
  names : List String

namespace MemberGroup

@[simp] def members (group : MemberGroup) : List String :=
  match group.kind with
  | .setter => "fields" :: group.names ++ ["build"]
  | kind => group.names.map kind.spell

/-- **No two names of the group are spelled alike**, nor like a member that is always there. -/
def ClashFree (group : MemberGroup) : Prop :=
  match group.kind with
  | .property => typename ∉ group.names ∨ "typename" ∉ group.names
  | .inputProperty => True
  | .setter => "fields" ∉ group.names ∧ "build" ∉ group.names
  | kind => group.names.Pairwise fun name other => ¬ Rust.SameSpelling (kind.words name) (kind.words other)

instance : (group : MemberGroup) → Decidable group.ClashFree
  | ⟨.field, names⟩ | ⟨.value, names⟩ | ⟨.variant, names⟩ =>
    inferInstanceAs (Decidable (names.Pairwise _))
  | ⟨.property, names⟩ => inferInstanceAs (Decidable (typename ∉ names ∨ "typename" ∉ names))
  | ⟨.inputProperty, _⟩ => .isTrue trivial
  | ⟨.setter, names⟩ => inferInstanceAs (Decidable ("fields" ∉ names ∧ "build" ∉ names))

/-- Different names, each of them a word. -/
structure Sound (group : MemberGroup) : Prop where
  distinct : group.names.Nodup
  words : ∀ name ∈ group.names, isWord name

/-- **The members of a sound group differ just if it is free of clashes.** -/
theorem Sound.nodup_iff {group : MemberGroup} (h : group.Sound) : group.members.Nodup ↔ group.ClashFree := by
  obtain ⟨kind, names⟩ := group
  obtain ⟨hd, hw⟩ : names.Nodup ∧ ∀ name ∈ names, isWord name := ⟨h.distinct, h.words⟩
  have hr : ∀ kind : MemberKind, (names.map fun name => identifier (kind.words name)).Nodup ↔
      names.Pairwise fun name other => ¬ SameSpelling (kind.words name) (kind.words other) := fun kind => by
    rw [List.Nodup, pairwise_map]
    exact List.Pairwise.iff_of_mem fun hn ho => not_congr (identifier_eq_iff
      (kind.isWord_words (hw _ hn)) (kind.isWord_words (hw _ ho)))
  cases kind with
  | field => exact hr .field
  | value => exact hr .value
  | variant => exact hr .variant
  | property =>
    rw [ClashFree, ← not_and_or]
    refine (nodup_map_iff_inj_on hd).trans ⟨?_, ?_⟩
    · rintro hi ⟨ht, hn⟩
      have hs : Kotlin.propertyName typename = Kotlin.propertyName "typename" := by decide
      exact absurd (hi _ ht _ hn hs) (by decide)
    · intro hf name hn other ho he
      rcases (Kotlin.propertyName_eq_iff (hw name hn) (hw other ho)).mp he with
        he | ⟨rfl, rfl⟩ | ⟨rfl, rfl⟩
      · exact he
      · exact absurd ⟨hn, ho⟩ hf
      · exact absurd ⟨ho, hn⟩ hf
  | inputProperty =>
    exact iff_of_true (hd.map_on fun name hn other ho =>
      Kotlin.identifier_injective (hw name hn) (hw other ho)) trivial
  | setter =>
    simp only [MemberGroup.members, ClashFree]
    grind

end MemberGroup

namespace Target

variable (target : Target)

def typeGroups (definition : TypeDefinition) : List MemberGroup :=
  let possible := target.registry.possibleTypes definition.name
  match target.language, definition.body with
  | .typeScript, .inputObject fields =>
    [⟨.setter, (fields.filter fun field => !field.isRequired).map InputValueDefinition.name⟩]
  | .rust, .enum values => [⟨.value, values.map EnumValueDefinition.name⟩]
  | .rust, .object _ fields => [⟨.field, fields.map FieldDefinition.name⟩]
  | .rust, .interface _ fields =>
    if possible.isEmpty then [⟨.field, fields.map FieldDefinition.name⟩] else [⟨.variant, possible⟩]
  | .rust, .union _ => [⟨.variant, possible⟩]
  | .rust, .inputObject fields => [⟨.field, fields.map InputValueDefinition.name⟩]
  | .kotlin, .object _ fields => [⟨.property, fields.map FieldDefinition.name⟩]
  | .kotlin, .inputObject fields => [⟨.inputProperty, fields.map InputValueDefinition.name⟩]
  | _, _ => []

def planGroups (plan : ShapePlan) : List MemberGroup :=
  match target.language, plan with
  | .rust, .object plan => [⟨.field, plan.ownFields.map fun entry => entry.field.key⟩]
  | .rust, .union plan => [⟨.variant, plan.variants.map Prod.fst⟩]
  | .kotlin, .object plan => [⟨.property, plan.ownFields.map fun entry => entry.field.key⟩]
  | _, _ => []

def variableGroups (operation : BoundOperation) : List MemberGroup :=
  match target.language with
  | .typeScript => []
  | .rust => [⟨.field, operation.parameters.map BoundVariable.name⟩]
  | .kotlin => [⟨.inputProperty, operation.parameters.map BoundVariable.name⟩]

/-- The names behind the members of each declaration of a file. -/
def groups : PlannedFile → List MemberGroup
  | .type definition => target.typeGroups definition
  | .operation definition _ plans => target.variableGroups definition ++ plans.flatMap target.planGroups

variable {target} (frags : NameMap BoundFragment)

theorem typeScript_memberLists (h : target.language = .typeScript) (file : PlannedFile) :
    (file.module target frags).sections.flatten.flatMap TypeScript.Item.memberLists =
      (target.groups file).map MemberGroup.members := by
  cases file with
  | type defn =>
    rw [module, groups, typeGroups, h, TypeScript.typeModule]
    cases defn.body with
    | inputObject fields =>
      simp [TypeScript.inputModule, TypeScript.Item.memberLists, TypeScript.inputMember]
    | scalar =>
      dsimp only
      split <;> rfl
    | interface impls fields | union members =>
      simp only [TypeScript.abstractModule]
      split_ifs <;> first | rfl | (split <;> rfl)
    | _ => rfl
  | operation defn root plans =>
    have hv : (TypeScript.variablesItem target defn).memberLists = [] := by
      rw [TypeScript.variablesItem]
      split_ifs <;> rfl
    have hl : ∀ plan, (TypeScript.planModule target plan).sections.flatten.flatMap
        TypeScript.Item.memberLists = [] := fun plan => by cases plan <;> rfl
    have hg : target.groups (.operation defn root plans) = [] := by
      simp [groups, variableGroups, planGroups, h]
    have hp : (plans.flatMap fun plan => (TypeScript.planModule target plan).sections).flatten.flatMap
        TypeScript.Item.memberLists = [] := by
      rw [flatten_eq_flatMap, flatMap_assoc, flatMap_assoc, flatMap_eq_nil_iff]
      exact fun plan _ => by rw [← hl plan, flatten_eq_flatMap, flatMap_assoc]
    simp only [module, TypeScript.operationModule, flatMap_map, flatten_append, flatMap_append, hp, hg]
    simp only [flatten_cons, flatMap_append, flatMap_singleton, hv]
    rfl

theorem rust_memberLists (h : target.language = .rust) (file : PlannedFile) :
    (file.rustModule target frags).items.flatMap Item.memberLists = (target.groups file).map MemberGroup.members := by
  cases file with
  | type defn =>
    rw [rustModule, groups, typeGroups, h, typeModule]
    cases hb : defn.body with
    | scalar =>
      dsimp only
      split
      · rw [mappedScalar]
        split_ifs <;> rfl
      · rfl
    | enum vals => simp [enumItem, Item.memberLists]
    | object impls fields =>
      simp [recordFields, Item.memberLists, fieldName_eq]
    | interface impls fields =>
      simp only [abstractItem, hb]
      split_ifs <;> simp [recordFields, Item.memberLists, fieldName_eq]
    | union members =>
      simp only [abstractItem, hb]
      split_ifs with he <;> simp [Item.memberLists]
      simpa using he
    | inputObject fields =>
      simp [inputItems, inputStructField, Item.memberLists, comp_def, fieldName_eq]
  | operation defn root plans =>
    have hp : ∀ plan, (planItem target plan).memberLists = (target.planGroups plan).map MemberGroup.members :=
      fun plan => by cases plan <;> simp [planItem, planGroups, h, Item.memberLists, fieldName_eq]
    simp only [rustModule, operationModule, groups, variableGroups, h, flatMap_append,
      flatMap_map, hp, map_append, map_flatMap]
    simp [Item.memberLists, variableField, comp_def, fieldName_eq]

theorem kotlin_memberLists (h : target.language = .kotlin) (file : PlannedFile) :
    (file.kotlinModule target frags).items.flatMap Kotlin.Item.memberLists =
      (target.groups file).map MemberGroup.members := by
  cases file with
  | type defn =>
    rw [kotlinModule, groups, typeGroups, h, Kotlin.typeModule]
    cases defn.body with
    | scalar =>
      dsimp only
      split
      · rw [Kotlin.mappedScalar]
        split <;> rfl
      · rfl
    | object impls fields =>
      simp [Kotlin.objectModule, Kotlin.fieldProperties, Kotlin.Item.memberLists]
    | inputObject fields =>
      simp [Kotlin.inputModule, Kotlin.inputProperty, Kotlin.Item.memberLists]
    | _ => rfl
  | operation defn root plans =>
    have hp : ∀ plan, (Kotlin.planModule target plan).items.flatMap Kotlin.Item.memberLists =
        (target.planGroups plan).map MemberGroup.members := by
      rintro (plan | plan)
      · simp only [Kotlin.planModule, Kotlin.objectPlanModule, planGroups, h]
        split_ifs with he <;>
          simp_all [Kotlin.Item.memberLists, Kotlin.planProperty]
      · simp [Kotlin.planModule, Kotlin.unionPlanModule, planGroups, h, Kotlin.Item.memberLists]
    have hv : (Kotlin.variablesItem target defn).memberLists =
        (target.variableGroups defn).map MemberGroup.members := by
      simp only [Kotlin.variablesItem, variableGroups, h]
      split_ifs with he <;>
        simp_all [Kotlin.Item.memberLists, Kotlin.variableProperty]
    simp only [kotlinModule, Kotlin.operationModule, groups, flatMap_cons, flatMap_assoc,
      flatMap_map, hp, hv, map_append, map_flatMap]
    rfl

/-- **The members of each declaration come from its group.** -/
theorem memberLists_eq (file : PlannedFile) :
    target.memberLists frags file = (target.groups file).map MemberGroup.members := by
  rw [memberLists]
  cases h : target.language with
  | typeScript => exact typeScript_memberLists frags h file
  | rust => exact rust_memberLists frags h file
  | kotlin => exact kotlin_memberLists frags h file

end Target

/-! ## Names of a run -/

namespace Registry

variable {reg : Registry}

theorem Named.nodup_possibleTypes (h : reg.Named) (type : String) : (reg.possibleTypes type).Nodup := by
  have hn : (reg.types.values.map TypeDefinition.name).Nodup := by
    rw [NameMap.values, map_map, List.Nodup, pairwise_map]
    refine h.types_sorted.imp_of_mem fun {e other} he ho hl hq => ?_
    rw [comp_apply, comp_apply, h.types_named e he, h.types_named other ho] at hq
    simp [hq] at hl
  rw [possibleTypes]
  cases reg.type? type with
  | none => exact nodup_nil
  | some defn =>
    cases hb : defn.body <;> simp only [hb, nodup_nil, nodup_singleton]
    · exact hn.sublist (filter_sublist.map _)
    · exact (NameSet.sorted_ofList _).nodup

theorem Named.nodup_variants (h : reg.Named) {type : String} {sels : List BoundSelection}
    {shape : ResultShape} (hc : (reg.resultShape type sels).Contains shape) :
    (shape.variants.map ShapeVariant.type).Nodup := by
  obtain ⟨name, inner, rfl⟩ := exists_resultShape hc
  have hv : (reg.variantTypes name).Nodup := by
    rw [variantTypes]
    split
    · split_ifs
      · exact h.nodup_possibleTypes name
      · exact nodup_nil
    · exact nodup_nil
  rw [resultShape_eq, shapeLevel]
  cases ht : reg.variantTypes name with
  | nil => exact nodup_nil
  | cons first rest =>
    rw [ht] at hv
    simpa [comp_def] using hv

end Registry

variable {srcs : List Source}

section

variable (hpassed : (schemaProblems srcs).hasErrors = false)

include hpassed

theorem isWord_of_possible {type : String} : ∀ obj ∈ (registry srcs).possibleTypes type, isWord obj := by
  intro obj ho
  have hk := (named_registry srcs).kind?_of_possible ho
  cases hf : (registry srcs).type? obj with
  | none => simp [kind?, hf] at hk
  | some defn => exact isWord_of_isName (isName_of_type? hpassed hf)

theorem distinct_of_mem_userTypes {defn : TypeDefinition} (h : defn ∈ (registry srcs).userTypes) : Distinct defn := by
  simp only [schemaProblems, validate, append_clean] at hpassed
  have hr := (hasErrors_flatMap _ _).mp hpassed.2.1.1.1 defn h
  simp only [checkType, append_clean] at hr
  exact distinct_of_checkBody hr.2

theorem typeGroups_sound {target : Target} (hr : target.registry = registry srcs) {defn : TypeDefinition}
    (h : defn ∈ (registry srcs).userTypes) : ∀ group ∈ target.typeGroups defn, group.Sound := by
  have hd := distinct_of_mem_userTypes hpassed h
  have hfo : defn.isWellFormed := (parts_isWellFormed hpassed).1 (.type defn)
    (mem_append_right _ (mem_append_right _ (mem_map_of_mem h)))
  simp only [TypeDefinition.isWellFormed, and_eq_true, TypeBody.isWellFormed_iff] at hfo
  obtain ⟨-, -, hf, hv, hi⟩ := hfo
  have hp : MemberGroup.Sound ⟨.variant, (registry srcs).possibleTypes defn.name⟩ :=
    ⟨(named_registry srcs).nodup_possibleTypes _, isWord_of_possible hpassed⟩
  have hf : ∀ kind, MemberGroup.Sound ⟨kind, defn.body.fields.map FieldDefinition.name⟩ := fun kind =>
    ⟨hd.fields, forall_mem_map.mpr fun f hfi => by
      have hfi := hf f hfi
      simp only [FieldDefinition.isWellFormed, and_eq_true] at hfi
      exact isWord_of_isName hfi.1.1.1⟩
  have hv : MemberGroup.Sound ⟨.value, defn.body.values.map EnumValueDefinition.name⟩ :=
    ⟨hd.values, forall_mem_map.mpr fun v hva => by
      have hva := hv v hva
      simp only [EnumValueDefinition.isWellFormed, and_eq_true] at hva
      exact isWord_of_isName hva.1.1⟩
  have hi : ∀ kind (inputs : List InputValueDefinition), inputs.Sublist defn.body.inputs →
      MemberGroup.Sound ⟨kind, inputs.map InputValueDefinition.name⟩ := fun kind inputs hs =>
    ⟨hd.inputs.sublist (hs.map _), forall_mem_map.mpr fun input hin => by
      have hin := hi input (hs.subset hin)
      simp only [InputValueDefinition.isWellFormed, and_eq_true] at hin
      exact isWord_of_isName hin.1.1.1⟩
  intro group hg
  simp only [Target.typeGroups, hr] at hg
  split at hg <;> rename_i hb <;> try rw [hb] at hf hv hi
  · exact mem_singleton.mp hg ▸ hi _ _ filter_sublist
  · exact mem_singleton.mp hg ▸ hv
  · exact mem_singleton.mp hg ▸ hf _
  · split_ifs at hg
    · exact mem_singleton.mp hg ▸ hf _
    · exact mem_singleton.mp hg ▸ hp
  · exact mem_singleton.mp hg ▸ hp
  · exact mem_singleton.mp hg ▸ hi _ _ (List.Sublist.refl _)
  · exact mem_singleton.mp hg ▸ hf _
  · exact mem_singleton.mp hg ▸ hi _ _ (List.Sublist.refl _)
  · cases hg

end

theorem variableGroups_sound (ho : (analyze srcs).isOk) (target : Target) {op : BoundOperation}
    (h : op ∈ (analyze srcs).operations) : ∀ group ∈ target.variableGroups op, group.Sound := by
  obtain ⟨defn, hd, hb⟩ := exists_definition h
  obtain ⟨_, _, -, -, hv, -⟩ := Scope.bindOperation_clean.mp (clean_of_isOk ho hd)
  have hn := (Scope.variableDiagnostics_clean.mp hv).1
  have hf := (isWellFormed_of_passed (passed_of_isOk ho)).1 defn hd
  simp only [OperationDefinition.isWellFormed, and_eq_true, all_eq_true] at hf
  have ha : op.parameters.map BoundVariable.name = defn.parameters.map VariableDefinition.name := by
    rw [(Scope.bindOperation_some hb).2.2, Scope.operationResult, boundVariables, firsts_eq_self hn, map_map]
    rfl
  have hs : ∀ kind, MemberGroup.Sound ⟨kind, op.parameters.map BoundVariable.name⟩ := fun kind => by
    rw [ha]
    refine ⟨hn, forall_mem_map.mpr fun param hp => isWord_of_isName ?_⟩
    have hp := hf.1.1.1.2 param hp
    simp only [VariableDefinition.isWellFormed, and_eq_true] at hp
    exact hp.1.1.1
  intro group hg
  rw [Target.variableGroups] at hg
  split at hg
  · cases hg
  all_goals exact mem_singleton.mp hg ▸ hs _

theorem planGroups_sound (hok : (analyze srcs).isOk) (target : Target) {op : BoundOperation}
    (h : op ∈ (analyze srcs).operations) {shape : ResultShape} (hs : op.shape.Contains shape)
    {plans : List ShapePlan} {plan : ShapePlan} (hpl : plan.PlannedFrom plans shape) :
    ∀ group ∈ target.planGroups plan, group.Sound := by
  have hr := registry_of_passed (passed_of_isOk hok)
  have hn := named_of_contains hok h hs
  rw [shape_of_mem_operations h, hr] at hs
  have ht := tidy_of_contains hs
  have hk : ∀ {fields : List ShapeField} {es own : List FieldPlan}, PlannedFields es fields →
      own.Sublist es → (fields.map ShapeField.key).Nodup → (∀ field ∈ fields, Text.isName field.key) →
      ∀ kind, MemberGroup.Sound ⟨kind, own.map fun e => e.field.key⟩ := by
    intro fields es own hp hu hd hw kind
    have hq : (es.map fun e => e.field.key) = fields.map ShapeField.key := by
      rw [← hp.fields, map_map]
      rfl
    refine ⟨(hq ▸ hd).sublist (hu.map _), forall_mem_map.mpr fun e he => ?_⟩
    exact isWord_of_isName (hw _ (hp.fields ▸ mem_map_of_mem (hu.subset he)))
  cases plan with
  | object plan =>
    have hso : ∀ kind, MemberGroup.Sound ⟨kind, plan.ownFields.map fun e => e.field.key⟩ := by
      rcases hpl with ⟨-, -, -, hp⟩ | ⟨_, _, ⟨⟩, variant, hv, hof⟩
      · exact hk hp plan.ownFields_sublist ht.fields fun field hf =>
          hn.keys shape.type field (.inl hf)
      · exact hk hof.fields plan.ownFields_sublist (ht.variants variant hv) fun field hf =>
          hn.keys variant.type field (.inr ⟨variant, hv, rfl, hf⟩)
    intro group hg
    cases hl : target.language <;> simp only [Target.planGroups, hl] at hg
    · cases hg
    all_goals exact mem_singleton.mp hg ▸ hso _
  | union plan =>
    have ha := hpl.union.2.2
    have hy : plan.variants.map Prod.fst = shape.variants.map ShapeVariant.type := by
      rw [← forall₂_eq_eq_eq, forall₂_map_left_iff, forall₂_map_right_iff]
      exact ha.imp fun _ _ hpa => hpa.1
    have hso : MemberGroup.Sound ⟨.variant, plan.variants.map Prod.fst⟩ := by
      rw [hy]
      exact ⟨(named_registry srcs).nodup_variants hs, forall_mem_map.mpr fun variant hv =>
        isWord_of_isName (hn.variants variant hv)⟩
    intro group hg
    cases hl : target.language <;> simp only [Target.planGroups, hl] at hg
    · cases hg
    · exact mem_singleton.mp hg ▸ hso
    · cases hg

/-- **The names behind the members of a declaration are different words.** -/
theorem sound_groups (ho : (analyze srcs).isOk) {target : Target}
    (hr : target.registry = (analyze srcs).registry) {taken : TakenNames} {file : PlannedFile}
    (hf : file ∈ planFiles (analyze srcs).declarations taken) : ∀ group ∈ target.groups file, group.Sound := by
  have hpassed := passed_of_isOk ho
  have hd : file.declaration ∈ (analyze srcs).declarations :=
    declaration_planFiles (analyze srcs).declarations taken ▸ mem_map_of_mem hf
  cases file with
  | type defn =>
    rcases Analysis.mem_declarations.mp hd with ⟨type, ht, ⟨⟩⟩ | ⟨op, -, ⟨⟩⟩
    rw [registry_of_passed hpassed] at hr ht
    exact typeGroups_sound hpassed hr ht
  | operation defn root plans =>
    have hop := Analysis.operation_mem hd
    obtain ⟨-, before, hp⟩ := exists_planOperation hf
    obtain ⟨rfl, rfl⟩ := Prod.mk.inj hp
    refine forall_mem_append.mpr ⟨variableGroups_sound ho target hop, fun group hg => ?_⟩
    obtain ⟨plan, hp, hg⟩ := mem_flatMap.mp hg
    obtain ⟨shape, hs, hfr⟩ := plannedFrom_planShape (allTidy_of_mem_operations hop) plan hp
    exact planGroups_sound ho target hop hs hfr group hg

/-! ## Clients -/

/-- **When the members of a generated declaration differ.** They are spelled from names that differ always.

* In Rust two of them clash just if they become one word by the change of letter case, or one becomes a word
  of paths such as `self` and the other that word with a mark, `self_`.
* In Kotlin they clash just if a response has the keys `__typename` and `typename`.
* In TypeScript they clash just if an optional field of an input is called `fields` or `build`.
-/
theorem members_distinct_iff (sources : List Source) (options : Options) (language : Language)
    {client : GeneratedClient} (hgenerate : generate (analyze sources) options language = .ok client) :
    let target : Target := ⟨language, (analyze sources).registry, options⟩
    ∃ taken, reservedNames (analyze sources).declarations = .ok taken ∧
      client.files = (planFiles (analyze sources).declarations taken).map
          (target.file (analyze sources).fragments) ++
        [target.supportFile, target.indexFile (analyze sources).declarations] ∧
      ∀ file ∈ planFiles (analyze sources).declarations taken,
        target.memberLists (analyze sources).fragments file = (target.groups file).map MemberGroup.members ∧
        ∀ group ∈ target.groups file, group.names.Nodup ∧ (group.members.Nodup ↔ group.ClashFree) := by
  obtain ⟨hok, taken, hreserved, -, hfiles⟩ := generate_eq_ok hgenerate
  refine ⟨taken, hreserved, hfiles, fun file hfile => ⟨Target.memberLists_eq _ file, fun group hgroup => ?_⟩⟩
  have hsound := sound_groups hok rfl hfile group hgroup
  exact ⟨hsound.distinct, hsound.nodup_iff⟩

/-- Fields called like a word of paths and like a keyword, and an input with a required and an optional field. -/
def pathSources : List Source := number [("path",
  "type Query\x7bself(in:In):Int type:Int\x7dinput In\x7bself:Int build:Int!\x7dquery Q\x7bself typename:type\x7d")]

theorem members_distinct_path : [.typeScript, .rust, .kotlin].Forall fun language => ∃ client taken,
    generate (analyze pathSources) {} language = .ok client ∧
      reservedNames (analyze pathSources).declarations = .ok taken ∧
      ∀ file ∈ planFiles (analyze pathSources).declarations taken, ∀ members ∈ Target.memberLists
        ⟨language, (analyze pathSources).registry, {}⟩ (analyze pathSources).fragments file, members.Nodup := by
  have hgenerated : ∀ language ∈ [.typeScript, .rust, .kotlin],
      (generate (analyze pathSources) {} language).isOk := by decide +kernel
  have hfree : ∀ taken ∈ (reservedNames (analyze pathSources).declarations).toOption,
      ∀ language ∈ [.typeScript, .rust, .kotlin],
      ∀ file ∈ planFiles (analyze pathSources).declarations taken,
      ∀ group ∈ Target.groups ⟨language, (analyze pathSources).registry, {}⟩ file, group.ClashFree := by
    decide +kernel
  refine forall_iff_forall_mem.mpr fun language hlanguage => ?_
  obtain ⟨client, hgenerate⟩ := exists_client (hgenerated language hlanguage)
  obtain ⟨taken, hreserved, -, hfiles⟩ := members_distinct_iff pathSources {} language hgenerate
  refine ⟨client, taken, hgenerate, hreserved, fun file hfile members hmembers => ?_⟩
  rw [(hfiles file hfile).1] at hmembers
  obtain ⟨group, hgroup, rfl⟩ := mem_map.mp hmembers
  rw [hreserved] at hfree
  exact ((hfiles file hfile).2 group hgroup).2.mpr (hfree taken rfl language hlanguage file hfile group hgroup)

/-- Names that one language each spells alike. -/
def alikeSources : List Source := number [("alike",
  "type Query\x7baB(in:In):Int a_b:Int typename:Int\x7dinput In\x7bbuild:Int\x7dquery Q\x7b__typename typename\x7d")]

/-- **Members can clash in each language.** -/
theorem exists_equal_members : [.typeScript, .rust, .kotlin].Forall fun language => ∃ client taken,
    generate (analyze alikeSources) {} language = .ok client ∧
      reservedNames (analyze alikeSources).declarations = .ok taken ∧
      ∃ file ∈ planFiles (analyze alikeSources).declarations taken, ∃ members ∈ Target.memberLists
        ⟨language, (analyze alikeSources).registry, {}⟩ (analyze alikeSources).fragments file, ¬ members.Nodup := by
  have hgenerated : ∀ language ∈ [.typeScript, .rust, .kotlin],
      (generate (analyze alikeSources) {} language).isOk := by decide +kernel
  have hclash : ∀ taken ∈ (reservedNames (analyze alikeSources).declarations).toOption,
      ∀ language ∈ [.typeScript, .rust, .kotlin],
      ∃ file ∈ planFiles (analyze alikeSources).declarations taken, ∃ members ∈ Target.memberLists
        ⟨language, (analyze alikeSources).registry, {}⟩ (analyze alikeSources).fragments file, ¬ members.Nodup := by
    decide +kernel
  refine forall_iff_forall_mem.mpr fun language hlanguage => ?_
  obtain ⟨client, hgenerate⟩ := exists_client (hgenerated language hlanguage)
  obtain ⟨-, taken, hreserved, -⟩ := generate_eq_ok hgenerate
  rw [hreserved] at hclash
  exact ⟨client, taken, hgenerate, hreserved, hclash taken rfl language hlanguage⟩

end GraphClient
