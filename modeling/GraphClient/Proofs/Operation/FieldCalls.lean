import GraphClient.Proofs.Operation.Places

/-!
# Calls of fields

A bound field calls a field of the object that it finds. Its arguments are checked against one definition
only: that of the type it is selected on, or that of the first member of a union.
-/

namespace GraphClient

open List Notes Option

/-! ## Calls -/

/-- A field with the type that it is selected on. -/
structure FieldCall where
  parent : String
  field : BoundField

namespace BoundSelection

mutual

/-- The fields of a selection on the type `parent`, at any depth. -/
def calls (parent : String) : BoundSelection → List FieldCall
  | .field head selections => ⟨parent, head⟩ :: callsOf head.type.name selections
  | .fragment use selections => callsOf (use.condition.getD parent) selections

def callsOf (parent : String) : List BoundSelection → List FieldCall
  | [] => []
  | selection :: rest => calls parent selection ++ callsOf parent rest

end

end BoundSelection

def BoundOperation.calls (operation : BoundOperation) : List FieldCall :=
  BoundSelection.callsOf operation.root operation.selections

namespace FieldDefinition

def Declares (field : FieldDefinition) (name : String) : Prop :=
  ∃ input ∈ field.arguments, input.name = name

def Requires (field : FieldDefinition) (name : String) : Prop :=
  ∃ input ∈ field.arguments, input.name = name ∧ input.isRequired

/-- **The arguments that a field can be called with**: it declares each of them, and none that it requires
is missing. -/
def Admits (field : FieldDefinition) (arguments : List Argument) : Prop :=
  (∀ argument ∈ arguments, field.Declares argument.name) ∧
    ∀ input ∈ field.arguments, input.isRequired → input.name ∈ arguments.map Argument.name

instance (field : FieldDefinition) (name : String) : Decidable (field.Declares name) :=
  inferInstanceAs (Decidable (∃ input ∈ field.arguments, input.name = name))

instance (field : FieldDefinition) (args : List Argument) : Decidable (field.Admits args) :=
  inferInstanceAs (Decidable ((∀ arg ∈ args, field.Declares arg.name) ∧
    ∀ input ∈ field.arguments, input.isRequired → input.name ∈ args.map Argument.name))

variable {checked declared : FieldDefinition} {args : List Argument}

/-- What a second definition has to meet once the first one admits the arguments. -/
theorem Admits.iff_of_admits (h : checked.Admits args) : declared.Admits args ↔
    (∀ arg ∈ args, declared.Declares arg.name) ∧
      ∀ input ∈ declared.arguments, input.isRequired → ¬ checked.Requires input.name →
        input.name ∈ args.map Argument.name := by
  refine and_congr_right fun _ => ⟨fun hg input hi hr _ => hg input hi hr, fun hg input hi hr => ?_⟩
  by_cases hc : checked.Requires input.name
  · obtain ⟨other, ho, ha, hn⟩ := hc
    exact ha ▸ h.2 other ho hn
  · exact hg input hi hr hc

end FieldDefinition

variable {field : FieldDefinition}

theorem declares_of_checkArgument {reg : Registry} {owner : String} {arg : Argument}
    (h : (checkArgument reg owner field.arguments arg).diagnostics.hasErrors = false) : field.Declares arg.name := by
  rw [checkArgument] at h
  cases hf : InputValueDefinition.find? field.arguments arg.name with
  | none => simp [hf] at h
  | some input => exact ⟨input, mem_of_find?_eq_some hf, Registry.name_of_find? hf⟩

theorem Scope.admits_of_fieldNotes {scope : Scope} {parent : String} {head : FieldHead}
    (h : (scope.fieldNotes parent head field).diagnostics.hasErrors = false) : field.Admits head.arguments := by
  rw [fieldNotes, clean_append, diagnostics_ofFindings, checkArguments_clean] at h
  exact ⟨fun arg ha => declares_of_checkArgument (h.2.2.1 arg ha), h.2.2.2⟩

/-! ## Checked definitions -/

namespace Registry

/-- **The type whose fields are checked** for a type: for a union its first member. -/
def representative (registry : Registry) (parent : String) : String :=
  if registry.kind? parent = some .union then (registry.possibleTypes parent).headD parent else parent

variable {reg : Registry} {object parent name : String}

theorem field?_representative {scope : Scope} (h : scope.fieldDefinition? parent name = some field) :
    scope.registry.field? (scope.registry.representative parent) name = some field := by
  rw [Scope.fieldDefinition?] at h
  cases hk : scope.registry.kind? parent with
  | none => simp [hk] at h
  | some kind =>
    cases kind with
    | object | interface => simpa [representative, hk] using h
    | union =>
      cases hp : scope.registry.possibleTypes parent with
      | nil => simp [hk, hp] at h
      | cons first rest =>
        cases hf : scope.registry.field? first name with
        | none => simp [hk, hp, hf] at h
        | some found =>
          simp only [hk, hp, hf, ite_none_right_eq_some] at h
          simpa [representative, hk, hp, hf] using h.2
    | scalar | enum | inputObject => simp [hk] at h

variable {checked declared : FieldDefinition} {argument : String}

theorem Hierarchical.declares (h : reg.Hierarchical) (hn : reg.Named) (hk : reg.kind? parent = some .interface)
    (ho : object ∈ reg.possibleTypes parent) (hc : reg.field? parent name = some checked)
    (hd : reg.field? object name = some declared) (hr : checked.Declares argument) : declared.Declares argument := by
  obtain ⟨type, iface, ht, hi, e, he, rfl⟩ := hn.exists_interface hk ho
  rw [field?_of_type? hi] at hc
  rw [field?_of_type? ht] at hd
  obtain ⟨actual, ha, hs⟩ := (h object type ht e he iface hi).fields checked
    (mem_of_find?_eq_some hc)
  have hna : checked.name = name := by simpa using find?_some hc
  rw [hna, hd, some.injEq] at ha
  obtain ⟨input, hin, rfl⟩ := hr
  obtain ⟨found, hf, hsa, -⟩ := hs.arguments input hin
  exact ⟨found, ha ▸ hf, hsa⟩

/-- Only members of unions can lack an argument of the checked field. -/
theorem Hierarchical.declares_of_representative (h : reg.Hierarchical) (hn : reg.Named)
    (hu : reg.kind? parent ≠ some .union) (ho : object ∈ reg.possibleTypes parent)
    (hc : reg.field? (reg.representative parent) name = some checked) (hd : reg.field? object name = some declared)
    (hr : checked.Declares argument) : declared.Declares argument := by
  rw [representative, if_neg hu] at hc
  rcases hn.possibleTypes_cases ho with ⟨-, rfl⟩ | ⟨kind, hk, ha⟩
  · rw [hc, some.injEq] at hd
    exact hd ▸ hr
  · cases kind <;> try cases ha
    · exact h.declares hn hk ho hc hd hr
    · exact absurd hk hu

end Registry

/-! ## Fields at any depth -/

namespace Scope

variable {scope : Scope} {parent : String} {head : BoundField} {inner : List BoundSelection}

theorem Yields.admits (h : scope.Yields parent (.field head inner)) (ha : head.name ≠ typename) :
    ∃ checked, scope.fieldDefinition? parent head.name = some checked ∧ checked.Admits head.arguments := by
  obtain ⟨sels, hc, hm⟩ := h
  rcases mem_addTypename.mp hm with ho | ⟨-, he⟩
  · obtain ⟨sel, hse, hs⟩ := mem_bindEach.mp ho
    have hn := clean_iff.mp hc sel hse
    have hb := binds_of_clean hn
    rw [hs] at hb
    revert hn hb
    generalize (scope.bindSelection parent sel).2 = notes
    intro hn hb
    cases hb with
    | typename => exact absurd rfl ha
    | leaf _ hf =>
      rw [clean_append] at hn
      exact ⟨_, hf, admits_of_fieldNotes hn.2⟩
    | composite _ hf =>
      rw [clean_append, clean_append] at hn
      exact ⟨_, hf, admits_of_fieldNotes hn.1.2⟩
  · cases he
    exact absurd rfl ha

theorem Complete.yields_below (h : scope.Complete)
    (hy : scope.Yields parent (.field head inner)) : ∀ bound ∈ inner, scope.Yields head.type.name bound := by
  obtain ⟨sels, hc, hm⟩ := hy
  rcases h.mem_bindSet hc hm with ⟨sel, -, he⟩ | ⟨-, loc, hq⟩
  · cases he with
    | typename | leaf => exact fun _ hb => absurd hb not_mem_nil
    | composite _ _ _ _ hi => exact fun bound hb => ⟨_, hi, hb⟩
  · cases hq
    exact fun _ hb => absurd hb not_mem_nil

mutual

/-- **The fields of a bound selection, at any depth, are members of bound sets** on the types that they are
selected on. -/
theorem Complete.calls_yield (h : scope.Complete) {parent : String} : (sel : BoundSelection) → scope.Yields parent sel →
      ∀ call ∈ sel.calls parent, ∃ inner, scope.Yields call.parent (.field call.field inner)
  | .field head sels, hy, call, hc => by
    rcases mem_cons.mp hc with rfl | hc
    · exact ⟨sels, hy⟩
    · exact h.callsOf_yield sels (h.yields_below hy) call hc
  | .fragment _ sels, hy, call, hc =>
    h.callsOf_yield sels (h.yields_inside hy) call hc

theorem Complete.callsOf_yield (h : scope.Complete) {parent : String} :
    (sels : List BoundSelection) → (∀ bound ∈ sels, scope.Yields parent bound) →
      ∀ call ∈ BoundSelection.callsOf parent sels, ∃ inner, scope.Yields call.parent (.field call.field inner)
  | [], _, _, hc => absurd hc not_mem_nil
  | sel :: rest, hy, call, hc => by
    rcases mem_append.mp hc with hc | hc
    · exact h.calls_yield sel (hy sel mem_cons_self) call hc
    · exact h.callsOf_yield rest (fun bound hb => hy bound (mem_cons_of_mem _ hb)) call hc

end

end Scope

/-! ## Accepted runs -/

/-- **When a bound field can be called on an object.** In accepted runs every object that a field is selected
on declares it. One definition of the field, that of the parent or of the first member of a union, is known
to admit the arguments. The definition of the object then admits them too, just if

* the parent is no union, or the object declares every argument given, and
* the arguments that the object requires, and the checked definition does not, are given.
-/
theorem calls_admitted_iff (sources : List Source)
    (hids : ∀ source ∈ sources, source.id ≠ Location.builtinSource) (hok : (analyze sources).isOk) :
    ∀ operation ∈ (analyze sources).operations, ∀ call ∈ operation.calls, call.field.name ≠ typename →
      ∃ checked, (analyze sources).registry.field? ((analyze sources).registry.representative call.parent)
          call.field.name = some checked ∧ checked.Admits call.field.arguments ∧
        ∀ object ∈ (analyze sources).registry.possibleTypes call.parent,
          ∃ declared, (analyze sources).registry.field? object call.field.name = some declared ∧
            (declared.Admits call.field.arguments ↔ ((analyze sources).registry.kind? call.parent = some .union →
                ∀ argument ∈ call.field.arguments, declared.Declares argument.name) ∧
              ∀ input ∈ declared.arguments, input.isRequired → ¬ checked.Requires input.name →
                input.name ∈ call.field.arguments.map Argument.name) := by
  intro operation hoperation call hcall hname
  have hpassed := passed_of_isOk hok
  obtain ⟨definition, -, haccepts⟩ := exists_accepts hids hok hoperation
  obtain ⟨inner, hyields⟩ := haccepts.complete.callsOf_yield _ haccepts.yields call hcall
  obtain ⟨checked, hfield, hadmits⟩ := hyields.admits hname
  have hchecked := Registry.field?_representative hfield
  rw [registry_scope] at hchecked
  rw [registry_of_passed hpassed]
  refine ⟨checked, hchecked, hadmits, fun object hobject => ?_⟩
  obtain ⟨declared, hdeclared⟩ : ∃ declared,
      (Source.registry sources).field? object call.field.name = some declared := by
    rw [← registry_scope] at hobject ⊢
    have hkind := haccepts.valid.named.kind?_of_possible hobject
    obtain ⟨declared, hdeclared, -⟩ := Registry.field?_of_applies haccepts.valid (Or.inl hkind)
      (Registry.applies_some.mpr (Or.inr hobject)) hfield
    exact ⟨declared, hdeclared⟩
  refine ⟨declared, hdeclared, hadmits.iff_of_admits.trans (and_congr_left' ⟨fun h _ => h, fun h => ?_⟩)⟩
  by_cases hunion : (Source.registry sources).kind? call.parent = some .union
  · exact h hunion
  · exact fun argument hargument => (hierarchical_of_passed hids hpassed).declares_of_representative
      (named_registry sources) hunion hobject hchecked hdeclared (hadmits.1 argument hargument)

/-- Fields of a union and of an interface, whose default the object drops. -/
def calledSources : List Source :=
  Source.number [("schema.graphql", "interface N \x7b f(a: Int!, b: Int! = 1): N \x7d " ++
      "type A implements N \x7b f(b: Int!, a: Int!, c: Int): N \x7d"),
    ("roots.graphql", "union U = A type Query \x7b u: U \x7d"),
    ("query.graphql", "query Q \x7b u \x7b f(a: 1, b: 2) \x7b ... on N \x7b f(a: 3, b: 4) \x7b a: __typename \x7d " ++
      "\x7d \x7d \x7d \x7d")]

theorem calls_admitted_below_union : (∀ source ∈ calledSources, source.id ≠ Location.builtinSource) ∧
      (analyze calledSources).isOk ∧ ∃ operation ∈ (analyze calledSources).operations, ∃ call ∈ operation.calls,
        call.parent = "N" ∧ call.field.name ≠ typename ∧
        ∃ declared, (analyze calledSources).registry.field? "A" call.field.name = some declared ∧
          declared.Admits call.field.arguments := by
  have hids : ∀ source ∈ calledSources, source.id ≠ Location.builtinSource := by decide
  have hrun : (analyze calledSources).isOk ∧ "A" ∈ (analyze calledSources).registry.possibleTypes "N" ∧
      (analyze calledSources).registry.kind? "N" ≠ some .union ∧
      ∃ operation ∈ (analyze calledSources).operations, ∃ call ∈ operation.calls,
        call.parent = "N" ∧ call.field.name ≠ typename ∧
        ∀ declared ∈ (analyze calledSources).registry.field? "A" call.field.name,
          ∀ input ∈ declared.arguments, input.isRequired →
            input.name ∈ call.field.arguments.map Argument.name := by decide +kernel
  obtain ⟨hok, hobject, hkind, operation, hoperation, call, hcall, hparent, hname, hgiven⟩ := hrun
  obtain ⟨checked, -, -, hobjects⟩ :=
    calls_admitted_iff calledSources hids hok operation hoperation call hcall hname
  obtain ⟨declared, hdeclared, hiff⟩ := hobjects "A" (hparent ▸ hobject)
  exact ⟨hids, hok, operation, hoperation, call, hcall, hparent, hname, declared, hdeclared,
    hiff.mpr ⟨fun hunion => absurd (hparent ▸ hunion) hkind,
      fun input hinput hrequired _ => hgiven declared hdeclared input hinput hrequired⟩⟩

/-- Members of a union whose fields have one type and different arguments. -/
def memberCallSources : List Source :=
  Source.number [("schema.graphql", "union U = A | B type A \x7b f(x: Int): Int \x7d " ++
      "type B \x7b f(y: Int!): Int \x7d type Query \x7b u: U \x7d"),
    ("query.graphql", "query Q \x7b u \x7b f(x: 1) \x7d \x7d")]

/-- An argument with a default that the object drops. -/
def droppedDefaultSources : List Source :=
  Source.number [("schema.graphql", "interface I \x7b f(a: Int! = 1): Int \x7d " ++
      "type T implements I \x7b f(a: Int!): Int \x7d type Query \x7b i: I \x7d"),
    ("query.graphql", "query Q \x7b i \x7b f \x7d \x7d")]

/-- **A field of an accepted run can be one that an object does not admit**: on a union, whose other members
are not asked about arguments, and on an interface, whose default the object drops. -/
theorem exists_call_not_admitted : [memberCallSources, droppedDefaultSources].Forall fun sources =>
    (analyze sources).isOk ∧ ∃ operation ∈ (analyze sources).operations, ∃ call ∈ operation.calls,
        ∃ object ∈ (analyze sources).registry.possibleTypes call.parent,
          ∃ declared ∈ (analyze sources).registry.field? object call.field.name,
            ¬ declared.Admits call.field.arguments := by
  refine forall_iff_forall_mem.mpr ?_
  decide +kernel

end GraphClient
