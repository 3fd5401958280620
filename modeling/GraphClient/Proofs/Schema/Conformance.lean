import GraphClient.Proofs.Schema.WellFormed

/-!
# Object types and the types they stand for

An interface or union stands for object types. In a registry without problems, an object type has every
field that can be selected on a type that stands for it, with a type that fits.

* **`Registry.mem_possibleTypes`**: the object types that a type stands for are its possible types.
* **`Registry.hierarchical_build`**: types of accepted documents inherit from their interfaces.
-/

namespace GraphClient

open List Diagnostics TypeDefinition Bool

namespace TypeRef

theorem refines_refl (levels : List Bool) : refines levels levels := by
  induction levels with
  | nil => rfl
  | cons level levels ih => simp [refines, ih]

@[simp] theorem isCovariant_refl (type : TypeRef) : type.isCovariant type := by
  simp [isCovariant, refines_refl]

variable {actual want : TypeRef}

theorem name_of_isCovariant (h : actual.isCovariant want) : actual.name = want.name := by
  rw [isCovariant, and_eq_true] at h
  exact eq_of_beq h.1

theorem isCovariant_nullable (h : actual.isCovariant want) : actual.isCovariant want.nullable := by
  simp only [isCovariant, refines, and_eq_true] at h
  simp [isCovariant, refines, nullable, h.1, h.2.2]

end TypeRef

namespace Registry

variable {reg : Registry}

/-- **An object type is of a type**: it is that type, it implements it, or it is one of its members. -/
def IsOf (registry : Registry) (object type : String) : Prop :=
  ∃ definition, registry.type? type = some definition ∧ match definition.body with
    | .object .. => object = type
    | .interface .. => ∃ implementer, registry.type? object = some implementer ∧
        implementer.kind = .object ∧ type ∈ implementer.implements.map NamedRef.name
    | .union members => object ∈ members.map NamedRef.name
    | _ => False

variable {type : TypeDefinition}

theorem lists_iff {iface : String} : type.lists iface ↔ iface ∈ type.implements.map NamedRef.name := by
  rw [lists]
  simp

variable {name obj : String} {e : NamedRef}

theorem kind?_of_type? (h : reg.type? name = some type) : reg.kind? name = some type.kind := by
  rw [kind?, h]
  rfl

theorem field?_of_type? {field : String} (h : reg.type? name = some type) :
    reg.field? name field = type.field? field := by
  rw [field?, h]
  rfl

theorem Named.mem_possibleTypes_interface (h : reg.Named) {type : String}
    {defn : TypeDefinition} (hf : reg.type? type = some defn) (hk : defn.kind = .interface) :
    obj ∈ reg.possibleTypes type ↔ ∃ implementer, reg.type? obj = some implementer ∧
      implementer.kind = .object ∧ type ∈ implementer.implements.map NamedRef.name := by
  have hp : reg.possibleTypes type =
      (reg.types.values.filter fun other => other.kind == .object && other.lists type).map
        name := by
    rw [kind] at hk
    cases hb : defn.body with
    | interface => simp only [possibleTypes, hf, hb]
    | _ => rw [hb] at hk; cases hk
  rw [hp, mem_map]
  simp only [mem_filter, mem_values h, and_eq_true, beq_iff_eq, lists_iff]
  constructor
  · rintro ⟨implementer, ⟨⟨name, hn⟩, ho, hl⟩, rfl⟩
    rw [← h.name_eq hn] at hn
    exact ⟨implementer, hn, ho, hl⟩
  · rintro ⟨implementer, hn, ho, hl⟩
    exact ⟨implementer, ⟨⟨obj, hn⟩, ho, hl⟩, h.name_eq hn⟩

theorem mem_possibleTypes (h : reg.Named) (ho : reg.WellFormed) {type : String} :
    obj ∈ reg.possibleTypes type ↔ reg.IsOf obj type := by
  cases hf : reg.type? type with
  | none => simp [possibleTypes, IsOf, hf]
  | some defn =>
    have hn := h.name_eq hf
    cases hb : defn.body with
    | object => simp [possibleTypes, IsOf, hf, hb, hn]
    | interface =>
      rw [h.mem_possibleTypes_interface hf (by rw [kind, hb]; rfl)]
      simp [IsOf, hf, hb]
    | union members =>
      have hm := ho.types defn ((mem_values h).mpr ⟨type, hf⟩)
      rw [hb] at hm
      simp only [possibleTypes, IsOf, hf, hb, Option.some.injEq, exists_eq_left', NameSet.mem_ofList,
        mem_filter, beq_iff_eq, and_iff_left_iff_imp]
      intro he
      obtain ⟨member, hmem, rfl⟩ := mem_map.mp he
      exact hm.2.2 member hmem
    | scalar | enum | inputObject => simp [possibleTypes, IsOf, hf, hb]

theorem Named.kind?_of_possible (h : reg.Named) {type : String}
    (ho : obj ∈ reg.possibleTypes type) : reg.kind? obj = some .object := by
  cases hf : reg.type? type with
  | none => simp [possibleTypes, hf] at ho
  | some defn =>
    cases hb : defn.body with
    | object =>
      simp only [possibleTypes, hf, hb, mem_singleton] at ho
      rw [ho, h.name_eq hf, kind?_of_type? hf, kind, hb]
      rfl
    | interface =>
      obtain ⟨implementer, hn, hk, -⟩ :=
        (h.mem_possibleTypes_interface hf (by rw [kind, hb]; rfl)).mp ho
      rw [kind?_of_type? hn, hk]
    | union members =>
      simp only [possibleTypes, hf, hb, NameSet.mem_ofList, mem_filter, beq_iff_eq] at ho
      exact ho.2
    | scalar | enum | inputObject => simp [possibleTypes, hf, hb] at ho

/-- **Types have the fields of their interfaces**, with types that fit. -/
def Conforming (registry : Registry) : Prop :=
  ∀ name type, registry.type? name = some type → ∀ entry ∈ type.implements,
    ∀ interface, registry.type? entry.name = some interface → ∀ expected ∈ interface.fields,
      ∃ actual, type.field? expected.name = some actual ∧ actual.type.isCovariant expected.type

/-- **A field can stand for another one**: its type fits, it takes the same arguments, and those that it
adds need not be given. -/
structure StandsFor (actual expected : FieldDefinition) : Prop where
  covariant : actual.type.isCovariant expected.type
  arguments : ∀ argument ∈ expected.arguments, ∃ found ∈ actual.arguments,
    found.name = argument.name ∧ found.type = argument.type
  added : ∀ argument ∈ actual.arguments,
    argument.name ∉ expected.arguments.map InputValueDefinition.name → argument.isRequired = false

theorem WellFormed.interfaces (h : reg.WellFormed) (ht : type ∈ reg.types.values) (he : e ∈ type.implements) :
    reg.kind? e.name = some .interface := by
  have ho := h.types type ht
  rw [implements] at he
  cases hb : type.body <;> simp only [hb, not_mem_nil] at he ho
  all_goals exact ho.interfaces e he

theorem name_of_find? {inputs : List InputValueDefinition} {input : InputValueDefinition}
    (h : InputValueDefinition.find? inputs name = some input) : input.name = name := by
  simpa using find?_some h

theorem inherited_of_clean {iface : TypeDefinition} {loc : Location} {exp : FieldDefinition}
    (h : (checkInherited type iface loc exp).hasErrors = false) :
    ∃ actual, type.field? exp.name = some actual ∧ StandsFor actual exp := by
  rw [checkInherited] at h
  cases hfo : type.field? exp.name with
  | none => simp [hfo] at h
  | some actual =>
    simp only [hfo, append_clean, checkExpectedArguments, checkAddedArguments, hasErrors_flatMap] at h
    obtain ⟨⟨ht, hg⟩, ha⟩ := h
    rw [hasErrors_filter_map fun _ => rfl] at ha
    refine ⟨actual, rfl, ?_, fun arg hr => ?_, fun arg hr he => ?_⟩
    · by_contra hn
      simp [hn] at ht
    · have hc := hg arg hr
      cases hf : actual.argument? arg.name with
      | none => simp [hf] at hc
      | some found =>
        refine ⟨found, mem_of_find?_eq_some hf, name_of_find? hf, ?_⟩
        by_contra hn
        simp [hf, hn] at hc
    · have hno : exp.argument? arg.name = none := find?_eq_none.mpr fun other ho hna =>
        he (eq_of_beq hna ▸ mem_map_of_mem ho)
      simpa [hno] using ha arg hr

/-- **What a type takes over from an interface**: its fields, and the interfaces that it implements. -/
structure Inherits (type interface : TypeDefinition) : Prop where
  ne : interface.name ≠ type.name
  fields : ∀ expected ∈ interface.fields, ∃ actual, type.field? expected.name = some actual ∧ StandsFor actual expected
  interfaces : ∀ entry ∈ interface.implements, entry.name = type.name ∨ entry.name ∈ type.implements.map NamedRef.name

theorem inherits_of_clean {iface : TypeDefinition} {repeated : Bool} (ho : reg.type? e.name = some iface)
    (h : (reg.checkImplemented type e repeated).hasErrors = false) : Inherits type iface := by
  have hc : iface.name ≠ type.name ∧
      (checkConformance type iface e.location).hasErrors = false := by
    rw [checkImplemented, ho] at h
    cases repeated with
    | true => simp at h
    | false =>
      cases hk : iface.kind <;> simp only [false_eq_true, if_false, hk] at h
      case interface =>
        split_ifs at h with hs
        · simp at h
        · exact ⟨hs, h⟩
      all_goals simp at h
  simp only [checkConformance, append_clean, hasErrors_flatMap] at hc
  obtain ⟨hn, hf, hi⟩ := hc
  rw [hasErrors_filter_map fun _ => rfl] at hi
  refine ⟨hn, fun want he => inherited_of_clean (hf want he), fun inherited hin => ?_⟩
  rw [← lists_iff]
  have hl := hi inherited hin
  simp only [and_eq_false_iff, not_eq_false', bne_eq_false_iff_eq] at hl
  exact hl.symm

/-- **Types inherit from the interfaces that they implement.** -/
def Hierarchical (registry : Registry) : Prop :=
  ∀ name type, registry.type? name = some type → ∀ entry ∈ type.implements,
    ∀ interface, registry.type? entry.name = some interface → Inherits type interface

theorem Hierarchical.conforming (h : reg.Hierarchical) : reg.Conforming := by
  intro name type ht e hn iface hi want he
  obtain ⟨actual, ha, hs⟩ := (h name type ht e hn iface hi).fields
    want he
  exact ⟨actual, ha, hs.covariant⟩

theorem hierarchical_build {docs : List Document} (ht : Placed docs) (hbu : (build docs).2.hasErrors = false)
    (hv : (build docs).1.validate.hasErrors = false) : (build docs).1.Hierarchical := by
  intro name type hty e he iface hi
  rcases (build_clean.mp hbu).1.user_or_scalar hty ht with hu | hs
  · simp only [validate, append_clean] at hv
    have hr := (hasErrors_flatMap _ _).mp hv.1.1.1 type hu
    simp only [checkType, append_clean] at hr
    have hf : ((build docs).1.checkFielded type).hasErrors = false := by
      rw [implements] at he
      cases hb : type.body <;> simp only [hb] at he <;>
        first | exact absurd he not_mem_nil | simpa only [checkBody, hb] using hr.2
    simp only [checkFielded, append_clean] at hf
    obtain ⟨repeated, hc⟩ := clean_of_mem hf.2 he
    exact inherits_of_clean hi hc
  · rw [implements, hs] at he
    cases he

/-- **A registry without problems.** -/
structure Valid (registry : Registry) : Prop where
  named : registry.Named
  wellFormed : registry.WellFormed
  conforming : registry.Conforming

end Registry

end GraphClient
