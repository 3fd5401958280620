import GraphClient.Proofs.Schema.Permuted

/-!
# Well-formed registries

What the rules of a schema establish. References are checked when a registry is built and kinds, names and
sizes when it is validated; together they say how every definition looks.

* **`Registry.wellFormed_build`**: a registry that is built and validated without errors is well formed.
-/

namespace GraphClient

open Diagnostics List

def Registry.HasKind (registry : Registry) (allowed : TypeKind → Bool) (name : String) : Prop :=
  ∃ kind, registry.kind? name = some kind ∧ allowed kind

/-- Arguments or input fields of different names, each of an input type. -/
structure Registry.InputsWellFormed (registry : Registry) (inputs : List InputValueDefinition) :
    Prop where
  distinct : (inputs.map InputValueDefinition.name).Nodup
  kinds : ∀ input ∈ inputs, registry.HasKind TypeKind.isInput input.type.name

/-- Fields of different names, at least one, each of an output type and with well-formed arguments; and
different interfaces. -/
structure Registry.FieldedWellFormed (registry : Registry) (implements : List NamedRef)
    (fields : List FieldDefinition) : Prop where
  nonempty : fields ≠ []
  distinct : (fields.map FieldDefinition.name).Nodup
  kinds : ∀ field ∈ fields, registry.HasKind TypeKind.isOutput field.type.name
  arguments : ∀ field ∈ fields, registry.InputsWellFormed field.arguments
  interfaces_distinct : (implements.map NamedRef.name).Nodup
  interfaces : ∀ entry ∈ implements, registry.kind? entry.name = some .interface

/-- **What a type of each kind declares.** -/
def TypeBody.WellFormed (registry : Registry) : TypeBody → Prop
  | .scalar => True
  | .object implements fields => registry.FieldedWellFormed implements fields
  | .interface implements fields => registry.FieldedWellFormed implements fields
  | .union members =>
    members ≠ [] ∧ (members.map NamedRef.name).Nodup ∧ ∀ member ∈ members, registry.kind? member.name = some .object
  | .enum values => values ≠ [] ∧ (values.map EnumValueDefinition.name).Nodup
  | .inputObject fields => fields ≠ [] ∧ registry.InputsWellFormed fields

namespace Registry

/-- **A registry without problems**: its types, the arguments of its directives and its declared roots are
well formed. -/
structure WellFormed (registry : Registry) : Prop where
  types : ∀ type ∈ registry.types.values, type.body.WellFormed registry
  directives : ∀ directive ∈ registry.directives.values, registry.InputsWellFormed directive.arguments
  roots : ∀ root ∈ registry.roots, registry.kind? root.2.name = some .object

variable {reg : Registry}

variable {place : Location} {inputs : List InputValueDefinition} {type : TypeDefinition}
  {name want : String} {place' : Location} {α : Type} {dir : DirectiveDefinition}

theorem hasKind_of_clean {ok : TypeKind → Bool} (hr : (reg.checkReference name place).hasErrors = false)
    (hk : (reg.checkKind name ok want place').hasErrors = false) : reg.HasKind ok name := by
  rw [checkReference] at hr
  rw [checkKind] at hk
  cases ht : reg.type? name with
  | none =>
    have ha : reg.types.contains name = false := by
      rw [NameMap.contains, show reg.types.find? name = none from ht]
      rfl
    simp [ha] at hr
  | some type =>
    have hf : reg.kind? name = some type.kind := by rw [kind?, ht]; rfl
    rw [hf] at hk
    refine ⟨type.kind, hf, ?_⟩
    by_contra hn
    simp [hn] at hk

theorem kind_of_clean {kind : TypeKind} (hr : (reg.checkReference name place).hasErrors = false)
    (hk : (reg.checkKind name (· == kind) want place').hasErrors = false) : reg.kind? name = some kind := by
  obtain ⟨found, hf, ha⟩ := hasKind_of_clean hr hk
  rw [hf, eq_of_beq ha]

theorem nonempty_of_clean {es : List α} {what : String}
    (h : (checkEmpty es.isEmpty name what place).hasErrors = false) : es ≠ [] := by
  rintro rfl
  simp [checkEmpty, emptyDefinition] at h

theorem clean_of_mem {name : α → String} {es : List α} {check : α × Bool → Diagnostics}
    (h : hasErrors ((markRepeats name es).flatMap check) = false) {e : α}
    (he : e ∈ es) : ∃ repeated, (check (e, repeated)).hasErrors = false := by
  have ha : e ∈ (markRepeats name es).map Prod.fst := by rwa [map_fst_markRepeats]
  obtain ⟨⟨e, repeated⟩, hm, rfl⟩ := mem_map.mp ha
  exact ⟨repeated, (hasErrors_flatMap _ _).mp h _ hm⟩

theorem inputs_of_clean {owner : String} {place : DirectiveLocation}
    (hr : (reg.checkInputReferences inputs).hasErrors = false)
    (h : (reg.checkInputValues owner inputs place).hasErrors = false) : reg.InputsWellFormed inputs := by
  rw [checkInputReferences, hasErrors_flatMap] at hr
  refine ⟨nodup_of_clean (fun input => by simp [checkRepeated]) h, fun input hi => ?_⟩
  obtain ⟨repeated, hc⟩ := clean_of_mem h hi
  simp only [append_clean] at hc
  exact hasKind_of_clean (hr input hi) hc.1.2

theorem interface_of_clean {e : NamedRef} {repeated : Bool}
    (hr : (reg.checkReference e.name e.location).hasErrors = false)
    (h : (reg.checkImplemented type e repeated).hasErrors = false) : reg.kind? e.name = some .interface := by
  rw [checkImplemented] at h
  have hi : (reg.checkKind e.name (· == .interface) "an interface" e.location).hasErrors = false := by
    cases hf : reg.type? e.name with
    | none => simp [checkKind, kind?, hf]
    | some iface => cases repeated <;> cases hk : iface.kind <;> simp_all [checkKind, kind?]
  exact kind_of_clean hr hi

theorem fielded_of_clean (hi : (reg.checkNamedReferences type.implements).hasErrors = false)
    (hf : (reg.checkFieldReferences type.fields).hasErrors = false)
    (h : (reg.checkFielded type).hasErrors = false) : reg.FieldedWellFormed type.implements type.fields := by
  obtain ⟨hd, hd'⟩ := distinct_of_fielded h
  rw [checkNamedReferences, hasErrors_flatMap] at hi
  rw [checkFieldReferences, hasErrors_flatMap] at hf
  simp only [append_clean] at hf
  simp only [checkFielded, append_clean] at h
  have hfi : ∀ f ∈ type.fields, reg.HasKind TypeKind.isOutput f.type.name ∧
      reg.InputsWellFormed f.arguments := by
    intro f hm
    obtain ⟨repeated, hc⟩ := clean_of_mem h.1.2 hm
    simp only [append_clean] at hc
    exact ⟨hasKind_of_clean (hf f hm).1 hc.1.1.2, inputs_of_clean (hf f hm).2 hc.2⟩
  exact {
    nonempty := nonempty_of_clean h.1.1
    distinct := hd
    kinds := fun f hm => (hfi f hm).1
    arguments := fun f hm => (hfi f hm).2
    interfaces_distinct := hd'
    interfaces := fun e hm => by
      obtain ⟨repeated, hc⟩ := clean_of_mem h.2 hm
      exact interface_of_clean (hi e hm) hc }

/-- **A type whose references and rules are fine is well formed.** -/
theorem body_of_clean (hr : (reg.checkTypeReferences type).hasErrors = false)
    (h : (reg.checkBody type).hasErrors = false) : type.body.WellFormed reg := by
  have hd := distinct_of_checkBody h
  have hf : (reg.checkNamedReferences type.implements).hasErrors = false →
      (reg.checkFieldReferences type.fields).hasErrors = false →
      (reg.checkFielded type).hasErrors = false →
      reg.FieldedWellFormed type.implements type.fields := fielded_of_clean
  obtain ⟨name, desc, dirs, body, loc⟩ := type
  cases body with
  | scalar => trivial
  | object impls fields | interface impls fields =>
    simp only [checkTypeReferences, append_clean] at hr
    exact hf hr.1 hr.2 h
  | union members =>
    simp only [checkTypeReferences, checkNamedReferences, hasErrors_flatMap] at hr
    simp only [checkBody, append_clean] at h
    refine ⟨nonempty_of_clean h.1, hd.refs, fun member hm => ?_⟩
    obtain ⟨repeated, hc⟩ := clean_of_mem h.2 hm
    cases repeated with
    | true => simp [checkMember] at hc
    | false => exact kind_of_clean (hr member hm) hc
  | enum vals =>
    simp only [checkBody, append_clean] at h
    exact ⟨nonempty_of_clean h.1, hd.values⟩
  | inputObject fields =>
    simp only [checkBody, append_clean] at h
    exact ⟨nonempty_of_clean h.1, inputs_of_clean hr h.2⟩

theorem InputsWellFormed.freeze (h : reg.InputsWellFormed inputs) :
    reg.freeze.InputsWellFormed inputs := ⟨h.distinct, h.kinds⟩

theorem FieldedWellFormed.freeze {impls : List NamedRef} {fs : List FieldDefinition}
    (h : reg.FieldedWellFormed impls fs) : reg.freeze.FieldedWellFormed impls fs where
  nonempty := h.nonempty
  distinct := h.distinct
  kinds := h.kinds
  arguments := fun f hf => (h.arguments f hf).freeze
  interfaces_distinct := h.interfaces_distinct
  interfaces := h.interfaces

theorem WellFormed.freeze (h : reg.WellFormed) : reg.freeze.WellFormed where
  types := by
    intro type ht
    have hb := h.types type ht
    revert hb
    cases type.body with
    | scalar => exact fun _ => trivial
    | object | interface => exact .freeze
    | union | enum => exact fun hb => hb
    | inputObject => exact fun hb => ⟨hb.1, hb.2.freeze⟩
  directives := fun directive hd => (h.directives directive hd).freeze
  roots := h.roots

def DirectivesPlaced (documents : List Document) : Prop :=
  ∀ directive ∈ documents.flatMap Document.directives, directive.location.isBuiltin = false

variable {docs : List Document}

theorem Declares.initial_inputs (hd : Declares docs)
    (h : dir ∈ builtinDirectives) : (Registry.build docs).1.InputsWellFormed dir.arguments := by
  have hb : ∀ dir ∈ builtinDirectives, (dir.arguments.map InputValueDefinition.name).Nodup ∧
        ∀ input ∈ dir.arguments, input.type.name ∈ builtinScalars := by decide
  refine ⟨(hb dir h).1, fun input hi => ⟨.scalar, ?_, rfl⟩⟩
  obtain ⟨type, ht, hg⟩ := hd.grown_builtin ((hb dir h).2 input hi)
  rw [kind?, ht, Option.map_some, hg.kind]
  rfl

theorem Declares.directive_or_builtin (hd : Declares docs) {directive : DirectiveDefinition}
    (h : directive ∈ (Registry.build docs).1.directives.values) :
    directive ∈ docs.flatMap Document.directives ∨ directive ∈ builtinDirectives := by
  obtain ⟨types, hu⟩ := hd.build
  rw [hu] at h
  obtain ⟨⟨name, directive⟩, he, rfl⟩ := mem_map.mp h
  have hl : (declaredDirectives docs).find? name = some directive :=
    NameMap.find?_of_mem (sorted_addAll _ named_initial.directives_sorted) he
  rw [declaredDirectives, find?_addAll hd.directives_nodup, Option.or_eq_some_iff] at hl
  rcases hl with hl | ⟨-, hl⟩
  · exact Or.inl (mem_of_find?_eq_some hl)
  · obtain ⟨builtin, hb, hq⟩ := mem_map.mp (NameMap.mem_of_find? hl)
    exact Or.inr ((Prod.mk.inj hq).2 ▸ hb)

theorem Declares.user_or_builtin (hd : Declares docs) (hp : DirectivesPlaced docs)
    (h : dir ∈ (Registry.build docs).1.directives.values) :
    dir ∈ (Registry.build docs).1.userDirectives ∨ dir ∈ builtinDirectives :=
  (hd.directive_or_builtin h).imp_left fun he =>
    mem_filter.mpr ⟨h, by rw [hp dir he]; rfl⟩

theorem roots_build (hb : (build docs).2.hasErrors = false) (hv : (build docs).1.validate.hasErrors = false) :
    ∀ root ∈ (build docs).1.roots, (build docs).1.kind? root.2.name = some .object := by
  have hr := (build_clean.mp hb).2
  simp only [checkReferences, append_clean, hasErrors_flatMap, checkNamedReferences, forall_mem_map] at hr
  simp only [validate, append_clean, hasErrors_flatMap] at hv
  exact fun root ho => kind_of_clean (hr.2 root ho) (hv.1.2 root ho)

theorem wellFormed_build (htyp : Placed docs) (hdirs : DirectivesPlaced docs) (hb : (build docs).2.hasErrors = false)
    (hv : (build docs).1.validate.hasErrors = false) : (build docs).1.WellFormed := by
  have hro := roots_build hb hv
  obtain ⟨hd, hre⟩ := build_clean.mp hb
  simp only [checkReferences, append_clean, hasErrors_flatMap] at hre
  simp only [validate, append_clean, hasErrors_flatMap] at hv
  obtain ⟨⟨htr, hdr⟩, -⟩ := hre
  obtain ⟨⟨⟨ht, hdir⟩, -⟩, -⟩ := hv
  refine ⟨fun type hty => ?_, fun dir hdi => ?_, hro⟩
  · obtain ⟨name, hn⟩ := (mem_values (named_build docs)).mp hty
    rcases hd.user_or_scalar hn htyp with hu | hs
    · have hr := ht type hu
      simp only [checkType, append_clean] at hr
      exact body_of_clean (htr type hty) hr.2
    · rw [hs]
      trivial
  · rcases hd.user_or_builtin hdirs hdi with hu | hbu
    · have hr := hdir dir hu
      simp only [checkDirectiveDefinition, append_clean] at hr
      exact inputs_of_clean (hdr dir hdi) hr.2
    · exact hd.initial_inputs hbu

end Registry

end GraphClient
