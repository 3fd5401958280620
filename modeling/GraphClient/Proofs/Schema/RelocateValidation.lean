import GraphClient.Proofs.Schema.Relocate
import GraphClient.Schema.Build
import GraphClient.Schema.Validation

/-!
# Schema rules elsewhere

* **`Registry.Revised.checkBody`**: so is what a type declares.
-/

namespace GraphClient

open List Diagnostics TypeDefinition

section Reports

variable (move : Location → Location)

def Diagnostics.relocate (ds : Diagnostics) : Diagnostics := ds.map (.relocate move)

namespace Diagnostics

@[simp] theorem relocate_append (as bs : Diagnostics) :
    relocate move (as ++ bs) = as.relocate move ++ bs.relocate move := map_append

theorem relocate_flatMap {α : Type} (f : α → Diagnostics) (xs : List α) :
    relocate move (xs.flatMap f) = xs.flatMap fun x => (f x).relocate move := map_flatMap

theorem relocate_ite {c : Prop} [Decidable c] (as bs : Diagnostics) :
    relocate move (if c then as else bs) = if c then as.relocate move else bs.relocate move :=
  apply_ite (relocate move) c as bs

@[simp] theorem hasErrors_moved (ds : Diagnostics) : (ds.relocate move).hasErrors = ds.hasErrors :=
  hasErrors_relocate ds

end Diagnostics

theorem checkEmpty_relocate (isEmpty : Bool) (name what : String) (loc : Location) :
    checkEmpty isEmpty name what (move loc) = (checkEmpty isEmpty name what loc).relocate move := by
  rw [checkEmpty, checkEmpty, relocate_ite]
  rfl

theorem checkReserved_relocate (name : String) (loc : Location) :
    checkReserved name (move loc) = (checkReserved name loc).relocate move := by
  rw [checkReserved, checkReserved, relocate_ite]
  rfl

theorem checkRepeated_relocate (repeated : Bool) (owner name : String) (loc : Location) :
    checkRepeated repeated owner name (move loc) = (checkRepeated repeated owner name loc).relocate move := by
  rw [checkRepeated, checkRepeated, relocate_ite]
  rfl

end Reports

namespace Registry

variable (type : TypeDefinition) (owner : String)

section References

variable {rev : Revision} {reg revised : Registry} (h : Revised rev reg revised)

include h

namespace Revised

theorem checkReference (name : String) (loc : Location) : revised.checkReference name (rev.move loc) =
      (reg.checkReference name loc).relocate rev.move := by
  rw [Registry.checkReference, Registry.checkReference, h.contains_eq, relocate_ite]
  rfl

variable (inputs : List InputValueDefinition)

theorem checkInputReferences : revised.checkInputReferences (inputs.map (.revise rev)) =
      (reg.checkInputReferences inputs).relocate rev.move := by
  rw [Registry.checkInputReferences, Registry.checkInputReferences, flatMap_map, relocate_flatMap]
  congr 1
  funext input
  exact h.checkReference input.type.name input.location

theorem checkNamedReferences (es : List NamedRef) : revised.checkNamedReferences (es.map (.relocate rev.move)) =
      (reg.checkNamedReferences es).relocate rev.move := by
  rw [Registry.checkNamedReferences, Registry.checkNamedReferences, flatMap_map, relocate_flatMap]
  congr 1
  funext e
  exact h.checkReference e.name e.location

theorem checkFieldReferences (fs : List FieldDefinition) :
    revised.checkFieldReferences (fs.map (.revise rev)) =
      (reg.checkFieldReferences fs).relocate rev.move := by
  rw [Registry.checkFieldReferences, Registry.checkFieldReferences, flatMap_map, relocate_flatMap]
  congr 1
  funext f
  rw [relocate_append, ← h.checkReference, ← h.checkInputReferences]
  rfl

theorem checkTypeReferences :
    revised.checkTypeReferences (type.revise rev) = (reg.checkTypeReferences type).relocate rev.move := by
  obtain ⟨name, desc, dirs, body, loc⟩ := type
  cases body with
  | scalar | enum vs => rfl
  | union members => exact h.checkNamedReferences members
  | inputObject fs => exact h.checkInputReferences fs
  | _ impls fs =>
    simp [Registry.checkTypeReferences, TypeDefinition.revise, TypeBody.revise, h.checkNamedReferences,
      h.checkFieldReferences]

theorem checkReferences : revised.checkReferences = reg.checkReferences.relocate rev.move := by
  have hn : revised.roots.map Prod.snd = (reg.roots.map Prod.snd).map (.relocate rev.move) := by
    rw [h.roots, map_map, map_map]
    rfl
  rw [Registry.checkReferences, Registry.checkReferences, hn, h.checkNamedReferences, h.types, h.directives]
  simp [NameMap.values, flatMap_map, relocate_flatMap, DirectiveDefinition.revise,
    h.checkTypeReferences, h.checkInputReferences]

theorem checkUses (place : DirectiveLocation) (uses : List DirectiveUse) :
    revised.checkUses place (uses.map (.relocate rev.move)) =
      (reg.checkUses place uses).relocate rev.move :=
  congrArg Findings.diagnostics (h.checkDirectives place uses)

theorem checkKind (name : String) (ok : TypeKind → Bool) (want : String) (loc : Location) :
    revised.checkKind name ok want (rev.move loc) = (reg.checkKind name ok want loc).relocate rev.move := by
  rw [Registry.checkKind, Registry.checkKind, h.kind?_eq]
  cases reg.kind? name with
  | none => rfl
  | some found =>
    rw [relocate_ite]
    rfl

theorem checkDefault (input : InputValueDefinition) :
    revised.checkDefault (input.revise rev) = (reg.checkDefault input).relocate rev.move := by
  have hd : (input.revise rev).defaultValue = input.defaultValue := rfl
  rw [Registry.checkDefault, Registry.checkDefault, hd]
  cases input.defaultValue with
  | none => rfl
  | some v => exact congrArg Findings.diagnostics (h.checkValue v input.type false input.location)

theorem isMisplacedInput (input : InputValueDefinition) :
    revised.isMisplacedInput (input.revise rev) = reg.isMisplacedInput input := by
  rw [Registry.isMisplacedInput, h.kind?_eq]
  rfl

theorem checkInputValues (place : DirectiveLocation) :
    revised.checkInputValues owner (inputs.map (.revise rev)) place =
      (reg.checkInputValues owner inputs place).relocate rev.move := by
  have hn : ∀ input : InputValueDefinition, InputValueDefinition.name (input.revise rev) = input.name := fun _ => rfl
  rw [Registry.checkInputValues, Registry.checkInputValues, markRepeats_map hn, flatMap_map, relocate_flatMap]
  congr 1
  funext marked
  dsimp only
  rw [h.isMisplacedInput, h.checkDefault, relocate_append, relocate_append,
    relocate_append, relocate_ite, relocate_append,
    ← checkReserved_relocate, ← checkRepeated_relocate, ← h.checkKind, ← h.checkUses]
  rfl

theorem checkFieldList (fs : List FieldDefinition) :
    revised.checkFieldList owner (fs.map (.revise rev)) =
      (reg.checkFieldList owner fs).relocate rev.move := by
  have hn : ∀ f : FieldDefinition, FieldDefinition.name (f.revise rev) = f.name := fun _ => rfl
  rw [Registry.checkFieldList, Registry.checkFieldList, markRepeats_map hn, flatMap_map, relocate_flatMap]
  congr 1
  funext marked
  rw [relocate_append, relocate_append, relocate_append,
    relocate_append, ← checkReserved_relocate, ← checkRepeated_relocate, ← h.checkKind,
    ← h.checkUses, ← h.checkInputValues]
  rfl

end Revised

end References

section Interfaces

variable (rev : Revision)

theorem argument?_revise (f : FieldDefinition) (name : String) :
    (f.revise rev).argument? name = (f.argument? name).map (.revise rev) :=
  InputValueDefinition.find?_revise rev f.arguments name

variable {problem problem' : String → Diagnostic}

theorem checkExpectedArguments_revise (hp : ∀ reason, problem' reason = (problem reason).relocate rev.move)
    (want actual : FieldDefinition) : checkExpectedArguments problem' (want.revise rev) (actual.revise rev) =
      (checkExpectedArguments problem want actual).relocate rev.move := by
  have ha : (want.revise rev).arguments = want.arguments.map (.revise rev) := rfl
  rw [checkExpectedArguments, checkExpectedArguments, ha, flatMap_map, relocate_flatMap]
  congr 1
  funext arg
  have hf : (actual.revise rev).argument? (arg.revise rev).name =
      (actual.argument? arg.name).map (.revise rev) := argument?_revise rev _ _
  rw [hf]
  cases actual.argument? arg.name with
  | none => exact congrArg (fun d => [d]) (hp _)
  | some found =>
    rw [relocate_ite]
    exact ite_congr rfl (fun _ => rfl) fun _ => congrArg (fun d => [d]) (hp _)

theorem checkAddedArguments_revise (hp : ∀ reason, problem' reason = (problem reason).relocate rev.move)
    (want actual : FieldDefinition) : checkAddedArguments problem' (want.revise rev) (actual.revise rev) =
      (checkAddedArguments problem want actual).relocate rev.move := by
  have ha : (actual.revise rev).arguments = actual.arguments.map (.revise rev) := rfl
  rw [checkAddedArguments, checkAddedArguments, Diagnostics.relocate, map_map]
  simp only [argument?_revise, Option.isNone_map]
  rw [ha, filter_map, map_map]
  refine map_congr_left fun arg _ => ?_
  exact hp _

theorem checkInherited_revise (iface : TypeDefinition) (loc : Location) (want : FieldDefinition) :
    checkInherited (type.revise rev) (iface.revise rev) (rev.move loc) (want.revise rev) =
      (checkInherited type iface loc want).relocate rev.move := by
  rw [checkInherited, checkInherited]
  rw [show (want.revise rev).name = want.name from rfl, field?_revise]
  cases type.field? want.name with
  | none => rfl
  | some actual =>
    rw [relocate_append, relocate_append, relocate_ite,
      ← checkExpectedArguments_revise rev (fun _ => rfl), ← checkAddedArguments_revise rev (fun _ => rfl)]
    rfl

theorem checkConformance_revise (iface : TypeDefinition) (loc : Location) :
    checkConformance (type.revise rev) (iface.revise rev) (rev.move loc) =
      (checkConformance type iface loc).relocate rev.move := by
  rw [checkConformance, checkConformance, fields_revise, implements_revise,
    flatMap_map, relocate_append, relocate_flatMap]
  simp only [checkInherited_revise, lists_revise]
  rw [filter_map, map_map, Diagnostics.relocate, map_map]
  rfl

end Interfaces

namespace Revised

variable {rev : Revision} {reg revised : Registry} (h : Revised rev reg revised)

include h

theorem checkImplemented (e : NamedRef) (repeated : Bool) :
    revised.checkImplemented (type.revise rev) (e.relocate rev.move) repeated =
      (reg.checkImplemented type e repeated).relocate rev.move := by
  cases repeated with
  | true => rfl
  | false =>
    simp only [Registry.checkImplemented, Bool.false_eq_true, if_false]
    rw [show (e.relocate rev.move).name = e.name from rfl, h.type?_eq]
    cases reg.type? e.name with
    | none => rfl
    | some iface =>
      dsimp only [Option.map_some]
      rw [kind_revise]
      cases iface.kind with
      | interface =>
        rw [relocate_ite, ← checkConformance_revise]
        rfl
      | _ => rfl

theorem checkFielded : revised.checkFielded (type.revise rev) = (reg.checkFielded type).relocate rev.move := by
  have hn : ∀ e : NamedRef, NamedRef.name (e.relocate rev.move) = e.name := fun _ => rfl
  rw [Registry.checkFielded, Registry.checkFielded, fields_revise, implements_revise,
    h.checkFieldList, markRepeats_map hn, flatMap_map, relocate_append,
    relocate_append, relocate_flatMap, ← checkEmpty_relocate, isEmpty_map]
  simp only [h.checkImplemented]
  rfl

theorem checkMember (member : NamedRef) (repeated : Bool) :
    revised.checkMember owner (member.relocate rev.move) repeated =
      (reg.checkMember owner member repeated).relocate rev.move := by
  rw [Registry.checkMember, Registry.checkMember, relocate_ite, ← h.checkKind]
  rfl

theorem checkEnumValue (v : EnumValueDefinition) (repeated : Bool) :
    revised.checkEnumValue owner (v.relocate rev.move) repeated =
      (reg.checkEnumValue owner v repeated).relocate rev.move := by
  rw [Registry.checkEnumValue, Registry.checkEnumValue, relocate_append, relocate_append,
    relocate_append, relocate_ite, ← checkReserved_relocate,
    ← checkRepeated_relocate, ← h.checkUses]
  rfl

theorem checkBody : revised.checkBody (type.revise rev) = (reg.checkBody type).relocate rev.move := by
  have hf := h.checkFielded type
  have hm : ∀ e : NamedRef, NamedRef.name (e.relocate rev.move) = e.name := fun _ => rfl
  have hv : ∀ value : EnumValueDefinition,
      EnumValueDefinition.name (value.relocate rev.move) = value.name := fun _ => rfl
  obtain ⟨name, desc, dirs, body, loc⟩ := type
  cases body with
  | scalar => rfl
  | object | interface => exact hf
  | union members =>
    simp [Registry.checkBody, TypeDefinition.revise, TypeBody.revise, TypeDefinition.outline, TypeBody.relocate,
      markRepeats_map hm, flatMap_map, h.checkMember, relocate_flatMap, checkEmpty_relocate]
  | enum vals =>
    simp [Registry.checkBody, TypeDefinition.revise, TypeBody.revise, TypeDefinition.outline, TypeBody.relocate,
      markRepeats_map hv, flatMap_map, h.checkEnumValue, relocate_flatMap, checkEmpty_relocate]
  | inputObject fields =>
    simp [Registry.checkBody, TypeDefinition.revise, TypeBody.revise, TypeDefinition.outline, h.checkInputValues,
      checkEmpty_relocate]

theorem checkDirectiveDefinition (dir : DirectiveDefinition) : revised.checkDirectiveDefinition (dir.revise rev) =
      (reg.checkDirectiveDefinition dir).relocate rev.move := by
  rw [Registry.checkDirectiveDefinition, Registry.checkDirectiveDefinition, relocate_append,
    relocate_append, ← checkReserved_relocate, ← checkEmpty_relocate, ← h.checkInputValues]
  rfl

end Revised

end Registry

end GraphClient
