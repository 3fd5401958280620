import GraphClient.Proofs.Schema.Input
import GraphClient.Schema.Build
import GraphClient.Schema.Validation

/-!
# Reports on a schema

* **`Registry.build_fatal`**, **`Registry.validate_fatal`**: the schema stages report errors and no
  warnings, so a schema without errors has no reports at all.
-/

namespace GraphClient

namespace Registry

variable (inputs : List InputValueDefinition) (type : TypeDefinition)

section Build

theorem attemptAll_fatal {α : Type} (call : α → Action) (reg : Registry) (es : List α) :
    (attemptAll call reg es).2.Fatal := by
  induction es generalizing reg with
  | nil => exact .nil
  | cons e rest ih =>
    rw [attemptAll]
    rcases reg.run (call e) with ⟨result, left⟩
    cases result with
    | ok => exact ih left
    | error problem => exact .append .error (ih left)

theorem applySchema_fatal (reg : Registry) (sch : SchemaDefinition) : (reg.applySchema sch).2.Fatal := by
  rw [applySchema]
  split_ifs
  · exact attemptAll_fatal _ _ _
  · exact .error
  · exact attemptAll_fatal _ _ _

theorem applyEach_fatal (reg : Registry) (schs : List SchemaDefinition) : (reg.applyEach schs).2.Fatal := by
  induction schs generalizing reg with
  | nil => exact .nil
  | cons sch rest ih => exact (applySchema_fatal reg sch).append (ih _)

variable (reg : Registry)

theorem checkReference_fatal (name : String) (loc : Location) : (reg.checkReference name loc).Fatal := .ite .nil .error

theorem checkInputReferences_fatal :
    (reg.checkInputReferences inputs).Fatal := .flatMap fun _ _ => reg.checkReference_fatal _ _

theorem checkNamedReferences_fatal (es : List NamedRef) :
    (reg.checkNamedReferences es).Fatal := .flatMap fun _ _ => reg.checkReference_fatal _ _

theorem checkFieldReferences_fatal (fs : List FieldDefinition) : (reg.checkFieldReferences fs).Fatal :=
  .flatMap fun _ _ => (reg.checkReference_fatal _ _).append (reg.checkInputReferences_fatal _)

theorem checkTypeReferences_fatal : (reg.checkTypeReferences type).Fatal := by
  rw [checkTypeReferences]
  split
  iterate 2 · exact .nil
  iterate 2 · exact (reg.checkNamedReferences_fatal _).append (reg.checkFieldReferences_fatal _)
  · exact reg.checkNamedReferences_fatal _
  · exact reg.checkInputReferences_fatal _

theorem checkReferences_fatal : reg.checkReferences.Fatal :=
  .append (.append (.flatMap fun _ _ => reg.checkTypeReferences_fatal _)
    (.flatMap fun _ _ => reg.checkInputReferences_fatal _)) (reg.checkNamedReferences_fatal _)

theorem build_fatal (docs : List Document) : (build docs).2.Fatal :=
  .append (.append (.append (.append (attemptAll_fatal _ _ _) (attemptAll_fatal _ _ _))
    (applyEach_fatal _ _)) (attemptAll_fatal _ _ _)) (checkReferences_fatal _)

end Build

section Validation

theorem checkEmpty_fatal (isEmpty : Bool) (name what : String) (loc : Location) :
    (checkEmpty isEmpty name what loc).Fatal := .ite .error .nil

theorem checkReserved_fatal (name : String) (loc : Location) : (checkReserved name loc).Fatal := .ite .error .nil

theorem checkRepeated_fatal (repeated : Bool) (owner name : String) (loc : Location) :
    (checkRepeated repeated owner name loc).Fatal := .ite .error .nil

variable (reg : Registry)

theorem checkUses_fatal (place : DirectiveLocation) (uses : List DirectiveUse) :
    (reg.checkUses place uses).Fatal := checkDirectives_fatal reg place uses

theorem checkKind_fatal (name : String) (ok : TypeKind → Bool) (want : String)
    (loc : Location) : (reg.checkKind name ok want loc).Fatal := by
  rw [checkKind]
  split
  · exact .nil
  · exact .ite .nil .error

theorem checkDefault_fatal (input : InputValueDefinition) : (reg.checkDefault input).Fatal := by
  rw [checkDefault]
  split
  · exact .nil
  · exact checkValue_fatal reg _ _ _ _

variable (owner : String)

theorem checkInputValues_fatal (place : DirectiveLocation) : (reg.checkInputValues owner inputs place).Fatal :=
  .flatMap fun _ _ => .append (.append (.append (checkReserved_fatal _ _) (checkRepeated_fatal _ _ _ _))
    (reg.checkKind_fatal _ _ _ _))
    (.ite .nil ((reg.checkUses_fatal _ _).append (reg.checkDefault_fatal _)))

theorem checkFieldList_fatal (fs : List FieldDefinition) : (reg.checkFieldList owner fs).Fatal :=
  .flatMap fun _ _ => .append (.append (.append (.append (checkReserved_fatal _ _)
    (checkRepeated_fatal _ _ _ _)) (reg.checkKind_fatal _ _ _ _)) (reg.checkUses_fatal _ _))
    (reg.checkInputValues_fatal _ _ _)

theorem checkInherited_fatal (iface : TypeDefinition) (loc : Location)
    (want : FieldDefinition) : (checkInherited type iface loc want).Fatal := by
  rw [checkInherited]
  split
  · exact .error
  · refine .append (.append (.ite .nil .error) (.flatMap fun _ _ => ?_)) (.map fun _ => rfl)
    split
    · exact .error
    · exact .ite .nil .error

theorem checkImplemented_fatal (e : NamedRef) (repeated : Bool) : (reg.checkImplemented type e repeated).Fatal := by
  refine .ite .error ?_
  split
  · exact .nil
  · split
    · refine .ite .error (.append (.flatMap fun _ _ => checkInherited_fatal _ _ _ _) (.map fun _ => rfl))
    · exact .error

theorem checkFielded_fatal : (reg.checkFielded type).Fatal :=
  .append (.append (checkEmpty_fatal _ _ _ _) (reg.checkFieldList_fatal _ _))
    (.flatMap fun _ _ => reg.checkImplemented_fatal _ _ _)

theorem checkMember_fatal (member : NamedRef) (repeated : Bool) :
    (reg.checkMember owner member repeated).Fatal := .ite .error (reg.checkKind_fatal _ _ _ _)

theorem checkEnumValue_fatal (v : EnumValueDefinition) (repeated : Bool) :
    (reg.checkEnumValue owner v repeated).Fatal :=
  .append (.append (.append (checkReserved_fatal _ _) (.ite .error .nil)) (checkRepeated_fatal _ _ _ _))
    (reg.checkUses_fatal _ _)

theorem checkBody_fatal : (reg.checkBody type).Fatal := by
  rw [checkBody]
  split
  · exact .nil
  iterate 2 · exact reg.checkFielded_fatal type
  · exact .append (checkEmpty_fatal _ _ _ _) (.flatMap fun _ _ => reg.checkMember_fatal _ _ _)
  · exact .append (checkEmpty_fatal _ _ _ _) (.flatMap fun _ _ => reg.checkEnumValue_fatal _ _ _)
  · exact .append (checkEmpty_fatal _ _ _ _) (reg.checkInputValues_fatal _ _ _)

theorem validate_fatal : reg.validate.Fatal := by
  refine .append (.append (.append (.flatMap fun type _ => ?_) (.flatMap fun dir _ => ?_))
    (.flatMap fun _ _ => reg.checkKind_fatal _ _ _ _)) (reg.checkUses_fatal _ _)
  · exact .append (.append (checkReserved_fatal _ _) (reg.checkUses_fatal _ _))
      (reg.checkBody_fatal type)
  · exact .append (.append (checkReserved_fatal _ _) (checkEmpty_fatal _ _ _ _))
      (reg.checkInputValues_fatal _ _ _)

end Validation

end Registry

end GraphClient
