import GraphClient.Proofs.Relocate
import GraphClient.Proofs.Schema.Input

/-!
# Checks of values elsewhere

What is found about a schema depends neither on the places of its definitions nor on the descriptions of its
arguments and input fields.

* **`Registry.Revised.checkValue`**: a value is checked in the same way, with the locations moved.
-/

namespace GraphClient

open List TypeDefinition Findings

/-! ## Revisions -/

/-- New places, and new descriptions of arguments and input fields. -/
structure Revision where
  move : Location → Location
  describe : Option String → Option String

section Definitions

variable (rev : Revision)

def InputValueDefinition.revise (input : InputValueDefinition) : InputValueDefinition :=
  { input.relocate rev.move with description := rev.describe input.description }

def FieldDefinition.revise (field : FieldDefinition) : FieldDefinition :=
  { field.relocate rev.move with arguments := field.arguments.map (.revise rev) }

def TypeBody.revise : TypeBody → TypeBody
  | .object implements fields =>
    .object (implements.map (.relocate rev.move)) (fields.map (.revise rev))
  | .interface implements fields =>
    .interface (implements.map (.relocate rev.move)) (fields.map (.revise rev))
  | .inputObject fields => .inputObject (fields.map (.revise rev))
  | body => body.relocate rev.move

def TypeDefinition.revise (type : TypeDefinition) : TypeDefinition :=
  { type.outline rev.move with body := type.body.revise rev }

def DirectiveDefinition.revise (directive : DirectiveDefinition) : DirectiveDefinition :=
  { directive.relocate rev.move with arguments := directive.arguments.map (.revise rev) }

theorem InputValueDefinition.find?_revise (inputs : List InputValueDefinition) (name : String) :
    find? (inputs.map (revise rev)) name =
      (find? inputs name).map (revise rev) := by
  rw [find?, find?_map]
  rfl

namespace TypeDefinition

variable (type : TypeDefinition)

@[simp] theorem kind_revise : (type.revise rev).kind = type.kind := by
  rw [kind, kind, revise]
  cases type.body <;> rfl

theorem fields_revise : (type.revise rev).fields = type.fields.map (.revise rev) := by
  rw [fields, fields, revise]
  cases type.body <;> rfl

theorem implements_revise : (type.revise rev).implements = type.implements.map (.relocate rev.move) := by
  rw [implements, implements, revise]
  cases type.body <;> rfl

@[simp] theorem lists_revise (iface : String) : (type.revise rev).lists iface = type.lists iface := by
  rw [lists, lists, implements_revise, any_map]
  rfl

theorem field?_revise (name : String) :
    (type.revise rev).field? name = (type.field? name).map (.revise rev) := by
  rw [field?, fields_revise, find?_map]
  rfl

end TypeDefinition

end Definitions

namespace Registry

/-- **A registry with revised definitions.** Its schema block is its own. -/
structure Revised (rev : Revision) (registry revised : Registry) : Prop where
  types : revised.types = registry.types.map fun entry => (entry.1, entry.2.revise rev)
  directives : revised.directives = registry.directives.map fun entry => (entry.1, entry.2.revise rev)
  roots : revised.roots = registry.roots.map fun root => (root.1, root.2.relocate rev.move)

theorem revised_outline (move : Location → Location) (reg : Registry) : Revised ⟨move, id⟩ reg (reg.outline move) := by
  refine ⟨?_, rfl, rfl⟩
  refine map_congr_left fun e _ => ?_
  obtain ⟨key, name, desc, dirs, body, loc⟩ := e
  cases body <;> rfl

namespace Revised

variable {rev : Revision} {reg revised : Registry} (h : Revised rev reg revised)

include h

theorem type?_eq (name : String) : revised.type? name = (reg.type? name).map (revise rev) := by
  rw [type?, h.types, NameMap.find?_map]
  rfl

theorem kind?_eq (name : String) : revised.kind? name = reg.kind? name := by
  rw [kind?, h.type?_eq, Option.map_map]
  congr 1
  funext type
  exact type.kind_revise rev

theorem contains_eq (name : String) : revised.types.contains name = reg.types.contains name := by
  rw [NameMap.contains, h.types, NameMap.find?_map, Option.isSome_map, NameMap.contains]

theorem directive?_eq (name : String) :
    revised.directive? name = (reg.directive? name).map (.revise rev) := by
  rw [directive?, h.directives, NameMap.find?_map]
  rfl

theorem field?_eq (type f : String) : revised.field? type f = (reg.field? type f).map (.revise rev) := by
  rw [field?, field?, h.type?_eq]
  cases reg.type? type with
  | none => rfl
  | some defn => exact defn.field?_revise rev f

theorem possibleTypes_eq (name : String) : revised.possibleTypes name = reg.possibleTypes name := by
  have hv : revised.types.values = reg.types.values.map (revise rev) := by
    rw [h.types, NameMap.values, NameMap.values, map_map, map_map]
    rfl
  rw [possibleTypes, possibleTypes, h.type?_eq]
  cases reg.type? name with
  | none => rfl
  | some type =>
    obtain ⟨own, desc, dirs, body, loc⟩ := type
    cases body with
    | interface impls fields =>
      simp only [Option.map_some, revise, TypeBody.revise, hv, filter_map, map_map]
      congr 1
      refine filter_congr fun other _ => ?_
      rw [Function.comp_apply, kind_revise, lists_revise]
    | union members =>
      simp only [Option.map_some, revise, TypeBody.revise, TypeBody.relocate, h.kind?_eq, map_map]
      rfl
    | _ => rfl

theorem inputObject?_eq (name : String) : revised.inputObject? name = (reg.inputObject? name).map fun e =>
      (e.1, e.2.map (.revise rev)) := by
  rw [inputObject?, inputObject?, h.type?_eq]
  cases reg.type? name with
  | none => rfl
  | some type =>
    obtain ⟨own, desc, dirs, body, loc⟩ := type
    cases body <;> rfl

end Revised

/-! ## Outlines -/

section Outlines

variable (move : Location → Location) (reg : Registry)

theorem type?_outline (name : String) :
    (reg.outline move).type? name = (reg.type? name).map (.outline move) :=
  NameMap.find?_map _ _ _

@[simp] theorem kind?_outline (name : String) : (reg.outline move).kind? name = reg.kind? name :=
  (reg.revised_outline move).kind?_eq name

theorem field?_outline (type f : String) : (reg.outline move).field? type f =
      (reg.field? type f).map (.relocate move) :=
  (reg.revised_outline move).field?_eq type f

@[simp] theorem hasSchema_outline : (reg.outline move).hasSchema = reg.hasSchema := by
  simp only [hasSchema, outline, Option.isSome_map, isEmpty_map]

@[simp] theorem rootType_outline (kind : OperationKind) : (reg.outline move).rootType kind = reg.rootType kind := by
  rw [rootType, rootType, hasSchema_outline, type?_outline]
  congr 1
  · rw [declaredRoot?, declaredRoot?, outline, List.find?_map, Option.map_map, Option.map_map, Option.map_map]
    rfl
  · rw [Option.map_map]
    rfl

@[simp] theorem possibleTypes_outline (name : String) :
    (reg.outline move).possibleTypes name = reg.possibleTypes name :=
  (reg.revised_outline move).possibleTypes_eq name

@[simp] theorem isPossibleType_outline (name obj : String) :
    (reg.outline move).isPossibleType name obj = reg.isPossibleType name obj := by
  rw [isPossibleType, isPossibleType, possibleTypes_outline]

end Outlines

end Registry

/-! ## Findings -/

@[simp] theorem Diagnostics.hasErrors_relocate {move : Location → Location} (ds : Diagnostics) :
    hasErrors (ds.map (.relocate move)) = ds.hasErrors := by
  rw [hasErrors, hasErrors, any_map]
  rfl

namespace Findings

variable (move : Location → Location)

@[simp] theorem relocate_append (a b : Findings) : (a ++ b).relocate move = a.relocate move ++ b.relocate move := by
  change mk _ _ = mk _ _
  rw [diagnostics_append, uses_append, map_append, map_append]
  rfl

theorem relocate_all {α : Type} (check : α → Findings) (es : List α) : (Findings.all check es).relocate move =
      Findings.all (fun e => (check e).relocate move) es := by
  induction es with
  | nil => rfl
  | cons e rest ih => rw [all, all, relocate_append, ih]

theorem all_map {α β : Type} (f : α → β) (check : β → Findings) (es : List α) :
    Findings.all check (es.map f) = Findings.all (fun e => check (f e)) es := by
  induction es with
  | nil => rfl
  | cons e rest ih => rw [map_cons, all, all, ih]

theorem all_congr {α : Type} {check check' : α → Findings} {es : List α}
    (h : ∀ e ∈ es, check e = check' e) : Findings.all check es = Findings.all check' es := by
  induction es with
  | nil => rfl
  | cons e rest ih =>
    rw [all, all, h e mem_cons_self, ih fun other ho => h other (mem_cons_of_mem _ ho)]

end Findings

/-! ## Checks -/

theorem missingFields_revise (rev : Revision) (owner : String) (inputs : List InputValueDefinition)
    (given : List String) (loc : Location) :
    missingFields owner (inputs.map (InputValueDefinition.revise rev)) given (rev.move loc) =
      (missingFields owner inputs given loc).relocate rev.move := by
  rw [missingFields, missingFields, relocate_all, filter_map, Findings.all_map]
  rfl

section Repeats

variable (move : Location → Location)

theorem markRepeats_argument (args : List Argument) : markRepeats Argument.name (args.map (.relocate move)) =
      (markRepeats Argument.name args).map fun marked => (marked.1.relocate move, marked.2) :=
  markRepeats_map (fun _ => rfl) args

theorem markRepeats_directive (uses : List DirectiveUse) :
    markRepeats DirectiveUse.name (uses.map (.relocate move)) =
      (markRepeats DirectiveUse.name uses).map fun marked => (marked.1.relocate move, marked.2) :=
  markRepeats_map (fun _ => rfl) uses

end Repeats

namespace Registry

variable {rev : Revision} {reg revised : Registry}

theorem Revised.checkNamed (h : Revised rev reg revised) (v : Value) (want : TypeRef)
    (loc : Location) : GraphClient.checkNamed revised v want (rev.move loc) =
      (GraphClient.checkNamed reg v want loc).relocate rev.move := by
  rw [GraphClient.checkNamed, GraphClient.checkNamed, h.type?_eq]
  cases reg.type? want.name with
  | none => rfl
  | some type =>
    obtain ⟨name, desc, dirs, body, place⟩ := type
    cases body with
    | scalar =>
      dsimp only [Option.map_some, TypeDefinition.revise, TypeDefinition.outline, TypeBody.revise, TypeBody.relocate]
      split <;> rfl
    | enum vs =>
      dsimp only [Option.map_some, TypeDefinition.revise, TypeBody.revise, TypeBody.relocate]
      cases v with
      | enum given =>
        dsimp only
        rw [any_map, apply_ite (Findings.relocate rev.move)]
        rfl
      | _ => rfl
    | _ => rfl

theorem Revised.checkValue (h : Revised rev reg revised) (value : Value) (exp : TypeRef)
    (hasDefault : Bool) (loc : Location) : GraphClient.checkValue revised value exp hasDefault (rev.move loc) =
      (GraphClient.checkValue reg value exp hasDefault loc).relocate rev.move := by
  induction value generalizing exp hasDefault loc with
  | «variable» _ => rw [GraphClient.checkValue, GraphClient.checkValue]; rfl
  | null =>
    rw [GraphClient.checkValue, GraphClient.checkValue]
    split <;> rfl
  | list items ih =>
    rw [GraphClient.checkValue, GraphClient.checkValue]
    split
    · rw [checkItems_eq, checkItems_eq, relocate_all]
      refine Findings.all_congr fun item hi => ?_
      rw [checkItem, checkItem, apply_ite (Findings.relocate rev.move), ih item hi]
      rfl
    · exact h.checkNamed _ exp loc
  | object fields ih =>
    rw [GraphClient.checkValue, GraphClient.checkValue, h.inputObject?_eq]
    cases reg.inputObject? exp.name with
    | none => exact h.checkNamed _ exp.innermost loc
    | some e =>
      dsimp only [Option.map_some]
      rw [relocate_append, missingFields_revise, checkFields_eq, checkFields_eq, relocate_all]
      congr 1
      refine Findings.all_congr fun marked hf => ?_
      obtain ⟨field, repeated⟩ := marked
      cases repeated with
      | true => rfl
      | false =>
        change checkField revised _ _ _ field = (checkField reg _ _ _ field).relocate rev.move
        rw [checkField, checkField, InputValueDefinition.find?_revise]
        cases InputValueDefinition.find? e.2 field.1 with
        | none => rfl
        | some input => exact ih field (fst_mem_of_mem_markRepeats hf) input.type _ loc
  | int _ | float _ | string _ | boolean _ | enum _ => exact h.checkNamed _ exp.innermost loc

/-! ## Arguments and directives -/

namespace Revised

variable (h : Revised rev reg revised)

include h

theorem checkArgument (owner : String) (defns : List InputValueDefinition) (arg : Argument) :
    GraphClient.checkArgument revised owner (defns.map (.revise rev)) (arg.relocate rev.move) =
      (GraphClient.checkArgument reg owner defns arg).relocate rev.move := by
  have hf : InputValueDefinition.find? (defns.map (.revise rev))
      (arg.relocate rev.move).name =
      (InputValueDefinition.find? defns arg.name).map (.revise rev) :=
    InputValueDefinition.find?_revise rev _ _
  rw [GraphClient.checkArgument, GraphClient.checkArgument, hf]
  cases InputValueDefinition.find? defns arg.name with
  | none => rfl
  | some input => exact h.checkValue _ input.type _ arg.location

theorem checkArguments (owner : String) (defns : List InputValueDefinition) (args : List Argument)
    (loc : Location) : GraphClient.checkArguments revised owner (defns.map (InputValueDefinition.revise rev))
        (args.map (Argument.relocate rev.move)) (rev.move loc) =
      (GraphClient.checkArguments reg owner defns args loc).relocate rev.move := by
  rw [GraphClient.checkArguments, GraphClient.checkArguments, relocate_append, relocate_all,
    relocate_all, markRepeats_argument, Findings.all_map]
  congr 1
  · refine Findings.all_congr fun marked _ => ?_
    obtain ⟨arg, repeated⟩ := marked
    cases repeated with
    | true => rfl
    | false => exact h.checkArgument owner defns arg
  · rw [filter_map, Findings.all_map, map_map]
    rfl

theorem checkUse (place : DirectiveLocation) (use : DirectiveUse) (repeated : Bool) :
    GraphClient.checkUse revised place (use.relocate rev.move) repeated =
      (GraphClient.checkUse reg place use repeated).relocate rev.move := by
  have hf : revised.directive? (use.relocate rev.move).name =
      (reg.directive? use.name).map (.revise rev) := h.directive?_eq _
  rw [GraphClient.checkUse, GraphClient.checkUse, hf]
  cases reg.directive? use.name with
  | none => rfl
  | some dir =>
    dsimp only [Option.map_some]
    rw [relocate_append, relocate_append]
    congr 1
    · rw [apply_ite (Findings.relocate rev.move), apply_ite (Findings.relocate rev.move)]
      rfl
    · exact h.checkArguments _ dir.arguments use.arguments use.location

theorem checkDirectives (place : DirectiveLocation) (uses : List DirectiveUse) :
    GraphClient.checkDirectives revised place (uses.map (DirectiveUse.relocate rev.move)) =
      (GraphClient.checkDirectives reg place uses).relocate rev.move := by
  rw [GraphClient.checkDirectives, GraphClient.checkDirectives, relocate_all, markRepeats_directive, Findings.all_map]
  exact all_congr fun marked _ => h.checkUse place marked.1 marked.2

end Revised

end Registry

end GraphClient
