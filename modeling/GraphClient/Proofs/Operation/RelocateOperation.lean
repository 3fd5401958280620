import GraphClient.Proofs.Operation.Relocate
import GraphClient.Proofs.Operation.Shape
import GraphClient.Proofs.Schema.DirectiveOrder

/-!
# Operations elsewhere

* **`Registry.resultShape_relocate`**: shapes do not depend on locations.
* **`Scope.bindOperation_relocate`**: operations are bound in the same way, and without errors at the
  same time.
-/

namespace GraphClient

open List BoundSelection Registry

section Shapes

variable (move : Location → Location)

/-! ## Collected fields -/

def Collected.relocate (entry : Collected) : Collected where
  isConditional := entry.isConditional
  field := entry.field.relocate move
  selections := relocateAll move entry.selections

def FieldGroup.relocate (group : FieldGroup) : FieldGroup where
  first := group.first.relocate move
  others := group.others.map (.relocate move)

def Conflict.relocate (conflict : Conflict) : Conflict :=
  ⟨conflict.first.relocate move, conflict.other.relocate move⟩

mutual

theorem BoundSelection.depth_relocate : (sel : BoundSelection) → (sel.relocate move).depth = sel.depth
  | .field _ sels => congrArg (· + 1) (depthOf_relocate sels)
  | .fragment _ sels => depthOf_relocate sels

theorem BoundSelection.depthOf_relocate : (sels : List BoundSelection) → depthOf (relocateAll move sels) = depthOf sels
  | [] => rfl
  | sel :: rest => by
    rw [relocateAll, depthOf, depthOf, depth_relocate sel, depthOf_relocate rest]

end

namespace Registry

variable (reg : Registry)

theorem applies_outline (cond : Option String) (obj : String) :
    (reg.outline move).applies cond obj = reg.applies cond obj := by
  cases cond with
  | none => rfl
  | some name => rw [applies, applies, isPossibleType_outline]

mutual

theorem collectOne_relocate (obj : String) (isCond : Bool) : (sel : BoundSelection) →
    (reg.outline move).collectOne obj isCond (sel.relocate move) =
      (reg.collectOne obj isCond sel).map (.relocate move)
  | .field f sels => by
    simp only [relocate, collectOne, map_cons, map_nil, BoundField.isConditional,
      BoundField.relocate, DirectiveUse.isConditional_relocate]
    rfl
  | .fragment use sels => by
    simp only [relocate, collectOne]
    rw [applies_outline, FragmentUse.isConditional, FragmentUse.isConditional]
    dsimp only [FragmentUse.relocate]
    rw [DirectiveUse.isConditional_relocate, apply_ite (List.map (Collected.relocate move)),
      collectFrom_relocate obj (isCond || DirectiveUse.isConditional use.directives) sels]
    rfl

theorem collectFrom_relocate (obj : String) (isCond : Bool) : (sels : List BoundSelection) →
    (reg.outline move).collectFrom obj isCond (relocateAll move sels) =
      (reg.collectFrom obj isCond sels).map (.relocate move)
  | [] => rfl
  | sel :: rest => by
    rw [relocateAll, collectFrom, collectFrom, collectOne_relocate obj isCond sel, collectFrom_relocate obj isCond rest,
      map_append]

end

theorem collect_relocate (obj : String) (sels : List BoundSelection) :
    (reg.outline move).collect obj (relocateAll move sels) = (reg.collect obj sels).map (.relocate move) :=
  reg.collectFrom_relocate move obj false sels

end Registry

/-! ## Groups -/

namespace FieldGroup

variable (group : FieldGroup)

theorem entries_relocate : (group.relocate move).entries = group.entries.map (.relocate move) := rfl

theorem put_relocate (e : Collected) (gs : List FieldGroup) :
    put (e.relocate move) (gs.map (relocate move)) = (put e gs).map (relocate move) := by
  simp only [put, List.find?_map, filter_map, Option.map_map]
  refine congrArg₂ List.cons ?_ rfl
  refine congrArg (FieldGroup.mk (e.relocate move)) ?_
  change ((gs.find? fun group => key group == e.field.responseKey).map (entries ∘ relocate move)).getD [] = _
  cases gs.find? fun group => key group == e.field.responseKey <;> rfl

theorem ofList_relocate (fs : List Collected) :
    ofList (fs.map (.relocate move)) = (ofList fs).map (relocate move) := by
  induction fs with
  | nil => rfl
  | cons e rest ih =>
    change put (e.relocate move) (ofList (rest.map (.relocate move))) =
      (put e (ofList rest)).map (relocate move)
    rw [ih, put_relocate]

theorem type_relocate : (group.relocate move).type = group.type := by
  have h : (group.relocate move).isConditional = group.isConditional := by
    rw [isConditional, entries_relocate, all_map]
    rfl
  rw [type, h]
  rfl

theorem selections_relocate : (group.relocate move).selections = relocateAll move group.selections := by
  rw [selections, selections, entries_relocate, flatMap_map, relocateAll_eq_map, map_flatMap]
  congr 1
  funext e
  exact relocateAll_eq_map move e.selections

end FieldGroup

/-! ## Shapes -/

namespace Registry

variable (reg : Registry)

theorem variantTypes_outline (type : String) : (reg.outline move).variantTypes type = reg.variantTypes type := by
  rw [variantTypes, variantTypes, kind?_outline, possibleTypes_outline]

theorem shapeWithin_relocate (fuel : Nat) (type : String) (sels : List BoundSelection) :
    (reg.outline move).shapeWithin fuel type (relocateAll move sels) = reg.shapeWithin fuel type sels := by
  induction fuel generalizing type sels with
  | zero => rfl
  | succ fuel ih =>
    have he : ∀ group : FieldGroup,
        (relocateAll move group.selections).isEmpty = group.selections.isEmpty := by
      intro group
      rw [relocateAll_eq_map, isEmpty_map]
    have hk : ∀ obj, (reg.outline move).shapeKeys ((reg.outline move).shapeWithin fuel) obj
        (relocateAll move sels) =
          reg.shapeKeys (reg.shapeWithin fuel) obj sels := by
      intro obj
      rw [shapeKeys, shapeKeys, collect_relocate, FieldGroup.ofList_relocate, map_map]
      refine map_congr_left fun group _ => ?_
      simp only [Function.comp_apply, shapeKey, FieldGroup.type_relocate, FieldGroup.selections_relocate, he, ih]
      rfl
    simp only [shapeWithin_succ, shapeLevel, variantTypes_outline, hk]

theorem resultShape_relocate (type : String) (sels : List BoundSelection) :
    (reg.outline move).resultShape type (relocateAll move sels) = reg.resultShape type sels := by
  rw [resultShape, resultShape, depthOf_relocate, shapeWithin_relocate]

/-! ## Conflicts -/

theorem canMerge_relocate (a b : BoundField) : canMerge (a.relocate move) (b.relocate move) = canMerge a b := by
  have ha : ∀ args : List Argument, (args.map (Argument.relocate move)).map (fun arg => (arg.name, arg.value)) =
        args.map fun arg => (arg.name, arg.value) := by
    intro args
    rw [map_map]
    rfl
  simp only [canMerge, sameArguments, BoundField.relocate, ha]

theorem conflictsAmong_relocate (fs : List Collected) : conflictsAmong (fs.map (Collected.relocate move)) =
      (conflictsAmong fs).map (Conflict.relocate move) := by
  rw [conflictsAmong, conflictsAmong, filterMap_map, map_filterMap]
  refine filterMap_congr fun e _ => ?_
  have hf : (fs.map (Collected.relocate move)).find? (fun first =>
      first.field.responseKey == (e.relocate move).field.responseKey) =
      (fs.find? fun first => first.field.responseKey == e.field.responseKey).map
        (Collected.relocate move) := List.find?_map
  simp only [Function.comp_apply, hf]
  cases fs.find? fun first => first.field.responseKey == e.field.responseKey with
  | none => rfl
  | some first =>
    dsimp only [Option.map_some]
    rw [show (first.relocate move).field = first.field.relocate move from rfl,
      show (e.relocate move).field = e.field.relocate move from rfl, canMerge_relocate,
      apply_ite (Option.map (Conflict.relocate move))]
    rfl

theorem conflictsWithin_relocate (fuel : Nat) (type : String) (sels : List BoundSelection) :
    (reg.outline move).conflictsWithin fuel type (relocateAll move sels) =
      (reg.conflictsWithin fuel type sels).map (.relocate move) := by
  induction fuel generalizing type sels with
  | zero => rfl
  | succ fuel ih =>
    simp only [conflictsWithin, variantTypes_outline, collect_relocate, conflictsAmong_relocate,
      FieldGroup.ofList_relocate, flatMap_map, FieldGroup.selections_relocate, ih]
    split <;> simp only [map_append, map_flatMap] <;> rfl

theorem conflicts_eq_nil {type : String} {sels : List BoundSelection} : reg.conflicts type sels = [] ↔
      reg.conflictsWithin (depthOf sels + 1) type sels = [] := by
  rw [conflicts]
  cases reg.conflictsWithin (depthOf sels + 1) type sels with
  | nil => simp
  | cons conflict rest => simp [eraseDupsBy_cons]

theorem conflicts_relocate (type : String) (sels : List BoundSelection) :
    ((reg.outline move).conflicts type (relocateAll move sels)).hasErrors = (reg.conflicts type sels).hasErrors := by
  have hc : ∀ (reg : Registry) (sels : List BoundSelection), (reg.conflicts type sels).hasErrors = false ↔
        reg.conflictsWithin (depthOf sels + 1) type sels = [] := by
    intro reg sels
    rw [← conflicts_eq_nil]
    exact ⟨(reg.conflicts_fatal type sels).eq_nil, fun h => h ▸ rfl⟩
  rw [Bool.eq_iff_iff, ← not_iff_not, Bool.not_eq_true, Bool.not_eq_true, hc, hc,
    depthOf_relocate, conflictsWithin_relocate, map_eq_nil_iff]

end Registry

end Shapes

/-! ## Operations -/

section Operations

variable {move : Location → Location}

theorem firsts_map {α β : Type} {label : β → String} {name : α → String} {f : α → β}
    (h : ∀ e, label (f e) = name e) (es : List α) : firsts label (es.map f) = (firsts name es).map f := by
  rw [firsts, firsts, markRepeats_map h, filterMap_map, map_filterMap]
  refine filterMap_congr fun marked _ => ?_
  obtain ⟨e, repeated⟩ := marked
  cases repeated <;> rfl

variable (defns : List VariableDefinition)

theorem boundVariables_relocate : boundVariables (defns.map (.relocate move)) =
      (boundVariables defns).map (.relocate move) := by
  have h : ∀ defn : VariableDefinition,
      VariableDefinition.name (defn.relocate move) = defn.name := fun _ => rfl
  rw [boundVariables, boundVariables, firsts_map h, map_map, map_map]
  rfl

theorem useDiagnostics_relocate (params : List BoundVariable) (use : VariableUse) :
    useDiagnostics (params.map (BoundVariable.relocate move)) (use.relocate move) =
      (useDiagnostics params use).map (Diagnostic.relocate move) := by
  have hf : (params.map (BoundVariable.relocate move)).find? (fun defn =>
      defn.name == (use.relocate move).name) =
      (params.find? fun defn => defn.name == use.name).map (BoundVariable.relocate move) :=
    List.find?_map
  simp only [useDiagnostics, hf]
  cases params.find? fun defn => defn.name == use.name with
  | none => rfl
  | some defn =>
    rw [apply_ite (List.map (Diagnostic.relocate move))]
    rfl

namespace Scope

variable (scope : Scope)

theorem variableTypeDiagnostics_relocate (defn : VariableDefinition) :
    (scope.relocate move).variableTypeDiagnostics (defn.relocate move) =
      (scope.variableTypeDiagnostics defn).map (.relocate move) := by
  have hk : (scope.relocate move).registry.kind? (defn.relocate move).type.name =
      scope.registry.kind? defn.type.name := kind?_outline move _ _
  have hd : (defn.relocate move).defaultValue = defn.defaultValue := rfl
  rw [variableTypeDiagnostics, variableTypeDiagnostics, hk]
  cases scope.registry.kind? defn.type.name with
  | none => rfl
  | some kind =>
    rw [apply_ite (List.map (Diagnostic.relocate move))]
    refine ite_congr rfl (fun _ => ?_) fun _ => rfl
    rw [hd]
    cases defn.defaultValue with
    | none => rfl
    | some v =>
      exact congrArg Findings.diagnostics
        ((scope.registry.revised_outline move).checkValue v defn.type false defn.location)

theorem variableDiagnostics_relocate :
    (scope.relocate move).variableDiagnostics (defns.map (.relocate move)) =
      (scope.variableDiagnostics defns).map (.relocate move) := by
  have h : ∀ defn : VariableDefinition,
      VariableDefinition.name (defn.relocate move) = defn.name := fun _ => rfl
  rw [variableDiagnostics, variableDiagnostics, markRepeats_map h, flatMap_map, map_flatMap]
  congr 1
  funext marked
  obtain ⟨defn, repeated⟩ := marked
  cases repeated with
  | true => rfl
  | false =>
    have hd := congrArg Findings.diagnostics
      ((scope.registry.revised_outline move).checkDirectives .variableDefinition defn.directives)
    simp only [Bool.false_eq_true, if_false, map_append, variableTypeDiagnostics_relocate]
    exact congrArg (· ++ _) hd

variable (hmove : move .builtin = .builtin)

include hmove

variable (defn : OperationDefinition)

theorem operationNotes_relocate (root : String) : (scope.relocate move).operationNotes (defn.relocate move) root =
      (scope.operationNotes defn root).relocate move := by
  rw [operationNotes, operationNotes, Notes.relocate_append, OperationDefinition.relocate,
    scope.directiveNotes_relocate move, scope.bindSet_relocate hmove]

theorem operationResult_relocate (name root : String) :
    (scope.relocate move).operationResult (defn.relocate move) name root =
      (scope.operationResult defn name root).relocate move := by
  rw [operationResult, scope.operationNotes_relocate hmove]
  simp only [OperationDefinition.relocate, scope.bindSet_relocate hmove, boundVariables_relocate,
    registry_relocate, resultShape_relocate]
  rfl

theorem bindOperation_relocate : ((scope.relocate move).bindOperation (defn.relocate move)).1 =
        (scope.bindOperation defn).1.map (.relocate move) ∧
      ((scope.relocate move).bindOperation (defn.relocate move)).2.hasErrors =
        (scope.bindOperation defn).2.hasErrors := by
  have hr : (scope.relocate move).registry.rootType (defn.relocate move).kind =
      scope.registry.rootType defn.kind := rootType_outline move scope.registry _
  cases hn : defn.name with
  | none => simp [bindOperation, OperationDefinition.relocate, hn]
  | some name =>
    have hn' : (defn.relocate move).name = some name := hn
    cases ht : scope.registry.rootType defn.kind with
    | none =>
      simp only [bindOperation, hn, hn', ht, hr]
      exact ⟨rfl, rfl⟩
    | some root =>
      rw [ht] at hr
      have hu : ((scope.operationNotes defn root).uses.map (.relocate move)).flatMap
          (useDiagnostics ((boundVariables defn.parameters).map (.relocate move))) =
          ((scope.operationNotes defn root).uses.flatMap
            (useDiagnostics (boundVariables defn.parameters))).map (.relocate move) := by
        rw [flatMap_map, map_flatMap]
        simp only [useDiagnostics_relocate]
      rw [bindOperation_eq hn ht, bindOperation_eq hn' hr]
      refine ⟨congrArg some (scope.operationResult_relocate hmove defn name root), ?_⟩
      rw [scope.operationNotes_relocate hmove]
      simp [OperationDefinition.relocate, boundVariables_relocate, scope.variableDiagnostics_relocate,
        hasErrors_unusedVariables, Notes.relocate, hu, scope.bindSet_relocate hmove, conflicts_relocate]

end Scope

end Operations

/-! ## Request documents -/

namespace Printer

variable (move : Location → Location)

mutual

theorem selection_relocate (depth : Nat) : (e : BoundSelection) → selection depth (e.relocate move) = selection depth e
  | .field field [] => by
    simp only [relocate, relocateAll, selection, BoundField.relocate, arguments_relocate, directives_relocate]
  | .field field (first :: rest) => by
    simp only [relocate, relocateAll, selection, BoundField.relocate,
      arguments_relocate, directives_relocate, selection_relocate (depth + 1) first,
      selectionLines_relocate (depth + 1) rest]
  | .fragment use sels => by
    simp only [relocate, selection, FragmentUse.relocate, directives_relocate, selectionLines_relocate (depth + 1) sels]

theorem selectionLines_relocate (depth : Nat) : (es : List BoundSelection) →
    selectionLines depth (relocateAll move es) = selectionLines depth es
  | [] => rfl
  | first :: rest => by
    rw [relocateAll, selectionLines, selectionLines, selection_relocate depth first, selectionLines_relocate depth rest]

end

theorem operation_relocate (e : BoundOperation) : operation (e.relocate move) = operation e := by
  simp only [operation, BoundOperation.relocate, directives_relocate, selectionSet, selectionLines_relocate, map_map]
  rfl

theorem fragment_relocate (e : BoundFragment) : fragment (e.relocate move) = fragment e := by
  simp only [fragment, BoundFragment.relocate, directives_relocate, selectionSet, selectionLines_relocate]

end Printer

theorem BoundOperation.document_relocate (move : Location → Location) (op : BoundOperation)
    (frags : NameMap BoundFragment) : (op.relocate move).document (frags.map fun e => (e.1, e.2.relocate move)) =
      op.document frags := by
  rw [document, Printer.operation_relocate]
  congr 2
  simp only [map_filterMap]
  refine filterMap_congr fun name _ => ?_
  rw [NameMap.find?_map, Option.map_map]
  congr 1
  funext frag
  exact Printer.fragment_relocate move frag

end GraphClient
