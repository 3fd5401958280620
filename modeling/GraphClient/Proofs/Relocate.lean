import GraphClient.Operation.Bind

/-!
# Definitions elsewhere

What the stages find does not depend on where definitions are written. To say so, every definition can be
moved: `relocate` replaces all its locations.
-/

namespace GraphClient

open BoundSelection List Function

section Elements

variable (move : Location → Location)

def NamedRef.relocate (entry : NamedRef) : NamedRef := { entry with location := move entry.location }

def Argument.relocate (argument : Argument) : Argument :=
  { argument with location := move argument.location }

def DirectiveUse.relocate (use : DirectiveUse) : DirectiveUse where
  name := use.name
  arguments := use.arguments.map (.relocate move)
  location := move use.location

def InputValueDefinition.relocate (input : InputValueDefinition) : InputValueDefinition :=
  { input with
    directives := input.directives.map (.relocate move)
    location := move input.location }

def FieldDefinition.relocate (field : FieldDefinition) : FieldDefinition :=
  { field with
    arguments := field.arguments.map (.relocate move)
    directives := field.directives.map (.relocate move)
    location := move field.location }

def EnumValueDefinition.relocate (value : EnumValueDefinition) : EnumValueDefinition :=
  { value with
    directives := value.directives.map (.relocate move)
    location := move value.location }

def TypeBody.relocate : TypeBody → TypeBody
  | .scalar => .scalar
  | .object implements fields =>
    .object (implements.map (.relocate move)) (fields.map (.relocate move))
  | .interface implements fields =>
    .interface (implements.map (.relocate move)) (fields.map (.relocate move))
  | .union members => .union (members.map (.relocate move))
  | .enum values => .enum (values.map (.relocate move))
  | .inputObject fields => .inputObject (fields.map (.relocate move))

/-- A type with its locations replaced and without its directives. -/
def TypeDefinition.outline (type : TypeDefinition) : TypeDefinition :=
  { type with
    directives := []
    body := type.body.relocate move
    location := move type.location }

def TypeDefinition.relocate (type : TypeDefinition) : TypeDefinition :=
  { type with
    directives := type.directives.map (.relocate move)
    body := type.body.relocate move
    location := move type.location }

def SchemaDefinition.relocate (schema : SchemaDefinition) : SchemaDefinition :=
  { schema with
    directives := schema.directives.map (.relocate move)
    roots := schema.roots.map fun root => (root.1, root.2.relocate move)
    location := move schema.location }

def DirectiveDefinition.relocate (directive : DirectiveDefinition) : DirectiveDefinition :=
  { directive with
    arguments := directive.arguments.map (.relocate move)
    location := move directive.location }

/-- **What bindings read of a registry**, with its locations replaced. -/
def Registry.outline (registry : Registry) : Registry where
  types := registry.types.map fun entry => (entry.1, entry.2.outline move)
  directives := registry.directives.map fun entry => (entry.1, entry.2.relocate move)
  roots := registry.roots.map fun entry => (entry.1, entry.2.relocate move)
  schemaDirectives := []
  schemaLocation := registry.schemaLocation.map move
  isFrozen := registry.isFrozen

end Elements

section Operations

variable (move : Location → Location)

def FieldHead.relocate (head : FieldHead) : FieldHead :=
  { head with
    arguments := head.arguments.map (.relocate move)
    directives := head.directives.map (.relocate move)
    location := move head.location }

def Spread.relocate (spread : Spread) : Spread :=
  { spread with
    directives := spread.directives.map (.relocate move)
    location := move spread.location }

mutual

def Selection.relocate : Selection → Selection
  | .field head selections => .field (head.relocate move) (relocateAll selections)
  | .spread target => .spread (target.relocate move)
  | .inline condition directives selections location =>
    .inline (condition.map (.relocate move)) (directives.map (.relocate move))
      (relocateAll selections) (move location)

def Selection.relocateAll : List Selection → List Selection
  | [] => []
  | selection :: rest => .relocate selection :: relocateAll rest

end

def VariableDefinition.relocate (definition : VariableDefinition) : VariableDefinition :=
  { definition with
    directives := definition.directives.map (.relocate move)
    location := move definition.location }

def OperationDefinition.relocate (definition : OperationDefinition) : OperationDefinition where
  kind := definition.kind
  name := definition.name
  parameters := definition.parameters.map (.relocate move)
  directives := definition.directives.map (.relocate move)
  selections := Selection.relocateAll move definition.selections
  location := move definition.location

def FragmentDefinition.relocate (fragment : FragmentDefinition) : FragmentDefinition where
  name := fragment.name
  condition := fragment.condition.relocate move
  directives := fragment.directives.map (.relocate move)
  selections := Selection.relocateAll move fragment.selections
  location := move fragment.location

def Document.relocate (document : Document) : Document where
  source := 0
  schemas := document.schemas.map (.relocate move)
  types := document.types.map (.relocate move)
  extensions := document.extensions.map (.relocate move)
  directives := document.directives.map (.relocate move)
  operations := document.operations.map (.relocate move)
  fragments := document.fragments.map (.relocate move)

end Operations

section Bound

variable (move : Location → Location)

def BoundField.relocate (field : BoundField) : BoundField :=
  { field with
    arguments := field.arguments.map (.relocate move)
    directives := field.directives.map (.relocate move)
    location := move field.location }

def FragmentUse.relocate (use : FragmentUse) : FragmentUse :=
  { use with
    directives := use.directives.map (.relocate move)
    location := move use.location }

mutual

def BoundSelection.relocate : BoundSelection → BoundSelection
  | .field head selections => .field (head.relocate move) (relocateAll selections)
  | .fragment use selections => .fragment (use.relocate move) (relocateAll selections)

def BoundSelection.relocateAll : List BoundSelection → List BoundSelection
  | [] => []
  | selection :: rest => .relocate selection :: relocateAll rest

end

def BoundVariable.relocate (parameter : BoundVariable) : BoundVariable :=
  { parameter with location := move parameter.location }

def VariableUse.relocate (use : VariableUse) : VariableUse := { use with location := move use.location }

def BoundFragment.relocate (fragment : BoundFragment) : BoundFragment where
  name := fragment.name
  condition := fragment.condition
  directives := fragment.directives.map (.relocate move)
  selections := relocateAll move fragment.selections
  uses := fragment.uses.map (.relocate move)
  spreads := fragment.spreads
  location := move fragment.location

def BoundOperation.relocate (operation : BoundOperation) : BoundOperation where
  name := operation.name
  kind := operation.kind
  root := operation.root
  parameters := operation.parameters.map (.relocate move)
  directives := operation.directives.map (.relocate move)
  selections := relocateAll move operation.selections
  shape := operation.shape
  fragments := operation.fragments
  location := move operation.location

end Bound

/-- **An operation without locations.** Operations that differ in locations only have the same one. -/
def BoundOperation.bare (operation : BoundOperation) : BoundOperation :=
  operation.relocate fun _ => .builtin

section Reports

variable (move : Location → Location)

def Label.relocate (label : Label) : Label := { label with location := move label.location }

def Diagnostic.relocate (d : Diagnostic) : Diagnostic :=
  { d with labels := d.labels.map (.relocate move) }

/-- Reports of the same text in another source. -/
def Diagnostics.inSource (diagnostics : Diagnostics) (source : Nat) : Diagnostics :=
  diagnostics.map (.relocate fun l => ⟨source, l.span⟩)

def Findings.relocate (findings : Findings) : Findings where
  diagnostics := findings.diagnostics.map (.relocate move)
  uses := findings.uses.map (.relocate move)

def Notes.relocate (notes : Notes) : Notes where
  diagnostics := notes.diagnostics.map (.relocate move)
  uses := notes.uses.map (.relocate move)
  spreads := notes.spreads

def Scope.relocate (scope : Scope) : Scope where
  registry := scope.registry.outline move
  declared := scope.declared.map fun entry => (entry.1, entry.2.relocate move)
  bound := scope.bound.map fun entry => (entry.1, entry.2.relocate move)

end Reports

section Lemmas

variable (move : Location → Location)

theorem Selection.relocateAll_eq_map (sels : List Selection) :
    relocateAll move sels = sels.map (.relocate move) := by
  induction sels with
  | nil => rfl
  | cons sel rest ih => rw [relocateAll, ih, map_cons]

theorem BoundSelection.relocateAll_eq_map (sels : List BoundSelection) :
    relocateAll move sels = sels.map (.relocate move) := by
  induction sels with
  | nil => rfl
  | cons sel rest ih => rw [relocateAll, ih, map_cons]

@[simp] theorem TypeBody.kind_relocate (body : TypeBody) : (body.relocate move).kind = body.kind := by
  cases body <;> rfl

@[simp] theorem TypeDefinition.kind_relocate (type : TypeDefinition) :
    (type.relocate move).kind = type.kind := TypeBody.kind_relocate move type.body

@[simp] theorem FieldDefinition.type_relocate (f : FieldDefinition) : (f.relocate move).type = f.type := rfl

@[simp] theorem FieldDefinition.arguments_relocate (f : FieldDefinition) :
    (f.relocate move).arguments = f.arguments.map (.relocate move) := rfl

@[simp] theorem FragmentDefinition.selections_relocate (frag : FragmentDefinition) :
    (frag.relocate move).selections = Selection.relocateAll move frag.selections := rfl

end Lemmas

section Bare

variable (move : Location → Location) (other : Location → Location)

theorem Argument.relocate_relocate (arg : Argument) :
    (arg.relocate move).relocate other = arg.relocate (other ∘ move) := rfl

theorem DirectiveUse.relocate_relocate (use : DirectiveUse) :
    (use.relocate move).relocate other = use.relocate (other ∘ move) := by
  simp only [relocate, map_map]
  rfl

mutual

theorem BoundSelection.relocate_relocate (other : Location → Location) : (sel : BoundSelection) →
    (sel.relocate move).relocate other = sel.relocate (other ∘ move)
  | .field head sels => by
    simp only [BoundSelection.relocate, BoundField.relocate, map_map, relocateAll_relocateAll other sels]
    simp only [comp_def, Argument.relocate_relocate, DirectiveUse.relocate_relocate]
  | .fragment use sels => by
    simp only [BoundSelection.relocate, FragmentUse.relocate, map_map, relocateAll_relocateAll other sels]
    simp only [comp_def, DirectiveUse.relocate_relocate]

theorem BoundSelection.relocateAll_relocateAll (other : Location → Location) : (sels : List BoundSelection) →
    relocateAll other (relocateAll move sels) =
      relocateAll (other ∘ move) sels
  | [] => rfl
  | sel :: rest => by
    simp only [relocateAll, relocate_relocate other sel, relocateAll_relocateAll other rest]

end

theorem BoundOperation.relocate_relocate (op : BoundOperation) :
    (op.relocate move).relocate other = op.relocate (other ∘ move) := by
  simp only [relocate, map_map, relocateAll_relocateAll]
  simp only [comp_def, DirectiveUse.relocate_relocate]
  rfl

@[simp] theorem BoundOperation.bare_relocate (op : BoundOperation) :
    (op.relocate move).bare = op.bare := op.relocate_relocate move _

end Bare

end GraphClient
