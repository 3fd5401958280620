import GraphClient.Document
import GraphClient.Operation.Bound

/-!
# What bound operations stand for

A bound operation holds all that was written, except for the directives of variables, and the type names
that binding adds. So it stands for a definition that can be bound again.
-/

namespace GraphClient

def Selection.children : Selection → List Selection
  | .field _ selections => selections
  | .spread _ => []
  | .inline _ _ selections _ => selections

mutual

def BoundSelection.unbind : BoundSelection → Selection
  | .field head selections =>
    .field ⟨head.label, head.name, head.arguments, head.directives, head.location⟩
      (unbindAll selections)
  | .fragment use selections =>
    match use.fragment with
    | some name => .spread ⟨name, use.directives, use.location⟩
    | none =>
      .inline (use.condition.map fun name => ⟨name, use.location⟩) use.directives
        (unbindAll selections) use.location

def BoundSelection.unbindAll : List BoundSelection → List Selection
  | [] => []
  | selection :: rest => unbind selection :: unbindAll rest

end

theorem BoundSelection.unbindAll_eq (sels : List BoundSelection) : unbindAll sels = sels.map unbind := by
  induction sels with
  | nil => rfl
  | cons sel rest ih => rw [unbindAll, ih, List.map_cons]

def BoundVariable.unbind (entry : BoundVariable) : VariableDefinition :=
  ⟨entry.name, entry.type, entry.defaultValue, [], entry.location⟩

def BoundFragment.unbind (fragment : BoundFragment) : FragmentDefinition :=
  ⟨fragment.name, ⟨fragment.condition, fragment.location⟩, fragment.directives,
    BoundSelection.unbindAll fragment.selections, fragment.location⟩

namespace BoundOperation

def unbind (operation : BoundOperation) : OperationDefinition :=
  ⟨operation.kind, some operation.name, operation.parameters.map BoundVariable.unbind,
    operation.directives, BoundSelection.unbindAll operation.selections, operation.location⟩

/-- The fragments that an operation uses, by name. -/
def usedFragments (operation : BoundOperation) (fragments : NameMap BoundFragment) : List BoundFragment :=
  operation.fragments.filterMap fragments.find?

/-- **The document that an operation and its fragments stand for.** -/
def requestDocument (operation : BoundOperation) (fragments : NameMap BoundFragment) (source : Nat) :
    Document where
  source := source
  schemas := []
  types := []
  extensions := []
  directives := []
  operations := [operation.unbind]
  fragments := (operation.usedFragments fragments).map BoundFragment.unbind

end BoundOperation

end GraphClient
