import GraphClient.Client.Names
import GraphClient.Operation.Bound
import GraphClient.Text.Case

/-!
# Response types

The shape of a response becomes a list of named types. The type of a nested field is named after the
type that it belongs to and its key, a variant after its union and its object type; a name that is in use
gets a number.
-/

namespace GraphClient

/-- A response field with the name of its type. -/
structure FieldPlan where
  field : ShapeField
  nested : Option String
  /-- Whether the union around the type has the field too. -/
  isInherited : Bool := false

def FieldPlan.isDiscriminator (plan : FieldPlan) : Bool :=
  plan.field.key == typename && plan.field.name == typename

/-- A response type of its own. -/
structure ObjectPlan where
  name : String
  objectType : Option String := none
  parent : Option String := none
  fields : List FieldPlan

/-- The fields that a variant does not get from its tag. -/
def ObjectPlan.ownFields (plan : ObjectPlan) : List FieldPlan :=
  if plan.objectType.isSome then plan.fields.filter fun field => !field.isDiscriminator
  else plan.fields

/-- Response types that are told apart. -/
structure UnionPlan where
  name : String
  common : List FieldPlan
  variants : List (String × String)

/-- What is declared for a shape. -/
inductive ShapePlan
  | object (plan : ObjectPlan)
  | union (plan : UnionPlan)

def ShapePlan.name : ShapePlan → String
  | .object plan => plan.name
  | .union plan => plan.name

/-- Plans a field of `owner`, whose type takes a name if it has a shape. -/
def planField (owner : String) (field : ShapeField) (taken : TakenNames) :
    FieldPlan × TakenNames :=
  match field.shape with
  | none => (⟨field, none, false⟩, taken)
  | some _ =>
    let (name, taken) := taken.claim (owner ++ Text.pascalCase field.key)
    (⟨field, some name, false⟩, taken)

def planFields (owner : String) : List ShapeField → TakenNames → List FieldPlan × TakenNames
  | [], taken => ([], taken)
  | field :: rest, taken =>
    let (plan, taken) := planField owner field taken
    let (plans, taken) := planFields owner rest taken
    (plan :: plans, taken)

/-- Plans the fields of a variant. A field of the union is planned there already. -/
def planVariantFields (owner : String) (common : List FieldPlan) :
    List ShapeField → TakenNames → List FieldPlan × TakenNames
  | [], taken => ([], taken)
  | field :: rest, taken =>
    let (plan, taken) :=
      match common.find? fun shared => shared.field.same field with
      | some shared => (⟨field, shared.nested, true⟩, taken)
      | none => planField owner field taken
    let (plans, taken) := planVariantFields owner common rest taken
    (plan :: plans, taken)

def claimVariants (name : String) :
    List ShapeVariant → TakenNames → List (String × String) × TakenNames
  | [], taken => ([], taken)
  | variant :: rest, taken =>
    let (plan, taken) := taken.claim (name ++ variant.type)
    let (plans, taken) := claimVariants name rest taken
    ((variant.type, plan) :: plans, taken)

mutual

/-- Plans a shape as the type `name`, with the types inside named after `owner`. -/
def planShape (name owner : String) : ResultShape → TakenNames → List ShapePlan × TakenNames
  | ⟨_, fields, variants⟩, taken =>
    let (common, taken) := planFields owner fields taken
    if variants.isEmpty then
      let (inner, taken) := planNested fields common taken
      (.object { name, fields := common } :: inner, taken)
    else
      let (names, taken) := claimVariants name variants taken
      let (inner, taken) := planNested fields common taken
      let (more, taken) := planVariants name common names variants taken
      (.union { name, common, variants := names } :: inner ++ more, taken)

def planNested : List ShapeField → List FieldPlan → TakenNames → List ShapePlan × TakenNames
  | ⟨_, _, _, shape⟩ :: fields, plan :: plans, taken =>
    let (first, taken) := planOptional (if plan.isInherited then none else plan.nested) shape taken
    let (rest, taken) := planNested fields plans taken
    (first ++ rest, taken)
  | _, _, taken => ([], taken)

def planOptional : Option String → Option ResultShape → TakenNames → List ShapePlan × TakenNames
  | some name, some shape, taken => planShape name name shape taken
  | _, _, taken => ([], taken)

def planVariants (parent : String) (common : List FieldPlan) :
    List (String × String) → List ShapeVariant → TakenNames → List ShapePlan × TakenNames
  | (type, name) :: names, ⟨_, fields⟩ :: rest, taken =>
    let (plans, taken) := planVariantFields name common fields taken
    let (inner, taken) := planNested fields plans taken
    let (more, taken) := planVariants parent common names rest taken
    (.object { name, objectType := some type, parent := some parent, fields := plans } ::
      inner ++ more, taken)
  | _, _, taken => ([], taken)

end

/-- **The response types of an operation**: the name of the root and all types, root first. -/
def planOperation (operation : String) (shape : ResultShape) (taken : TakenNames) :
    (String × List ShapePlan) × TakenNames :=
  let (root, taken) := taken.claim (operation ++ "Result")
  let (plans, taken) := planShape root operation shape taken
  ((root, plans), taken)

end GraphClient
