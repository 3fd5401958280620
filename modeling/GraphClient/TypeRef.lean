/-!
# Type references

A reference names a type and says, level by level, whether null is allowed. The outermost level has
a flag of its own; the list `elements` has one flag for the elements of each list, outermost list
first, so the depth and the flags cannot disagree.
-/

namespace GraphClient

/-- A reference to a type. -/
structure TypeRef where
  name : String
  isNonNull : Bool := false
  elements : List Bool := []
deriving DecidableEq

namespace TypeRef

def named (name : String) : TypeRef := ⟨name, false, []⟩

def list (inner : TypeRef) : TypeRef := ⟨inner.name, false, inner.isNonNull :: inner.elements⟩

def nonNull (type : TypeRef) : TypeRef := { type with isNonNull := true }

def nullable (type : TypeRef) : TypeRef := { type with isNonNull := false }

def depth (type : TypeRef) : Nat := type.elements.length

def isList (type : TypeRef) : Bool := !type.elements.isEmpty

def element (type : TypeRef) : Option TypeRef :=
  match type.elements with
  | [] => none
  | first :: rest => some ⟨type.name, first, rest⟩

def innermost (type : TypeRef) : TypeRef :=
  ⟨type.name, type.elements.getLastD type.isNonNull, []⟩

def mark (isNonNull : Bool) : String := if isNonNull then "!" else ""

/-- The written form of lists of lists, from the inside out. -/
def wrapped (name : String) : List Bool → String
  | [] => name
  | first :: rest => "[" ++ wrapped name rest ++ mark first ++ "]"

def text (type : TypeRef) : String := wrapped type.name type.elements ++ mark type.isNonNull

/-- Whether null is excluded wherever it is excluded on the right. -/
def refines : List Bool → List Bool → Bool
  | [], [] => true
  | a :: as, e :: es => (a || !e) && refines as es
  | _, _ => false

/-- **Whether a field of type `actual` can implement one of type `expected`.** Name and depth agree,
and `actual` may exclude null at more levels. -/
def isCovariant (actual expected : TypeRef) : Bool :=
  actual.name == expected.name &&
    refines (actual.isNonNull :: actual.elements) (expected.isNonNull :: expected.elements)

theorem depth_of_element {type inner : TypeRef} (h : type.element = some inner) :
    type.depth = inner.depth + 1 := by
  rw [element] at h
  split at h
  · cases h
  · next first rest hl =>
    cases h
    simp [depth, hl]

/-- Whether every value of type `given` fits where `expected` is expected, defaults apart. -/
def fits (given expected : TypeRef) : Bool :=
  if expected.isNonNull then given.isNonNull && fits given.nullable expected.nullable
  else if given.isNonNull then fits given.nullable expected
  else
    match _ : given.element, expected.element with
    | some inner, some expected => fits inner expected
    | none, none => given.name == expected.name
    | _, _ => false
termination_by 3 * given.depth + given.isNonNull.toNat + expected.isNonNull.toNat
decreasing_by
  · rename_i h
    simp only [nullable, depth, h, Bool.toNat_false, Bool.toNat_true]
    omega
  · rename_i h
    simp only [nullable, depth, h, Bool.toNat_false, Bool.toNat_true]
    omega
  · rename_i he
    have := Bool.toNat_le inner.isNonNull
    have := Bool.toNat_le expected.isNonNull
    have hd := depth_of_element he
    omega

/-- **Whether a variable of type `type` can be used where `expected` is expected.** A variable that
may be null fits a position that may not when one of the two has a default. -/
def allowsUse (type : TypeRef) (hasDefault : Bool) (expected : TypeRef)
    (positionHasDefault : Bool) : Bool :=
  if expected.isNonNull && !type.isNonNull then
    (hasDefault || positionHasDefault) && type.fits expected.nullable
  else
    type.fits expected

end TypeRef

end GraphClient
