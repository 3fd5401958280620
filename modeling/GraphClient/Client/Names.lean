/-!
# Names of generated declarations
-/

namespace GraphClient

/-- Names that are in use. -/
abbrev TakenNames := List String

namespace TakenNames

def reserve? (taken : TakenNames) (name : String) : Option TakenNames :=
  if taken.contains name then none else some (name :: taken)

def numbered (base : String) (n : Nat) : String := base ++ toString n

/-- The first free name of `base` with a number from `n` on, trying `tries` numbers. -/
def firstFree (taken : TakenNames) (base : String) : (tries n : Nat) → String
  | 0, n => numbered base n
  | tries + 1, n =>
    if taken.contains (numbered base n) then firstFree taken base tries (n + 1) else numbered base n

/-- `base` if it is free, else with the smallest number from two on that makes it free. Of one more
number than there are names in use, one is free. -/
def fresh (taken : TakenNames) (base : String) : String :=
  if taken.contains base then taken.firstFree base taken.length 2 else base

def claim (taken : TakenNames) (base : String) : String × TakenNames :=
  let name := taken.fresh base
  (name, name :: taken)

end TakenNames

end GraphClient
