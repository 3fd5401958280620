import GraphClient.Decimal.Text
import GraphClient.Text.Quoted

/-!
# Values

Literals and variables without their places.
-/

namespace GraphClient

/-- A literal or a variable. -/
inductive Value
  | variable (name : String)
  | int (value : Int)
  | float (value : Binary64)
  | string (value : String)
  | boolean (value : Bool)
  | null
  | enum (name : String)
  | list (items : List Value)
  | object (fields : List (String × Value))

namespace Value

def isNull : Value → Bool
  | .null => true
  | _ => false

mutual

def text : Value → String
  | .variable name => "$" ++ name
  | .int value => toString value
  | .float value => value.text
  | .string value => Text.quote value
  | .boolean true => "true"
  | .boolean false => "false"
  | .null => "null"
  | .enum name => name
  | .list items => "[" ++ String.intercalate ", " (itemTexts items) ++ "]"
  | .object fields => "\x7b" ++ String.intercalate ", " (fieldTexts fields) ++ "\x7d"

def itemTexts : List Value → List String
  | [] => []
  | item :: items => text item :: itemTexts items

def fieldTexts : List (String × Value) → List String
  | [] => []
  | (name, value) :: fields => (name ++ ": " ++ text value) :: fieldTexts fields

end

mutual

/-- Whether two values are equal. The two zeros of floating point count as equal. -/
def same : Value → Value → Bool
  | .variable a, .variable b => a == b
  | .int a, .int b => a == b
  | .float a, .float b => a.same b
  | .string a, .string b => a == b
  | .boolean a, .boolean b => a == b
  | .null, .null => true
  | .enum a, .enum b => a == b
  | .list as, .list bs => sameItems as bs
  | .object as, .object bs => sameFields as bs
  | _, _ => false

def sameItems : List Value → List Value → Bool
  | [], [] => true
  | a :: as, b :: bs => same a b && sameItems as bs
  | _, _ => false

def sameFields : List (String × Value) → List (String × Value) → Bool
  | [], [] => true
  | (a, v) :: as, (b, w) :: bs => a == b && same v w && sameFields as bs
  | _, _ => false

end

end Value

end GraphClient
