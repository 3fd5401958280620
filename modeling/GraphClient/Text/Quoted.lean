import GraphClient.Text.CharClass

/-!
# Quoted strings

The one-line string literals of GraphQL.
-/

namespace GraphClient.Text

/-- An escape that stands for nothing. -/
inductive BadEscape
  | code (digits : List Char)
  | letter (c : Char)
  | alone
deriving DecidableEq

def BadEscape.text : BadEscape → String
  | .code digits => "\\u" ++ String.ofList digits
  | .letter c => String.ofList ['\\', c]
  | .alone => "\\"

def hexDigit? (c : Char) : Option Nat :=
  if '0' ≤ c && c ≤ '9' then some (c.toNat - 48)
  else if 'a' ≤ c && c ≤ 'f' then some (c.toNat - 87)
  else if 'A' ≤ c && c ≤ 'F' then some (c.toNat - 55)
  else none

def hexValue? (digits : List Char) : Option Nat :=
  digits.foldl (fun value c => do return (← value) * 16 + (← hexDigit? c)) (some 0)

/-- The character with the given number; surrogates have none. -/
def scalar? (n : Nat) : Option Char :=
  if 0xd800 ≤ n && n ≤ 0xdfff || 0x10ffff < n then none else some (Char.ofNat n)

/-- The character of a four-place code. A plus sign may stand for the first digit. -/
def codeChar? (a b c d : Char) : Option Char :=
  (if a = '+' then hexValue? [b, c, d] else hexValue? [a, b, c, d]).bind scalar?

def letterChar? : Char → Option Char
  | '"' => some '"'
  | '\\' => some '\\'
  | '/' => some '/'
  | 'b' => some '\x08'
  | 'f' => some '\x0c'
  | 'n' => some '\n'
  | 'r' => some '\r'
  | 't' => some '\t'
  | _ => none

def decode : List Char → Except BadEscape (List Char)
  | [] => .ok []
  | '\\' :: 'u' :: a :: b :: c :: d :: rest =>
    match codeChar? a b c d with
    | some ch => (decode rest).map (ch :: ·)
    | none => .error (.code [a, b, c, d])
  | '\\' :: 'u' :: rest => .error (.code rest)
  | '\\' :: c :: rest =>
    match letterChar? c with
    | some ch => (decode rest).map (ch :: ·)
    | none => .error (.letter c)
  | ['\\'] => .error .alone
  | c :: rest => (decode rest).map (c :: ·)

/-- The text between the quotes of a literal; a text without both quotes is its own body. -/
def quotedBody (raw : List Char) : List Char :=
  match raw with
  | '"' :: rest => if rest.getLast? = some '"' then rest.dropLast else raw
  | _ => raw

/-- **The value of a string literal**, quotes included in the input. -/
def stringValue (raw : String) : Except BadEscape String :=
  (decode (quotedBody raw.toList)).map String.ofList

def upperHex (n : Nat) : Char :=
  if n < 10 then Char.ofNat (48 + n) else Char.ofNat (55 + n)

def lowerHex (n : Nat) : Char :=
  if n < 10 then Char.ofNat (48 + n) else Char.ofNat (87 + n)

/-- A code escape with the digits that `digit` gives. -/
def codeEscape (digit : Nat → Char) (c : Char) : List Char :=
  let n := c.toNat
  ['\\', 'u', digit (n / 4096 % 16), digit (n / 256 % 16), digit (n / 16 % 16), digit (n % 16)]

def encodeChar (c : Char) : List Char :=
  match c with
  | '"' => ['\\', '"']
  | '\\' => ['\\', '\\']
  | '\n' => ['\\', 'n']
  | '\r' => ['\\', 'r']
  | '\t' => ['\\', 't']
  | c => if isControl c then codeEscape upperHex c else [c]

def encode (cs : List Char) : List Char := cs.flatMap encodeChar

def quote (text : String) : String :=
  String.ofList ('"' :: encode text.toList ++ ['"'])

end GraphClient.Text
