/-!
# Double-precision numbers

A finite double is a signed multiple of a power of two. Decimal literals are rounded to the nearest
double in exact arithmetic, a half to the even neighbour.
-/

namespace GraphClient

/-- A double: `± mantissa · 2 ^ exponent`, or an infinity. -/
inductive Binary64
  | finite (negative : Bool) (mantissa : Nat) (exponent : Int)
  | infinite (negative : Bool)
deriving DecidableEq

namespace Binary64

def twoTo (exponent : Nat) : Nat := Nat.pow 2 exponent

def tenTo (exponent : Nat) : Nat := Nat.pow 10 exponent

def minExponent : Int := -1074

def maxExponent : Int := 971

def zero (negative : Bool) : Binary64 := .finite negative 0 minExponent

def roundDiv (num den : Nat) : Nat :=
  let q := num / den
  let r := num % den
  if den < 2 * r || (2 * r == den && q % 2 == 1) then q + 1 else q

/-- Numerator and denominator of `num / den / 2 ^ exponent`. -/
def scaleDown (num den : Nat) (exponent : Int) : Nat × Nat :=
  match exponent with
  | .ofNat e => (num, den * twoTo e)
  | .negSucc e => (num * twoTo (e + 1), den)

def ofRatio (negative : Bool) (num den : Nat) : Binary64 :=
  let guess := max ((num.log2 : Int) - (den.log2 : Int) - 53) minExponent
  let (n, d) := scaleDown num den guess
  let exponent := if twoTo 53 ≤ n / d then guess + 1 else guess
  let (n, d) := scaleDown num den exponent
  let mantissa := roundDiv n d
  let (mantissa, exponent) :=
    if mantissa == twoTo 53 then (twoTo 52, exponent + 1) else (mantissa, exponent)
  if maxExponent < exponent then .infinite negative else .finite negative mantissa exponent

def digitCount (n : Nat) : Nat := (Nat.toDigits 10 n).length

/-- **The double nearest to `± digits · 10 ^ exponent`.** Numbers far outside the range are settled
by their order of magnitude. -/
def ofDecimal (negative : Bool) (digits : Nat) (exponent : Int) : Binary64 :=
  let magnitude := (digitCount digits : Int) + exponent
  if digits = 0 then zero negative
  else if 310 < magnitude then .infinite negative
  else if magnitude < -330 then zero negative
  else match exponent with
    | .ofNat e => ofRatio negative (digits * tenTo e) 1
    | .negSucc e => ofRatio negative digits (tenTo (e + 1))

def digitsValue (digits : List Char) : Nat :=
  digits.foldl (fun value c => value * 10 + (c.toNat - 48)) 0

def signedValue : List Char → Int
  | '-' :: digits => -(digitsValue digits : Int)
  | '+' :: digits => digitsValue digits
  | digits => digitsValue digits

/-- **The number next to a literal.** -/
def ofLiteral (text : List Char) : Binary64 :=
  let (negative, text) := match text with
    | '-' :: rest => (true, rest)
    | _ => (false, text)
  let whole := text.takeWhile Char.isDigit
  let text := text.dropWhile Char.isDigit
  let (fraction, text) := match text with
    | '.' :: rest => (rest.takeWhile Char.isDigit, rest.dropWhile Char.isDigit)
    | _ => ([], text)
  let exponent := match text with
    | _ :: rest => signedValue rest
    | [] => 0
  ofDecimal negative (digitsValue (whole ++ fraction)) (exponent - (fraction.length : Int))

/-- The sixty-four bits of the interchange encoding, as a number. -/
def bits : Binary64 → Nat
  | .finite negative mantissa exponent =>
    let sign := if negative then twoTo 63 else 0
    if mantissa < twoTo 52 then sign + mantissa
    else sign + (exponent + 1075).toNat * twoTo 52 + (mantissa - twoTo 52)
  | .infinite negative => (if negative then twoTo 63 else 0) + 2047 * twoTo 52

/-- Numeric equality: the two zeros are equal. -/
def same : Binary64 → Binary64 → Bool
  | .finite _ 0 _, .finite _ 0 _ => true
  | a, b => a == b

end Binary64

end GraphClient
