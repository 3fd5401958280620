import GraphClient.Decimal.Binary64

/-!
# Decimal text of doubles

Numbers are written positionally, never with an exponent. A number with a fraction gets the fewest
digits that read back, a whole number all of its digits and one zero behind the point.
-/

namespace GraphClient

namespace Binary64

/-- The power of ten just above `mantissa / 2 ^ places`. -/
def decimalPoint (mantissa places : Nat) : Int :=
  (digitCount (mantissa * tenTo 340 / twoTo places) : Int) - 340

/-- The digits on the grid `10 ^ grid` that read back as `mantissa / 2 ^ places`: of the two
neighbours on the grid the one that does, of two the nearer, of two as near the larger. -/
def onGrid (mantissa places : Nat) (grid : Int) : Option Nat :=
  -- Both sides of each comparison are multiplied by `4 · 2 ^ places` and the negative power of ten.
  let up := 4 * twoTo places * tenTo grid.toNat
  let down := tenTo (-grid).toNat
  let value := 4 * mantissa * down
  let atBoundary := mantissa == twoTo 52 && (places : Int) != -minExponent
  let low := (4 * mantissa - if atBoundary then 1 else 2) * down
  let high := (4 * mantissa + 2) * down
  let below := value / up
  let above := below + 1
  let closed := mantissa % 2 == 0
  let belowReads := low < below * up || (closed && low == below * up)
  let aboveReads := above * up < high || (closed && high == above * up)
  if belowReads && aboveReads then
    some (if above * up - value ≤ value - below * up then above else below)
  else if belowReads then some below
  else if aboveReads then some above
  else none

/-- The fewest digits that read back as `mantissa / 2 ^ places`, with the power of ten of the last
digit. -/
def shortestDigits (mantissa places : Nat) : Nat × Int :=
  let point := decimalPoint mantissa places
  let candidates := (List.range 17).filterMap fun n =>
    let grid := point - (n + 1 : Nat)
    (onGrid mantissa places grid).map fun digits =>
      if digits % 10 == 0 then (digits / 10, grid + 1) else (digits, grid)
  candidates.headD (0, 0)

/-- `digits · 10 ^ last`, with a place behind the point at least. -/
def withPoint (digits : Nat) (last : Int) : String :=
  let places := max 1 (-last).toNat
  let text := Nat.toDigits 10 (digits * tenTo (last + places).toNat)
  let padded := List.replicate (places + 1 - text.length) '0' ++ text
  let cut := padded.length - places
  String.ofList (padded.take cut ++ '.' :: padded.drop cut)

def magnitudeText (mantissa : Nat) : Int → String
  | .ofNat e => withPoint (mantissa * twoTo e) 0
  | .negSucc e =>
    if mantissa % twoTo (e + 1) == 0 then withPoint (mantissa / twoTo (e + 1)) 0
    else
      let shortest := shortestDigits mantissa (e + 1)
      withPoint shortest.1 shortest.2

/-- **The written form.** -/
def text : Binary64 → String
  | .finite negative mantissa exponent =>
    (if negative then "-" else "") ++ magnitudeText mantissa exponent
  | .infinite negative => (if negative then "-" else "") ++ "inf"

end Binary64

end GraphClient
