import GraphClient.Text.Lines

/-!
# Globs

A glob is a pattern of relative paths. Stars and question marks stop at slashes, a double star as a
whole component crosses directories. Matching goes byte by byte.
-/

namespace GraphClient

/-- A part of a pattern. -/
inductive GlobToken
  | literal (c : Char)
  | any
  /-- Any bytes other than slashes. -/
  | star
  /-- Directories at the front, or none. -/
  | leading
  | trailing
  /-- A slash, with any directories behind it. -/
  | between
  /-- One byte of the given ranges, or one outside of them. -/
  | oneOf (negated : Bool) (ranges : List (Char × Char))
  | choice (branches : List (List GlobToken))

/-- A pattern. -/
abbrev Glob := List GlobToken

namespace Glob

def isSpecial (c : Char) : Bool := c == '*' || c == '?' || c == '[' || c == '\x7b'

def isPattern (text : String) : Bool := text.toList.any isSpecial

/-- The ranges of a class read so far. -/
structure RangeReader where
  ranges : List (Char × Char) := []
  /-- Whether a dash waits for the end of the last range. -/
  isOpen : Bool := false

namespace RangeReader

/-- Adds a character that is a range of its own, or ends an open one. -/
def add (reader : RangeReader) (c : Char) : Option RangeReader :=
  match reader.isOpen, reader.ranges with
  | true, (first, _) :: rest => if c < first then none else some ⟨(first, c) :: rest, false⟩
  | _, ranges => some ⟨(c, c) :: ranges, false⟩

/-- The ranges in the order of the text. A dash at the end is one of the characters. -/
def finish (reader : RangeReader) : List (Char × Char) :=
  (if reader.isOpen then ('-', '-') :: reader.ranges else reader.ranges).reverse

def read (reader : RangeReader) : List Char → Option (List (Char × Char) × List Char)
  | [] => none
  | ']' :: rest => some (reader.finish, rest)
  | c :: rest =>
    if c == '-' && !reader.isOpen then read { reader with isOpen := true } rest
    else
      match reader.add c with
      | some reader => read reader rest
      | none => none

end RangeReader

/-- The set behind an opening bracket. Its first character may be a bracket or a dash. -/
def readSet (cs : List Char) : Option (GlobToken × List Char) :=
  let (negated, cs) := match cs with
    | '!' :: rest => (true, rest)
    | '^' :: rest => (true, rest)
    | cs => (false, cs)
  match cs with
  | [] => none
  | c :: rest =>
    (RangeReader.read ⟨[(c, c)], false⟩ rest).map fun (ranges, rest) =>
      (.oneOf negated ranges, rest)

/-- The pattern read so far. The lists of parts have the last one first. -/
structure Builder where
  parts : List GlobToken := []
  /-- The open choices, the innermost first: the parts before it and its finished branches. -/
  choices : List (List GlobToken × List (List GlobToken)) := []

namespace Builder

def push (builder : Builder) (token : GlobToken) : Builder :=
  { builder with parts := token :: builder.parts }

def enter (builder : Builder) : Builder := ⟨[], (builder.parts, []) :: builder.choices⟩

/-- Ends a branch; outside of choices a comma is a character. -/
def comma (builder : Builder) : Builder :=
  match builder.choices with
  | [] => builder.push (.literal ',')
  | (outer, branches) :: rest => ⟨[], (outer, builder.parts.reverse :: branches) :: rest⟩

def leave (builder : Builder) : Option Builder :=
  match builder.choices with
  | [] => none
  | (outer, branches) :: rest =>
    some ⟨.choice (builder.parts.reverse :: branches).reverse :: outer, rest⟩

def twoStars (builder : Builder) : Builder := (builder.push .star).push .star

/-- A double star in the place of the slash before it. Behind another one it adds nothing. -/
def cross (builder : Builder) (atEnd : Bool) : Builder :=
  match builder.parts with
  | .leading :: _ => builder
  | .trailing :: _ => builder
  | _ :: rest => { builder with parts := (if atEnd then .trailing else .between) :: rest }
  | [] => builder

/-- Whether a component starts behind a character. Inside a choice a branch is one too. -/
def startsComponent (builder : Builder) : Option Char → Bool
  | some '/' => true
  | some ',' => !builder.choices.isEmpty
  | some '\x7b' => !builder.choices.isEmpty
  | _ => false

/-- A double star between the character before it and the text behind it, and the text that is left.
It crosses directories only if it is a component. -/
def doubleStar (builder : Builder) (previous : Option Char) (cs : List Char) :
    Builder × List Char :=
  if builder.parts.isEmpty then
    match cs with
    | [] => (builder.push .leading, [])
    | '/' :: rest => (builder.push .leading, rest)
    | cs => (builder.twoStars, cs)
  else if builder.startsComponent previous then
    match cs with
    | [] => (builder.cross true, [])
    | '/' :: rest => (builder.cross false, rest)
    | c :: rest =>
      if !builder.choices.isEmpty && (c == ',' || c == '\x7d') then (builder.cross true, c :: rest)
      else (builder.twoStars, c :: rest)
  else (builder.twoStars, cs)

/-- The finished pattern; every choice has to be closed. -/
def finish (builder : Builder) : Option Glob :=
  if builder.choices.isEmpty then some builder.parts.reverse else none

/-- Reads a pattern in at most `steps` steps. `previous` is the character before it. -/
def read : Nat → Builder → Option Char → List Char → Option Glob
  | 0, _, _, _ => none
  | _ + 1, builder, _, [] => builder.finish
  | steps + 1, builder, previous, c :: rest =>
    match c with
    | '?' => read steps (builder.push .any) (some c) rest
    | '*' =>
      match rest with
      | '*' :: rest =>
        let (builder, left) := builder.doubleStar previous rest
        read steps builder (some (if left.length < rest.length then '/' else '*')) left
      | rest => read steps (builder.push .star) (some c) rest
    | '[' => do
      let (token, rest) ← readSet rest
      read steps (builder.push token) (some ']') rest
    | '\x7b' => read steps builder.enter (some c) rest
    | '\x7d' => do read steps (← builder.leave) (some c) rest
    | ',' => read steps builder.comma (some c) rest
    | '\\' =>
      match rest with
      | [] => none
      | c :: rest => read steps (builder.push (.literal c)) (some c) rest
    | c => read steps (builder.push (.literal c)) (some c) rest

end Builder

/-- **The parts of a pattern.** Each step reads a character. -/
def parse? (pattern : String) : Option Glob :=
  let cs := pattern.toList
  Builder.read (cs.length + 1) {} none cs

def slash : UInt8 := 47

/-- The places between the bytes of a path, each with whether it is reached. There is one more place
than there are bytes. -/
abbrev Reach := List Bool

namespace Reach

def start (input : List UInt8) : Reach := true :: input.map fun _ => false

def union (a b : Reach) : Reach := List.zipWith (· || ·) a b

/-- The places behind an allowed byte that follows a reached one. -/
def step (allowed : UInt8 → Bool) (input : List UInt8) (reach : Reach) : Reach :=
  false :: List.zipWith (fun b here => here && allowed b) input reach

/-- The places behind any number of allowed bytes; `carry` says whether the place before leads here. -/
def sweepFrom (allowed : UInt8 → Bool) : (carry : Bool) → List UInt8 → Reach → Reach
  | carry, b :: bs, here :: rest =>
    (here || carry) :: sweepFrom allowed ((here || carry) && allowed b) bs rest
  | carry, [], here :: _ => [here || carry]
  | _, _, [] => []

/-- The places behind any number of allowed bytes that follow a reached one. -/
def sweep (allowed : UInt8 → Bool) (input : List UInt8) (reach : Reach) : Reach :=
  sweepFrom allowed false input reach

def isDone (reach : Reach) : Bool := reach.getLast? = some true

end Reach

def within (low high b : UInt8) : Bool := low ≤ b && b ≤ high

/-- Whether a byte belongs to a range of characters. A character of several bytes stands for each of
them, and a range goes from the last byte of its start to the first byte of its end. -/
def inRange (range : Char × Char) (b : UInt8) : Bool :=
  let first := String.utf8EncodeChar range.1
  let last := String.utf8EncodeChar range.2
  if range.1 = range.2 then first.contains b
  else
    first.dropLast.contains b || within (first.getLastD 0) (last.headD 0) b ||
      last.tail.contains b

mutual

/-- Whether a part is a choice with nothing to choose from, which is passed over. -/
def isVoid : GlobToken → Bool
  | .choice branches => areVoid branches
  | _ => false

def allVoid : List GlobToken → Bool
  | [] => true
  | token :: rest => isVoid token && allVoid rest

def areVoid : List (List GlobToken) → Bool
  | [] => true
  | branch :: rest => allVoid branch && areVoid rest

end

def behindSlash (input : List UInt8) (reach : Reach) : Reach := reach.step (· == slash) input

/-- The places behind a slash that may have anything before it. -/
def behindLaterSlash (input : List UInt8) (reach : Reach) : Reach :=
  behindSlash input (reach.sweep (fun _ => true) input)

mutual

def advance (input : List UInt8) : GlobToken → Reach → Reach
  | .literal c, reach =>
    (String.utf8EncodeChar c).foldl (fun reach b => reach.step (· == b) input) reach
  | .any, reach => reach.step (· != slash) input
  | .star, reach => reach.sweep (· != slash) input
  | .leading, reach => reach.union (behindLaterSlash input reach)
  | .trailing, reach => (behindSlash input reach).sweep (fun _ => true) input
  | .between, reach =>
    let behind := behindSlash input reach
    behind.union (behindLaterSlash input behind)
  | .oneOf negated ranges, reach => reach.step (fun b => ranges.any (inRange · b) != negated) input
  | .choice branches, reach =>
    if areVoid branches then reach else advanceAny input branches reach

def advanceAll (input : List UInt8) : List GlobToken → Reach → Reach
  | [], reach => reach
  | token :: tokens, reach => advanceAll input tokens (advance input token reach)

/-- The places that some branch leads to; void ones are left out. -/
def advanceAny (input : List UInt8) : List (List GlobToken) → Reach → Reach
  | [], reach => reach.map fun _ => false
  | branch :: others, reach =>
    let further := advanceAny input others reach
    if allVoid branch then further else (advanceAll input branch reach).union further

end

/-- **Whether a pattern fits a path.** A double star alone fits every path. -/
def accepts (glob : Glob) (path : String) : Bool :=
  match glob with
  | [.leading] => true
  | glob =>
    let input := Text.bytes path
    (advanceAll input glob (.start input)).isDone

end Glob

end GraphClient
