/-!
# Positions in source text
-/

namespace GraphClient

/-- A half-open range of byte offsets. -/
structure Span where
  start : Nat
  stop : Nat
deriving DecidableEq

namespace Span

def empty (offset : Nat) : Span := ⟨offset, offset⟩

def length (s : Span) : Nat := s.stop - s.start

def isEmpty (s : Span) : Bool := s.start == s.stop

def merge (a b : Span) : Span := ⟨min a.start b.start, max a.stop b.stop⟩

def contains (s : Span) (offset : Nat) : Bool := s.start ≤ offset && offset < s.stop

instance : Ord Span where
  compare a b := (compare a.start b.start).then (compare a.stop b.stop)

end Span

/-- A span in a source. -/
structure Location where
  source : Nat
  span : Span
deriving DecidableEq

namespace Location

/-- The source number of everything that no document declares. -/
def builtinSource : Nat := 4294967295

def builtin : Location := ⟨builtinSource, .empty 0⟩

def isBuiltin (l : Location) : Bool := l.source == builtinSource

instance : Ord Location where
  compare a b := (compare a.source b.source).then (compare a.span b.span)

/-- A missing location comes before every other one. -/
def compareOptional : Option Location → Option Location → Ordering
  | none, none => .eq
  | none, some _ => .lt
  | some _, none => .gt
  | some a, some b => compare a b

end Location

end GraphClient
