/-!
# Repeated names

Lists of definitions keep every entry and mark those whose name came up before.
-/

namespace GraphClient

variable {α : Type}

/-- Marks the entries whose name is in `seen` or belongs to an earlier entry. -/
def markRepeatsAfter (name : α → String) (seen : List String) : List α → List (α × Bool)
  | [] => []
  | entry :: rest =>
    (entry, seen.contains (name entry)) :: markRepeatsAfter name (name entry :: seen) rest

def markRepeats (name : α → String) (entries : List α) : List (α × Bool) :=
  markRepeatsAfter name [] entries

def firsts (name : α → String) (entries : List α) : List α :=
  (markRepeats name entries).filterMap fun (entry, repeated) => if repeated then none else some entry

end GraphClient
