import GraphClient.Proofs.Spelling.Values
import GraphClient.Schema.Printer

/-!
# Written types, arguments and directives

* **`TypeRef.spells_text`**, **`Syntax.Grammar.reads_typeExpr`**: types.
* **`Printer.spells_directives`**, **`Syntax.Grammar.reads_directives`**: directives with their arguments.
-/

namespace GraphClient

open List DirectiveUse
open Syntax.Rule (Reads)

namespace TypeRef

def markWords (isNonNull : Bool) : List Word := if isNonNull then [.mark .bang] else []

def wrappedWords (name : String) : List Bool → List Word
  | [] => [.name name]
  | first :: rest =>
    .mark .leftBracket :: (wrappedWords name rest ++ markWords first ++ [.mark .rightBracket])

/-- **The words of a reference to a type.** -/
def words (type : TypeRef) : List Word := wrappedWords type.name type.elements ++ markWords type.isNonNull

theorem spells_mark (isNonNull : Bool) : Trails false (mark isNonNull) (markWords isNonNull) := by
  cases isNonNull with
  | true => exact .shut (Worded.mark .bang).closed fun _ => rfl
  | false => exact .empty

theorem spells_wrapped {name : String} (h : Text.isName name) (elems : List Bool) :
    Spells Closed (wrapped name elems) (wrappedWords name elems) := by
  induction elems with
  | nil => exact .name h
  | cons first rest ih =>
    have hi := ((Worded.mark .leftBracket).before ih).behind (spells_mark first)
    exact (hi.append (.mark .rightBracket) fun _ _ => rfl).closed

theorem spells_text {type : TypeRef} (h : Text.isName type.name) : Spells Closed type.text type.words :=
  (spells_wrapped h type.elements).behind (spells_mark type.isNonNull)

end TypeRef

namespace Syntax.Grammar

theorem reads_bang {node : TypeExpr} (type : TypeRef) (start : Nat) (hn : .ofSyntax node = type.nullable) :
    ((.mark .bang >>= fun _ => .spanFrom start >>= fun span => pure (.nonNull node span)) ⊔
      pure node : Rule TypeExpr).Reads (TypeRef.markWords type.isNonNull) fun node => .ofSyntax node = type := by
  obtain ⟨name, isNonNull, elems⟩ := type
  cases isNonNull with
  | true => exact .inl (.mark (.spanned fun _ => by rw [TypeRef.ofSyntax, hn]; rfl))
  | false => exact .inr (.pure hn)

theorem reads_typeExpr (type : TypeRef) : typeExpr.Reads type.words fun node => .ofSyntax node = type := by
  obtain ⟨name, isNonNull, elems⟩ := type
  induction elems generalizing isNonNull with
  | nil =>
    rw [typeExpr_eq]
    refine .offset fun start => .bind (.inr ((reads_name name).last fun node hn => .pure ?_)) fun node hn =>
      reads_bang ⟨name, isNonNull, []⟩ start hn
    rw [TypeRef.ofSyntax, hn]
    rfl
  | cons first rest ih =>
    rw [typeExpr_eq]
    refine .offset fun start => .bind (.inl (.mark ((ih first).bind fun node hn => .mark (.spanned ?_))))
      fun node hn => reads_bang ⟨name, isNonNull, first :: rest⟩ start hn
    intro span
    rw [TypeRef.ofSyntax, hn]
    rfl

end Syntax.Grammar

/-- The words of items between parentheses; none when there are no items. -/
def enclosed {α : Type} (spell : α → List Word) (items : List α) : List Word :=
  if items.isEmpty then [] else .mark .leftParen :: (items.flatMap spell ++ [.mark .rightParen])

theorem Printer.spells_parenthesized {α : Type} {text : α → String} {words : α → List Word}
    {items : List α} (h : ∀ item ∈ items, Spells Closed (text item) (words item)) :
    Trails false (Printer.parenthesized (items.map text)) (enclosed words items) := by
  cases items with
  | nil => exact .empty
  | cons item items =>
    have hi := (Worded.mark .leftParen).before (Worded.commas h)
    have hs : Shut "(" := fun _ => rfl
    exact .shut (hi.append (.mark .rightParen) fun _ _ => rfl).closed ((hs.append _).append _)

theorem Syntax.Grammar.reads_enclosed {α γ δ : Type} {item : Rule α} {spell : δ → List Word} {view : α → γ}
    {target : δ → γ} {items : List δ} (h : ∀ x ∈ items, item.Reads (spell x) fun a => view a = target x) :
    (Rule.orEmpty (.between .leftParen .rightParen item)).Reads (enclosed spell items)
      fun nodes => nodes.map view = items.map target := by
  cases items with
  | nil => exact .inr (.pure rfl)
  | cons first rest => exact .inl (.between h)

/-- Any location, as that of what is built in. -/
def Location.erase (_ : Location) : Location := .builtin

variable {const : Bool}

theorem map_eq_self {α : Type} {f : α → α} {xs : List α} (h : ∀ x ∈ xs, f x = x) : xs.map f = xs :=
  (map_congr_left h).trans (map_id xs)

namespace Argument

def isWellFormed (constant : Bool) (argument : Argument) : Bool :=
  Text.isName argument.name && argument.value.isWellFormed constant

def words (argument : Argument) : List Word :=
  .name argument.name :: .mark .colon :: argument.value.words

def reread (argument : Argument) : Argument := { argument with value := argument.value.reread }

theorem reread_eq_self {arg : Argument} (h : arg.value.floats = []) : arg.reread = arg := by
  rw [reread, Value.reread_eq_self _ h]

theorem map_reread_eq_self {args : List Argument} (h : (args.flatMap fun arg => arg.value.floats) = []) :
    args.map reread = args :=
  map_eq_self fun arg ha => reread_eq_self (flatMap_eq_nil_iff.mp h arg ha)

theorem spells_text {arg : Argument} (h : arg.isWellFormed const) : Spells Closed arg.text arg.words := by
  rw [isWellFormed, Bool.and_eq_true] at h
  exact ((Worded.name h.1).append Value.spells_colon fun _ _ => rfl).before (Value.spells_text arg.value h.2)

end Argument

theorem Syntax.Grammar.reads_argument (src : Nat) {written : GraphClient.Argument}
    (h : written.isWellFormed const) (hi : .infinite true ∉ written.value.floats) :
    (argument const).Reads written.words fun node => (Argument.ofSyntax src node).relocate .erase =
        written.reread.relocate .erase := by
  rw [Argument.isWellFormed, Bool.and_eq_true] at h
  refine .offset fun start => (reads_name _).take fun name hn => .mark ?_
  refine (reads_value _ h.2 hi).last fun value hv => .spanned fun span => ?_
  simp only [Argument.ofSyntax, Argument.reread, Argument.relocate, hn, hv, Location.erase]

namespace DirectiveUse

def isWellFormed (constant : Bool) (use : DirectiveUse) : Bool :=
  Text.isName use.name && use.arguments.all (Argument.isWellFormed constant)

def floats (use : DirectiveUse) : List Binary64 := use.arguments.flatMap fun argument => argument.value.floats

def words (use : DirectiveUse) : List Word :=
  .mark .atSign :: .name use.name :: enclosed Argument.words use.arguments

def reread (use : DirectiveUse) : DirectiveUse := { use with arguments := use.arguments.map .reread }

theorem reread_eq_self {use : DirectiveUse} (h : use.floats = []) : use.reread = use := by
  rw [reread, Argument.map_reread_eq_self h]

theorem map_reread_eq_self {uses : List DirectiveUse} (h : uses.flatMap floats = []) : uses.map reread = uses :=
  map_eq_self fun use hu => reread_eq_self (flatMap_eq_nil_iff.mp h use hu)

end DirectiveUse

namespace Printer

theorem spells_arguments {args : List Argument} (h : args.all (Argument.isWellFormed const)) :
    Trails false (Printer.arguments args) (enclosed Argument.words args) := by
  rw [all_eq_true] at h
  exact spells_parenthesized fun arg ha => Argument.spells_text (h arg ha)

theorem spells_directives {const : Bool} {uses : List DirectiveUse} (h : uses.all (isWellFormed const)) :
    Trails false (Printer.directives uses) (uses.flatMap DirectiveUse.words) := by
  rw [all_eq_true] at h
  have hs : Shut " @" := fun _ => rfl
  refine .join fun use hu => .shut ?_ ((hs.append _).append _)
  have hu' := h use hu
  rw [isWellFormed, Bool.and_eq_true] at hu'
  exact ((Worded.space.before (.mark .atSign)).before (.name hu'.1)).behind (spells_arguments hu'.2)

end Printer

namespace Syntax.Grammar

variable (src : Nat) {const : Bool} {written : List GraphClient.Argument} {uses : List DirectiveUse}

theorem reads_arguments (h : written.all (Argument.isWellFormed const))
    (hi : .infinite true ∉ written.flatMap fun arg => arg.value.floats) :
    (arguments const).Reads (enclosed Argument.words written)
      fun nodes => nodes.map (fun node => (Argument.ofSyntax src node).relocate .erase) =
        written.map fun arg => arg.reread.relocate .erase := by
  rw [all_eq_true] at h
  exact reads_enclosed fun arg ha => reads_argument src (h arg ha)
    fun hm => hi (mem_flatMap.mpr ⟨arg, ha, hm⟩)

/-- **Directives are read back from their words**, up to their floats. -/
theorem reads_directives (h : uses.all (isWellFormed const)) (hi : .infinite true ∉ uses.flatMap floats) :
    (directives const).Reads (uses.flatMap DirectiveUse.words)
      fun nodes => nodes.map (fun node => (DirectiveUse.ofSyntax src node).relocate .erase) =
        uses.map fun use => use.reread.relocate .erase := by
  rw [all_eq_true] at h
  refine Reads.many fun use hu => ?_
  have hu' := h use hu
  rw [isWellFormed, Bool.and_eq_true] at hu'
  refine .offset fun start => .mark ((reads_name _).take fun name ha => ?_)
  refine (reads_arguments src hu'.2 fun hm => hi (mem_flatMap.mpr ⟨use, hu, hm⟩)).last
    fun nodes hn => .spanned fun span => ?_
  simp only [DirectiveUse.ofSyntax, reread, relocate, map_map, ha,
    Location.erase, DirectiveUse.mk.injEq, and_true, true_and]
  exact hn

end Syntax.Grammar

end GraphClient
