import GraphClient.Operation.Printer
import GraphClient.Proofs.Grammar.Executable
import GraphClient.Proofs.Operation.Unbind
import GraphClient.Proofs.Spelling.Directives

/-!
# Written selections

* **`Printer.spells_selectionSet`**: the printed selections have the words of what they stand for.
* **`Syntax.Grammar.reads_selectionSet`**: selections are read back.
-/

namespace GraphClient

open List Selection Worded
open Bool hiding not_or
open Syntax.Rule (Reads)

namespace Selection

mutual

/-- **Whether a selection can be written**: its names are names, its values can be written, and no
fragment is empty. -/
def isWellFormed : Selection → Bool
  | .field head selections =>
    head.label.all Text.isName && Text.isName head.name &&
      head.arguments.all (Argument.isWellFormed false) &&
      head.directives.all (DirectiveUse.isWellFormed false) && allWellFormed selections
  | .spread target =>
    Text.isName target.name && target.name != "on" &&
      target.directives.all (DirectiveUse.isWellFormed false)
  | .inline condition directives selections _ =>
    (condition.map NamedRef.name).all Text.isName &&
      directives.all (DirectiveUse.isWellFormed false) && !selections.isEmpty &&
      allWellFormed selections

def allWellFormed : List Selection → Bool
  | [] => true
  | selection :: rest => isWellFormed selection && allWellFormed rest

end

mutual

/-- **The floats in a selection.** -/
def floats : Selection → List Binary64
  | .field head selections =>
    (head.arguments.flatMap fun argument => argument.value.floats) ++
      head.directives.flatMap DirectiveUse.floats ++ floatsIn selections
  | .spread target => target.directives.flatMap DirectiveUse.floats
  | .inline _ directives selections _ => directives.flatMap DirectiveUse.floats ++ floatsIn selections

def floatsIn : List Selection → List Binary64
  | [] => []
  | selection :: rest => floats selection ++ floatsIn rest

end

mutual

/-- **What is read of a printed selection.** -/
def reread : Selection → Selection
  | .field head selections =>
    .field { head with arguments := head.arguments.map .reread, directives := head.directives.map .reread }
      (rereadAll selections)
  | .spread target => .spread { target with directives := target.directives.map .reread }
  | .inline condition directives selections location =>
    .inline condition (directives.map .reread) (rereadAll selections) location

def rereadAll : List Selection → List Selection
  | [] => []
  | selection :: rest => reread selection :: rereadAll rest

end

mutual

/-- **A selection without floats is read as it is.** -/
theorem reread_eq_self : (sel : Selection) → sel.floats = [] → sel.reread = sel
  | .field head selections, h => by
    simp only [floats, append_eq_nil_iff] at h
    rw [reread, Argument.map_reread_eq_self h.1.1, DirectiveUse.map_reread_eq_self h.1.2,
      rereadAll_eq_self selections h.2]
  | .spread target, h => by rw [reread, DirectiveUse.map_reread_eq_self h]
  | .inline _ dirs selections _, h => by
    rw [floats, append_eq_nil_iff] at h
    rw [reread, DirectiveUse.map_reread_eq_self h.1, rereadAll_eq_self selections h.2]

theorem rereadAll_eq_self : (selections : List Selection) → floatsIn selections = [] →
    rereadAll selections = selections
  | [], _ => rfl
  | sel :: rest, h => by
    rw [floatsIn, append_eq_nil_iff] at h
    rw [rereadAll, reread_eq_self sel h.1, rereadAll_eq_self rest h.2]

end

def labelWords : Option String → List Word
  | some label => [.name label, .mark .colon]
  | none => []

def conditionWords : Option String → List Word
  | some condition => [.name "on", .name condition]
  | none => []

mutual

/-- **The words of a selection.** -/
def words : Selection → List Word
  | .field head selections =>
    labelWords head.label ++ .name head.name :: (enclosed Argument.words head.arguments ++
      (head.directives.flatMap DirectiveUse.words ++ if selections.isEmpty then []
        else .mark .leftBrace :: (wordsOf selections ++ [.mark .rightBrace])))
  | .spread target =>
    .mark .spread :: .name target.name :: target.directives.flatMap DirectiveUse.words
  | .inline condition directives selections _ =>
    .mark .spread :: (conditionWords (condition.map NamedRef.name) ++ (directives.flatMap DirectiveUse.words ++
        .mark .leftBrace :: (wordsOf selections ++ [.mark .rightBrace])))

def wordsOf : List Selection → List Word
  | [] => []
  | selection :: rest => words selection ++ wordsOf rest

end

def setWords (selections : List Selection) : List Word :=
  .mark .leftBrace :: (selections.flatMap words ++ [.mark .rightBrace])

theorem rereadAll_eq (selections : List Selection) : rereadAll selections = selections.map reread := by
  induction selections with
  | nil => rfl
  | cons sel rest ih => rw [rereadAll, ih, map_cons]

theorem wordsOf_eq (selections : List Selection) : wordsOf selections = selections.flatMap words := by
  induction selections with
  | nil => rfl
  | cons sel rest ih => rw [wordsOf, ih, flatMap_cons]

variable {selections : List Selection}

theorem allWellFormed_iff : allWellFormed selections ↔ ∀ sel ∈ selections, sel.isWellFormed := by
  induction selections with
  | nil => simp [allWellFormed]
  | cons sel rest ih => simp [allWellFormed, ih]

theorem allWellFormed_children {sel : Selection} (h : sel.isWellFormed) : allWellFormed sel.children := by
  cases sel with
  | field => exact (and_eq_true_iff.mp h).2
  | spread => rfl
  | «inline» => exact (and_eq_true_iff.mp h).2

end Selection

namespace Printer

variable {returns : Bool}

theorem spells_indent (depth : Nat) : Worded returns Any (indent depth) [] := by
  induction depth with
  | zero => exact .empty
  | succ depth ih =>
    rw [indent, replicate_succ, String.join_cons]
    exact (space.before .space).before ih

theorem spells_braced {α : Type} {text : α → String} {words : α → List Word} {items : List α}
    (depth : Nat) (h : ∀ item ∈ items, Worded returns Closed (text item) (words item)) :
    Trails returns (braced depth (items.map text))
      (.mark .leftBrace :: (items.flatMap words ++ [.mark .rightBrace])) := by
  have ho : Worded returns Any " \x7b\n" [.mark .leftBrace] := (space.before (.mark .leftBrace)).before .line
  have hl : Worded returns Any
      (String.join (items.map fun item => indent (depth + 1) ++ text item ++ "\n"))
      (items.flatMap words) := by
    refine .join fun item hi => ?_
    have hi' := (spells_indent (depth + 1)).before (h item hi)
    have he := hi'.append .line fun _ _ => rfl
    rwa [append_nil] at he
  have ha := ((ho.before hl).before (spells_indent depth)).before (.mark .rightBrace)
  rw [append_nil] at ha
  have hs : Shut " \x7b\n" := fun _ => rfl
  rw [braced, map_map]
  exact .shut ha.closed (((hs.append _).append _).append _)

theorem selectionLines_eq (depth : Nat) (selections : List BoundSelection) :
    selectionLines depth selections = selections.map (selection depth) := by
  induction selections with
  | nil => rfl
  | cons first rest ih => rw [selectionLines, ih, map_cons]

theorem spells_label {label : Option String} : label.all Text.isName → Spells Any (match label with
      | some label => label ++ ": "
      | none => "") (labelWords label) := by
  intro h
  cases label with
  | none => exact .empty
  | some label => exact (name h).append Value.spells_colon fun _ _ => rfl

theorem spells_condition {cond : Option String} : cond.all Text.isName → Spells Closed (match cond with
        | some cond => " on " ++ cond
        | none => "") (conditionWords cond) := by
  intro h
  cases cond with
  | none => exact empty.closed
  | some cond =>
    have ho : Spells Any " on " [.name "on"] := .spaced "on" (.name rfl)
    exact ho.before (.name h)

mutual

/-- **The printed text of a selection has the words of what the selection stands for.** -/
theorem spells_selection (depth : Nat) : (bound : BoundSelection) → bound.unbind.isWellFormed →
    Spells Closed (selection depth bound) bound.unbind.words
  | .field field selections, h => by
    simp only [BoundSelection.unbind, isWellFormed, and_eq_true] at h
    obtain ⟨⟨⟨⟨hl, hn⟩, hr⟩, hd⟩, hs⟩ := h
    have hi := spells_selections (depth + 1) selections hs
    have hh := (((spells_label hl).before (.name hn)).behind (spells_arguments hr)).behind
      (spells_directives hd)
    rw [BoundSelection.unbind, words, wordsOf_eq, BoundSelection.unbindAll_eq, flatMap_map]
    cases selections with
    | nil =>
      rw [selection, String.append_empty]
      exact hh.congr (by simp)
    | cons first rest =>
      have ha := hh.behind (spells_braced depth hi)
      rw [← selectionLines_eq, selectionLines] at ha
      rw [selection]
      exact ha.congr (by simp)
  | .fragment use selections, h => by
    cases hf : use.fragment with
    | some name =>
      simp only [BoundSelection.unbind, hf, isWellFormed, and_eq_true] at h
      have ha := ((mark .spread).before (.name h.1.1)).behind (spells_directives h.2)
      simp only [selection, BoundSelection.unbind, hf, words]
      exact ha
    | none =>
      simp only [BoundSelection.unbind, hf, isWellFormed, and_eq_true] at h
      obtain ⟨⟨⟨hc, hd⟩, -⟩, hs⟩ := h
      have hi := spells_selections (depth + 1) selections hs
      have hn : (use.condition.map fun name => .mk name use.location).map NamedRef.name = use.condition := by
        rw [Option.map_map]
        exact Option.map_id'
      rw [hn] at hc
      have hh := ((mark .spread).before (spells_condition hc)).behind (spells_directives hd)
      have ha := hh.behind (spells_braced depth hi)
      simp only [selection, BoundSelection.unbind, hf, words, hn,
        wordsOf_eq, BoundSelection.unbindAll_eq, flatMap_map, selectionLines_eq]
      exact ha.congr (by simp)

theorem spells_selections (depth : Nat) : (bound : List BoundSelection) →
    allWellFormed (BoundSelection.unbindAll bound) →
    ∀ sel ∈ bound, Spells Closed (Printer.selection depth sel) sel.unbind.words
  | [], _ => fun _ hm => absurd hm not_mem_nil
  | first :: rest, h => by
    rw [BoundSelection.unbindAll, allWellFormed, and_eq_true] at h
    exact forall_mem_cons.mpr ⟨spells_selection depth first h.1, spells_selections depth rest h.2⟩

end

theorem spells_selectionSet {selections : List BoundSelection}
    (h : allWellFormed (BoundSelection.unbindAll selections)) :
    Trails false (selectionSet selections) (setWords (BoundSelection.unbindAll selections)) := by
  rw [selectionSet, selectionLines_eq, setWords, BoundSelection.unbindAll_eq, flatMap_map]
  exact spells_braced 0 (spells_selections 1 selections h)

end Printer

namespace Syntax.Grammar

/-- Whether selections are those that were written, up to their places. -/
def SameSelections (source : Nat) (nodes : List Selection) (selections : List GraphClient.Selection) : Prop :=
  nodes.map (fun node => (Selection.ofSyntax source node).relocate .erase) =
    selections.map fun selection => selection.reread.relocate .erase

theorem listOfSyntax_eq (src : Nat) (nodes : List Selection) : listOfSyntax src nodes = nodes.map (ofSyntax src) := by
  induction nodes with
  | nil => rfl
  | cons node nodes ih => rw [listOfSyntax, ih, map_cons]

theorem SameSelections.relocateAll {src : Nat} {nodes : List Selection}
    {selections : List GraphClient.Selection} (h : SameSelections src nodes selections) :
    relocateAll Location.erase (listOfSyntax src nodes) = relocateAll Location.erase (rereadAll selections) := by
  rw [relocateAll_eq_map, relocateAll_eq_map, listOfSyntax_eq, rereadAll_eq, map_map, map_map]
  exact h

theorem reads_label (text : Option String) :
    (Rule.optional (name >>= fun label => Rule.mark .colon >>= fun _ => pure label)).Reads
      (labelWords text) fun node => node.map Name.text = text := by
  cases text with
  | none => exact .none
  | some text => exact .some ((reads_name text).take fun _ hn => .mark (.pure hn))

theorem reads_condition (text : Option String) :
    (Rule.optional (Rule.keyword .on >>= fun _ => name)).Reads (conditionWords text)
      fun node => node.map Name.text = text := by
  cases text with
  | none => exact .none
  | some text => exact .some ((Reads.ofKind rfl (by decide)).take fun _ _ => reads_name text)

theorem reads_fragmentName {text : String} (h : text ≠ "on") :
    fragmentName.Reads [.name text] fun node => node.text = text :=
  reads_nameExcept fun hm => Word.kind_name_ne_keyword .on h (mem_singleton.mp hm)

section Selections

variable {src : Nat} {selections : List GraphClient.Selection}

theorem reads_set (he : selections ≠ []) (h : ∀ written ∈ selections, (selection selectionSet).Reads written.words
      fun node => (ofSyntax src node).relocate .erase = written.reread.relocate .erase) :
    selectionSet.Reads (setWords selections) fun set => SameSelections src set.selections selections := by
  rw [selectionSet_eq]
  exact .offset fun start => .mark ((Reads.many1 he h).bind fun nodes hn => .mark (.spanned fun _ => hn))

theorem reads_fieldSet (h : ∀ written ∈ selections, (selection selectionSet).Reads written.words
      fun node => (ofSyntax src node).relocate .erase = written.reread.relocate .erase) :
    (Rule.optional selectionSet).Reads (if selections.isEmpty then [] else setWords selections)
      fun set => SameSelections src ((set.map SelectionSet.selections).getD []) selections := by
  cases selections with
  | nil => exact .inr (.pure rfl)
  | cons first rest => exact .inl ((reads_set (cons_ne_nil _ _) h).last fun _ hs => .pure hs)

mutual

/-- **A selection is read back from its words**, up to its floats. -/
theorem reads_selection : (written : GraphClient.Selection) → written.isWellFormed →
    .infinite true ∉ written.floats → (selection selectionSet).Reads written.words
      fun node => (ofSyntax src node).relocate .erase = written.reread.relocate .erase
  | .field head selections, h, hf => by
    simp only [isWellFormed, and_eq_true] at h
    simp only [floats, mem_append, not_or] at hf
    rw [words, wordsOf_eq]
    refine .inl (.inl (.offset fun start => (reads_label _).bind fun label hl => ?_))
    refine (reads_name _).take fun name hn => ?_
    refine (reads_arguments src h.1.1.2 hf.1.1).bind fun args ha => ?_
    refine (reads_directives src h.1.2 hf.1.2).bind fun dirs hd => ?_
    refine (reads_fieldSet (reads_each selections h.2 hf.2)).last fun set hs => .spanned fun span => ?_
    rw [ofSyntax, relocate, reread, relocate, hs.relocateAll]
    simp only [FieldHead.ofSyntax, FieldHead.relocate, hl, hn, map_map, Function.comp_def, ha, hd, Location.erase]
  | .spread target, h, hf => by
    simp only [isWellFormed, and_eq_true, bne_iff_ne] at h
    rw [floats] at hf
    rw [words]
    refine .inl (.inr (.offset fun start => .mark ((reads_fragmentName h.1.2).take fun name hn => ?_)))
    refine (reads_directives src h.2 hf).last fun dirs hd => .spanned fun span => ?_
    rw [ofSyntax, relocate, reread, relocate]
    simp only [Spread.relocate, hn, map_map, Function.comp_def, hd, Location.erase]
  | .inline cond dirs selections loc, h, hf => by
    simp only [isWellFormed, and_eq_true, not_eq_true', isEmpty_eq_false_iff] at h
    rw [floats, mem_append, not_or] at hf
    rw [words, wordsOf_eq]
    refine .inr (.offset fun start => .mark ((reads_condition _).bind fun name hn => ?_))
    refine (reads_directives src h.1.1.2 hf.1).bind fun nodes ho => ?_
    refine (reads_set h.1.2 (reads_each selections h.2 hf.2)).last fun set hs => .spanned fun span => ?_
    have hc : (name.map (NamedRef.ofSyntax src)).map (NamedRef.relocate .erase) =
        cond.map (NamedRef.relocate .erase) := by
      cases name <;> cases cond <;> simp_all [NamedRef.ofSyntax, NamedRef.relocate, Location.erase]
    rw [ofSyntax, relocate, reread, relocate, hs.relocateAll, hc, map_map, map_map]
    simp only [Function.comp_def, ho, Location.erase]

theorem reads_each : (selections : List GraphClient.Selection) → allWellFormed selections →
    .infinite true ∉ floatsIn selections → ∀ written ∈ selections, (selection selectionSet).Reads written.words
        fun node => (ofSyntax src node).relocate .erase = written.reread.relocate .erase
  | [], _, _ => fun _ hm => absurd hm not_mem_nil
  | first :: rest, h, hf => by
    rw [allWellFormed, and_eq_true] at h
    rw [floatsIn, mem_append, not_or] at hf
    exact forall_mem_cons.mpr ⟨reads_selection first h.1 hf.1, reads_each rest h.2 hf.2⟩

end

theorem reads_selectionSet (src : Nat) (hn : selections ≠ []) (h : allWellFormed selections)
    (hf : .infinite true ∉ floatsIn selections) : selectionSet.Reads (setWords selections)
      fun set => SameSelections src set.selections selections := reads_set hn (reads_each selections h hf)

end Selections

end Syntax.Grammar

end GraphClient
