import GraphClient.Proofs.Grammar.Documents
import GraphClient.Proofs.Spelling.Selections

/-!
# Written documents

* **`Document.read_document`**: a request document is read without a report, up to its floats.
-/

namespace GraphClient

open List VariableDefinition Syntax.Grammar
open Bool hiding not_or
open Syntax.Rule (Reads)

/-! ## Words -/

namespace VariableDefinition

def isWellFormed (definition : VariableDefinition) : Bool :=
  Text.isName definition.name && Text.isName definition.type.name &&
    definition.defaultValue.all (Value.isWellFormed true) &&
    definition.directives.all (DirectiveUse.isWellFormed true)

def floats (definition : VariableDefinition) : List Binary64 :=
  definition.defaultValue.toList.flatMap Value.floats ++ definition.directives.flatMap DirectiveUse.floats

def reread (definition : VariableDefinition) : VariableDefinition :=
  { definition with
    defaultValue := definition.defaultValue.map .reread, directives := definition.directives.map .reread }

theorem reread_eq_self {defn : VariableDefinition} (h : defn.floats = []) : defn.reread = defn := by
  rw [floats, append_eq_nil_iff] at h
  rw [reread, Value.map_reread_eq_self h.1, DirectiveUse.map_reread_eq_self h.2]

def defaultWords : Option Value → List Word
  | some value => .mark .equals :: value.words
  | none => []

def words (definition : VariableDefinition) : List Word :=
  .mark .dollar :: .name definition.name :: .mark .colon :: (definition.type.words ++
    (defaultWords definition.defaultValue ++ definition.directives.flatMap DirectiveUse.words))

end VariableDefinition

namespace OperationDefinition

def isWellFormed (definition : OperationDefinition) : Bool :=
  definition.name.all Text.isName && definition.parameters.all VariableDefinition.isWellFormed &&
    definition.directives.all (DirectiveUse.isWellFormed false) && !definition.selections.isEmpty &&
    Selection.allWellFormed definition.selections

/-- **The floats in an operation.** -/
def floats (definition : OperationDefinition) : List Binary64 :=
  definition.parameters.flatMap VariableDefinition.floats ++
    definition.directives.flatMap DirectiveUse.floats ++ Selection.floatsIn definition.selections

def hasFloat (definition : OperationDefinition) : Bool := !definition.floats.isEmpty

/-- **What is read of a printed operation.** -/
def reread (definition : OperationDefinition) : OperationDefinition :=
  { definition with
    parameters := definition.parameters.map .reread
    directives := definition.directives.map .reread
    selections := Selection.rereadAll definition.selections }

theorem reread_eq_self {defn : OperationDefinition} (h : defn.floats = []) : defn.reread = defn := by
  rw [floats, append_eq_nil_iff, append_eq_nil_iff] at h
  have hp := map_eq_self fun e he => VariableDefinition.reread_eq_self (flatMap_eq_nil_iff.mp h.1.1 e he)
  rw [reread, hp, DirectiveUse.map_reread_eq_self h.1.2, Selection.rereadAll_eq_self _ h.2]

def words (definition : OperationDefinition) : List Word :=
  .name definition.kind.text :: (definition.name.toList.map .name ++
    (enclosed VariableDefinition.words definition.parameters ++
      (definition.directives.flatMap DirectiveUse.words ++ Selection.setWords definition.selections)))

end OperationDefinition

namespace FragmentDefinition

def isWellFormed (fragment : FragmentDefinition) : Bool :=
  Text.isName fragment.name && fragment.name != "on" && Text.isName fragment.condition.name &&
    fragment.directives.all (DirectiveUse.isWellFormed false) && !fragment.selections.isEmpty &&
    Selection.allWellFormed fragment.selections

/-- **The floats in a fragment.** -/
def floats (fragment : FragmentDefinition) : List Binary64 :=
  fragment.directives.flatMap DirectiveUse.floats ++ Selection.floatsIn fragment.selections

def hasFloat (fragment : FragmentDefinition) : Bool := !fragment.floats.isEmpty

/-- **What is read of a printed fragment.** -/
def reread (fragment : FragmentDefinition) : FragmentDefinition :=
  { fragment with
    directives := fragment.directives.map .reread, selections := Selection.rereadAll fragment.selections }

theorem reread_eq_self {frag : FragmentDefinition} (h : frag.floats = []) : frag.reread = frag := by
  rw [floats, append_eq_nil_iff] at h
  rw [reread, DirectiveUse.map_reread_eq_self h.1, Selection.rereadAll_eq_self _ h.2]

def words (fragment : FragmentDefinition) : List Word :=
  .name "fragment" :: .name fragment.name :: .name "on" :: .name fragment.condition.name ::
    (fragment.directives.flatMap DirectiveUse.words ++ Selection.setWords fragment.selections)

end FragmentDefinition

/-! ## Spelling -/

namespace Printer

theorem spells_default {value : Option Value} {const : Bool} (h : value.all (Value.isWellFormed const)) :
    Trails false (defaultValue value) (defaultWords value) := by
  cases value with
  | none => exact .empty
  | some value =>
    have he : Spells Any " = " [.mark .equals] := .spaced _ (Worded.mark .equals).closed
    have hs : Shut " = " := fun _ => rfl
    exact .shut (he.before (Value.spells_text value h)) (hs.append _)

theorem spells_variable {e : BoundVariable} (h : e.unbind.isWellFormed) :
    Spells Closed (variableDefinition e) e.unbind.words := by
  simp only [isWellFormed, and_eq_true] at h
  obtain ⟨⟨⟨hn, ht⟩, hd⟩, -⟩ := h
  have hh := (((Worded.mark .dollar).before (.name hn)).append Value.spells_colon fun _ _ => rfl).before
    (TypeRef.spells_text ht)
  exact (hh.behind (spells_default hd)).congr (by simp [words, BoundVariable.unbind])

/-- **The printed operation has the words of what it stands for.** -/
theorem spells_operation {bound : BoundOperation} (h : bound.unbind.isWellFormed) :
    Spells Closed (operation bound) bound.unbind.words := by
  simp only [BoundOperation.unbind, OperationDefinition.isWellFormed, and_eq_true, List.all_map, all_eq_true] at h
  obtain ⟨⟨⟨⟨hn, hp⟩, hd⟩, -⟩, hse⟩ := h
  have hk : Text.isName bound.kind.text := by cases bound.kind <;> rfl
  have hs : Spells Any (bound.kind.text ++ " ") [.name bound.kind.text] := .append (.name hk) .space fun _ _ => rfl
  have hp := spells_parenthesized fun e he => spells_variable (hp e he)
  have hh := ((hs.before (.name hn)).behind hp).behind (spells_directives (all_eq_true.mpr hd))
  have ha := hh.behind (spells_selectionSet hse)
  exact ha.congr (by simp [OperationDefinition.words, BoundOperation.unbind, enclosed, flatMap_map])

/-- **The printed fragment has the words of what it stands for.** -/
theorem spells_fragment {bound : BoundFragment} (h : bound.unbind.isWellFormed) :
    Spells Closed (fragment bound) bound.unbind.words := by
  simp only [FragmentDefinition.isWellFormed, and_eq_true] at h
  obtain ⟨⟨⟨⟨⟨hn, -⟩, hc⟩, hd⟩, -⟩, he⟩ := h
  have hf : Spells Closed "fragment" [.name "fragment"] := .name rfl
  have ho : Spells Any " on " [.name "on"] := .spaced "on" (.name rfl)
  have hs : Spells Any "fragment " [.name "fragment"] := hf.append .space fun _ _ => rfl
  have hh := ((hs.before (.name hn)).append ho fun _ _ => rfl).before (.name hc)
  have ha := (hh.behind (spells_directives hd)).behind (spells_selectionSet he)
  exact ha.congr (by simp [FragmentDefinition.words, BoundFragment.unbind])

end Printer

/-! ## Reading -/

namespace Syntax.Grammar

variable {value : Option GraphClient.Value}

theorem reads_defaultValue (h : value.all (Value.isWellFormed true))
    (hi : .infinite true ∉ value.toList.flatMap Value.floats) : defaultValue.Reads (defaultWords value)
      fun node => node.map Value.ofSyntax = value.map Value.reread := by
  cases value with
  | none => exact .none
  | some value =>
    rw [Option.toList_some, flatMap_singleton] at hi
    exact .some (.mark (reads_value value h hi))

variable (source : Nat)

theorem reads_variableDefinition {defn : GraphClient.VariableDefinition}
    (h : defn.isWellFormed) (hf : .infinite true ∉ defn.floats) : variableDefinition.Reads defn.words
      fun node => (ofSyntax source node).relocate .erase = defn.reread.relocate .erase := by
  simp only [isWellFormed, and_eq_true] at h
  rw [floats, mem_append, not_or] at hf
  refine .offset fun start => .mark ((reads_name _).take fun name ha => .mark ?_)
  refine (reads_typeExpr defn.type).bind fun type ht => ?_
  refine (reads_defaultValue h.1.2 hf.1).bind fun value hv => ?_
  refine (reads_directives source h.2 hf.2).last fun nodes hn => .spanned fun span => ?_
  simp only [ofSyntax, reread, relocate, ha, ht, hv, map_map, Function.comp_def, hn, Location.erase]

theorem reads_variableDefinitions {defns : List GraphClient.VariableDefinition} (h : defns.all isWellFormed)
    (hf : .infinite true ∉ defns.flatMap floats) :
    variableDefinitions.Reads (enclosed words defns) fun nodes => nodes.map (fun node =>
          (ofSyntax source node).relocate .erase) = defns.map fun defn => defn.reread.relocate .erase := by
  rw [all_eq_true] at h
  exact reads_enclosed fun defn hd => reads_variableDefinition source (h defn hd)
    fun hm => hf (mem_flatMap.mpr ⟨defn, hd, hm⟩)

theorem reads_operationType (kind : OperationKind) : operationType.Reads [.name kind.text] (· = kind) :=
  .one (fun t hk _ => ⟨kind, by rw [hk]; cases kind <;> decide, rfl⟩) (Word.kind_name_ne _ rfl)

theorem reads_operationName (text : Option String) :
    (Rule.optional name).Reads (text.toList.map Word.name) fun node => node.map Name.text = text := by
  cases text with
  | none => exact .none
  | some text => exact .some (reads_name text)

/-- **An operation is read back from its words**, up to its floats. -/
theorem reads_operation {defn : GraphClient.OperationDefinition}
    (h : defn.isWellFormed) (hf : .infinite true ∉ defn.floats) : operation.Reads defn.words
      fun node => (OperationDefinition.ofSyntax source node).relocate .erase =
        defn.reread.relocate .erase := by
  simp only [OperationDefinition.isWellFormed, and_eq_true, not_eq_true', isEmpty_eq_false_iff] at h
  simp only [OperationDefinition.floats, mem_append, not_or] at hf
  refine .inl (.offset fun start => (reads_operationType _).take fun kind hk => ?_)
  refine (reads_operationName _).bind fun name ha => ?_
  refine (reads_variableDefinitions source h.1.1.1.2 hf.1.1).bind fun params hp => ?_
  refine (reads_directives source h.1.1.2 hf.1.2).bind fun nodes hn => ?_
  refine (reads_selectionSet source h.1.2 h.2 hf.2).last fun set hs => .spanned fun span => ?_
  rw [OperationDefinition.ofSyntax, OperationDefinition.relocate, OperationDefinition.reread,
    OperationDefinition.relocate, hs.relocateAll]
  simp only [hk, ha, map_map, Function.comp_def, hn, hp, Location.erase]

theorem reads_fragment {defn : GraphClient.FragmentDefinition}
    (h : defn.isWellFormed) (hf : .infinite true ∉ defn.floats) : fragment.Reads defn.words
      fun node => (FragmentDefinition.ofSyntax source node).relocate .erase =
        defn.reread.relocate .erase := by
  simp only [FragmentDefinition.isWellFormed, and_eq_true, bne_iff_ne, not_eq_true', isEmpty_eq_false_iff] at h
  rw [FragmentDefinition.floats, mem_append, not_or] at hf
  obtain ⟨⟨⟨⟨⟨-, ho⟩, -⟩, hd⟩, he⟩, hs⟩ := h
  refine .offset fun start => (Reads.ofKind rfl (by decide)).take fun _ _ => ?_
  refine (reads_fragmentName ho).take fun name ha => (Reads.ofKind rfl (by decide)).take fun _ _ => ?_
  refine (reads_name _).take fun cond hc => ?_
  refine (reads_directives source hd hf.1).bind fun nodes hn => ?_
  refine (reads_selectionSet source he hs hf.2).last fun set hse => .spanned fun span => ?_
  rw [FragmentDefinition.ofSyntax, FragmentDefinition.relocate, FragmentDefinition.reread,
    FragmentDefinition.relocate, hse.relocateAll, ha]
  simp only [NamedRef.ofSyntax, NamedRef.relocate, hc, map_map, Function.comp_def, hn, Location.erase]

/-! ### Documents -/

/-- An executable definition without its places, if it is one. -/
def executable? : Definition → Option (GraphClient.OperationDefinition ⊕ GraphClient.FragmentDefinition)
  | .operation node => some (.inl ((OperationDefinition.ofSyntax source node).relocate .erase))
  | .fragment node => some (.inr ((FragmentDefinition.ofSyntax source node).relocate .erase))
  | _ => none

theorem reads_executables {items : List (GraphClient.OperationDefinition ⊕ GraphClient.FragmentDefinition)}
    (h : ∀ item ∈ items, Sum.elim OperationDefinition.isWellFormed FragmentDefinition.isWellFormed item ∧
        .infinite true ∉ Sum.elim OperationDefinition.floats FragmentDefinition.floats item) :
    (Rule.Many definition).Reads (items.flatMap (Sum.elim OperationDefinition.words FragmentDefinition.words))
      fun nodes => nodes.map (executable? source) = items.map fun item => some (item.map
        (fun definition => definition.reread.relocate .erase) fun fragment => fragment.reread.relocate .erase) := by
  refine .many fun item hi => ?_
  obtain ⟨hf, hl⟩ := h item hi
  cases item with
  | inl definition =>
    exact .inr (.inl ((reads_operation source hf hl).last fun node hn =>
      .pure (congrArg (some ∘ Sum.inl) hn)))
  | inr definition =>
    exact .inr (.inr ((reads_fragment source hf hl).last fun node hn =>
      .pure (congrArg (some ∘ Sum.inr) hn)))

end Syntax.Grammar

/-- **A text is read without a report when the grammar reads its words.** -/
theorem Syntax.parse_of_reads {text : String} {words : List Word} {P : List Definition → Prop}
    (h : Lexes Closed text words) (he : (Rule.Many Grammar.definition).Reads words P) (source : Nat) :
    ∃ defns span, parse source text = (⟨defns, span⟩, []) ∧ P defns := by
  obtain ⟨ts, last, ht, hw, hl⟩ := h.tokenize
  obtain ⟨defns, hm, hP, hr⟩ := he ts last hw
  have hd : Grammar.Derives (tokenize text) _ := ht ▸ Grammar.Derives.mk hl hm
  refine ⟨defns, _, parse_of_derives source ?_ hd, hP⟩
  rw [ht]
  exact forall_mem_append.mpr ⟨hr, forall_mem_singleton.mpr (by rw [hl]; nofun)⟩

/-! ## Request documents -/

theorem Document.relocate_ofSyntax {source : Nat} {nodes : List Syntax.Definition} {span : Span}
    {items : List (OperationDefinition ⊕ FragmentDefinition)} (h : nodes.map (executable? source) = items.map some) :
    (Document.ofSyntax source ⟨nodes, span⟩).relocate .erase =
      ⟨0, [], [], [], [], items.filterMap Sum.getLeft?, items.filterMap Sum.getRight?⟩ := by
  induction nodes generalizing items with
  | nil =>
    obtain rfl := map_eq_nil_iff.mp h.symm
    rfl
  | cons node nodes ih =>
    cases items with
    | nil => cases h
    | cons item items =>
      obtain ⟨hn, ho⟩ := cons.inj h
      have hr := ih ho
      simp only [ofSyntax, relocate] at hr ⊢
      match node, hn with
      | .operation node, hn | .fragment node, hn =>
        obtain rfl := Option.some.inj hn
        simpa [filterMap_cons] using hr

/-- The definitions of a request document, in the order in which they are printed. -/
def BoundOperation.parts (operation : BoundOperation) (fragments : NameMap BoundFragment) :
    List (OperationDefinition ⊕ FragmentDefinition) :=
  .inl operation.unbind :: (operation.usedFragments fragments).map fun fragment => .inr fragment.unbind

/-- **What is read of a request document.** -/
def BoundOperation.rereadDocument (operation : BoundOperation) (fragments : NameMap BoundFragment) (source : Nat) :
    Document :=
  { operation.requestDocument fragments source with
    operations := [operation.unbind.reread]
    fragments := (operation.usedFragments fragments).map fun fragment => fragment.unbind.reread }

section Request

variable {op : BoundOperation} {frags : NameMap BoundFragment} (h : op.unbind.isWellFormed)
  (hfragments : ∀ fragment ∈ op.usedFragments frags, fragment.unbind.isWellFormed)

include h hfragments

theorem BoundOperation.spells_document : Spells Closed (op.document frags)
      ((op.parts frags).flatMap (Sum.elim OperationDefinition.words FragmentDefinition.words)) := by
  have hs : Shut "\n\n" := fun _ => rfl
  have ha : ∀ part ∈ Sum.inl op :: (op.usedFragments frags).map Sum.inr,
      Spells Closed (Sum.elim Printer.operation Printer.fragment part)
        (Sum.elim (fun bound => bound.unbind.words) (fun bound => bound.unbind.words) part) := by
    intro part hp
    rcases mem_cons.mp hp with rfl | hp
    · exact Printer.spells_operation h
    · obtain ⟨frag, hf, rfl⟩ := mem_map.mp hp
      exact Printer.spells_fragment (hfragments frag hf)
  have ht := (Worded.intercalate (Worded.line.before .line) hs ha).append .line fun _ _ => rfl
  rw [map_cons, map_map, append_nil, flatMap_cons, flatMap_map] at ht
  rw [BoundOperation.parts, flatMap_cons, flatMap_map]
  exact ht.closed

/-- **A request document is read without a report**, unless there is a negative infinity in it. -/
theorem Document.read_document (hl : .infinite true ∉ op.unbind.floats)
    (hfl : ∀ frag ∈ op.usedFragments frags, .infinite true ∉ frag.unbind.floats)
    (source : Nat) (path : String) : (Document.read ⟨source, path, op.document frags⟩).2 = [] ∧
      (Document.read ⟨source, path, op.document frags⟩).1.relocate .erase =
        (op.rereadDocument frags source).relocate .erase := by
  have ha : ∀ part ∈ op.parts frags, Sum.elim OperationDefinition.isWellFormed FragmentDefinition.isWellFormed part ∧
        .infinite true ∉ Sum.elim OperationDefinition.floats FragmentDefinition.floats part := by
    intro part hp
    rcases mem_cons.mp hp with rfl | hp
    · exact ⟨h, hl⟩
    · obtain ⟨frag, hf, rfl⟩ := mem_map.mp hp
      exact ⟨hfragments frag hf, hfl frag hf⟩
  obtain ⟨nodes, span, hpa, hn⟩ := Syntax.parse_of_reads
    (BoundOperation.spells_document h hfragments).lexes (reads_executables source ha) source
  have hi : nodes.map (executable? source) = ((op.parts frags).map (Sum.map
      (fun defn => defn.reread.relocate .erase) fun frag => frag.reread.relocate .erase)).map some := by
    rw [hn, map_map]
    rfl
  simp only [Document.read, hpa, Document.relocate_ofSyntax hi]
  simp [BoundOperation.parts, BoundOperation.rereadDocument, BoundOperation.requestDocument, Document.relocate,
    filterMap_cons, Function.comp_def]

end Request

/-- **A request document without floats is read as it is.** -/
theorem BoundOperation.rereadDocument_eq {op : BoundOperation} {frags : NameMap BoundFragment}
    (h : op.unbind.floats = []) (hf : ∀ frag ∈ op.usedFragments frags, frag.unbind.floats = []) (source : Nat) :
    op.rereadDocument frags source = op.requestDocument frags source := by
  rw [rereadDocument, OperationDefinition.reread_eq_self h,
    map_congr_left fun frag hm => FragmentDefinition.reread_eq_self (hf frag hm)]
  rfl

end GraphClient
