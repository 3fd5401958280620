import GraphClient.Document.OfSyntax
import GraphClient.Proofs.Decimal.Text
import GraphClient.Proofs.Grammar.Literals
import GraphClient.Proofs.Grammar.Reads
import GraphClient.Proofs.Value

/-!
# Written values

The words of a value, and what is read of them.

* **`Value.spells_text`**: the printed text has these words.
* **`Syntax.Grammar.reads_value`**: a value is read of its words, the same one when it has no float.
-/

namespace GraphClient

open List Value Word

namespace Value

/-- The words that a value cannot be named by. -/
def isReserved (name : String) : Bool := name == "true" || name == "false" || name == "null"

mutual

/-- **Whether a value can be written**: its names are names and its integers have 64 bits. A constant value
has no variables. -/
def isWellFormed (constant : Bool) : Value → Bool
  | .variable name => !constant && Text.isName name
  | .int value => isInt64 value
  | .enum name => Text.isName name && !isReserved name
  | .list items => itemsWellFormed constant items
  | .object fields => fieldsWellFormed constant fields
  | _ => true

def itemsWellFormed (constant : Bool) : List Value → Bool
  | [] => true
  | item :: items => isWellFormed constant item && itemsWellFormed constant items

def fieldsWellFormed (constant : Bool) : List (String × Value) → Bool
  | [] => true
  | (name, value) :: fields =>
    Text.isName name && isWellFormed constant value && fieldsWellFormed constant fields

end

mutual

/-- **The floats in a value**, from left to right. -/
def floats : Value → List Binary64
  | .float value => [value]
  | .list items => itemFloats items
  | .object fields => fieldFloats fields
  | _ => []

def itemFloats : List Value → List Binary64
  | [] => []
  | item :: items => floats item ++ itemFloats items

def fieldFloats : List (String × Value) → List Binary64
  | [] => []
  | (_, value) :: fields => floats value ++ fieldFloats fields

end

/-- **Whether there is a float in a value.** -/
def hasFloat (value : Value) : Bool := !value.floats.isEmpty

mutual

/-- **What is read of a printed value.** The digits of a float are rounded again, and an infinity has no
digits. -/
def reread : Value → Value
  | .float (.infinite _) => .enum "inf"
  | .float value => .float (.ofLiteral value.text.toList)
  | .list items => .list (rereadItems items)
  | .object fields => .object (rereadFields fields)
  | value => value

def rereadItems : List Value → List Value
  | [] => []
  | item :: items => reread item :: rereadItems items

def rereadFields : List (String × Value) → List (String × Value)
  | [] => []
  | (name, value) :: fields => (name, reread value) :: rereadFields fields

end

mutual

/-- **The words of a value.** -/
def words : Value → List Word
  | .variable name => [.mark .dollar, .name name]
  | .int value => [.int value]
  | .float value => value.words
  | .string value => [.string value]
  | .boolean true => [.name "true"]
  | .boolean false => [.name "false"]
  | .null => [.name "null"]
  | .enum name => [.name name]
  | .list items => .mark .leftBracket :: (itemWords items ++ [.mark .rightBracket])
  | .object fields => .mark .leftBrace :: (fieldWords fields ++ [.mark .rightBrace])

def itemWords : List Value → List Word
  | [] => []
  | item :: items => words item ++ itemWords items

def fieldWords : List (String × Value) → List Word
  | [] => []
  | (name, value) :: fields => .name name :: .mark .colon :: words value ++ fieldWords fields

end

def entryWords (field : String × Value) : List Word :=
  .name field.1 :: .mark .colon :: field.2.words

def entryText (field : String × Value) : String := field.1 ++ ": " ++ field.2.text

variable {returns : Bool} (items : List Value) (fields : List (String × Value))

theorem itemWords_eq : itemWords items = items.flatMap words := by
  induction items with
  | nil => rfl
  | cons item items ih => rw [itemWords, ih, flatMap_cons]

theorem fieldWords_eq : fieldWords fields = fields.flatMap entryWords := by
  induction fields with
  | nil => rfl
  | cons f fields ih => rw [fieldWords, ih, flatMap_cons, entryWords]

theorem itemTexts_eq : itemTexts items = items.map text := by
  induction items with
  | nil => rfl
  | cons item items ih => rw [itemTexts, ih, map_cons]

theorem fieldTexts_eq : fieldTexts fields = fields.map entryText := by
  induction fields with
  | nil => rfl
  | cons f fields ih => rw [fieldTexts, ih, map_cons, entryText]

theorem itemsWellFormed_iff {const : Bool} {items : List Value} :
    itemsWellFormed const items ↔ ∀ item ∈ items, isWellFormed const item := by
  induction items with
  | nil => simp [itemsWellFormed]
  | cons item items ih => simp [itemsWellFormed, ih]

theorem fieldsWellFormed_iff {const : Bool} {fields : List (String × Value)} : fieldsWellFormed const fields ↔
      ∀ f ∈ fields, Text.isName f.1 ∧ isWellFormed const f.2 := by
  induction fields with
  | nil => simp [fieldsWellFormed]
  | cons f fields ih => simp [fieldsWellFormed, ih]

theorem itemFloats_eq : itemFloats items = items.flatMap floats := by
  induction items with
  | nil => rfl
  | cons item items ih => rw [itemFloats, ih, flatMap_cons]

theorem fieldFloats_eq : fieldFloats fields = fields.flatMap fun f => f.2.floats := by
  induction fields with
  | nil => rfl
  | cons f fields ih => rw [fieldFloats, ih, flatMap_cons]

theorem rereadItems_eq : rereadItems items = items.map reread := by
  induction items with
  | nil => rfl
  | cons item items ih => rw [rereadItems, ih, map_cons]

theorem rereadFields_eq : rereadFields fields = fields.map fun f => (f.1, f.2.reread) := by
  induction fields with
  | nil => rfl
  | cons f fields ih => rw [rereadFields, ih, map_cons]

/-- **A value without floats is read as it is.** -/
theorem reread_eq_self (value : Value) (h : value.floats = []) : value.reread = value := by
  induction value with
  | float => cases h
  | list items ih =>
    rw [floats, itemFloats_eq, flatMap_eq_nil_iff] at h
    rw [reread, rereadItems_eq, map_congr_left fun item hi => ih item hi (h item hi), map_id']
  | object fields ih =>
    rw [floats, fieldFloats_eq, flatMap_eq_nil_iff] at h
    rw [reread, rereadFields_eq, map_congr_left fun field hf => congrArg (field.1, ·)
      (ih field hf (h field hf)), map_id']
  | _ => rw [reread] <;> nofun

theorem map_reread_eq_self {value : Option Value} (h : value.toList.flatMap floats = []) :
    value.map reread = value := by
  cases value with
  | none => rfl
  | some v =>
    rw [Option.toList_some, flatMap_singleton] at h
    rw [Option.map_some, reread_eq_self v h]

theorem floats_eq_nil_iff {v : Value} : v.floats = [] ↔ v.hasFloat = false := by
  rw [hasFloat, Bool.not_eq_false', List.isEmpty_iff]

theorem spells_colon : Worded returns Any ": " [.mark .colon] := (Worded.mark .colon).before .space

theorem spells_text {const : Bool} (value : Value) (h : value.isWellFormed const) :
    Spells Closed value.text value.words := by
  induction value with
  | «variable» name =>
    rw [isWellFormed, Bool.and_eq_true] at h
    exact (Worded.mark .dollar).before (.name h.2)
  | int value => exact .int value
  | float value => exact .float value
  | string value => exact .string value
  | boolean value => cases value <;> exact .name rfl
  | null => exact .name rfl
  | enum name =>
    rw [isWellFormed, Bool.and_eq_true] at h
    exact .name h.1
  | list items ih =>
    rw [isWellFormed, itemsWellFormed_iff] at h
    rw [text, words, itemTexts_eq, itemWords_eq]
    have ht := Worded.commas fun item hi => ih item hi (h item hi)
    exact (((Worded.mark .leftBracket).before ht).append (.mark .rightBracket) fun _ _ => rfl).closed
  | object fields ih =>
    rw [isWellFormed, fieldsWellFormed_iff] at h
    rw [text, words, fieldTexts_eq, fieldWords_eq]
    have hfi : ∀ field ∈ fields, Spells Closed (entryText field) (entryWords field) := fun field hf =>
      ((Worded.name (h field hf).1).append spells_colon fun _ _ => rfl).before (ih field hf (h field hf).2)
    exact (((Worded.mark .leftBrace).before (.commas hfi)).append (.mark .rightBrace) fun _ _ => rfl).closed

end Value

namespace Syntax.Grammar

open Rule

theorem itemsOfSyntax_eq (items : List Value) : itemsOfSyntax items = items.map ofSyntax := by
  induction items with
  | nil => rfl
  | cons item items ih => rw [itemsOfSyntax, ih, map_cons]

theorem fieldsOfSyntax_eq (fields : List (Name × Value)) :
    fieldsOfSyntax fields = fields.map fun f => (f.1.text, ofSyntax f.2) := by
  induction fields with
  | nil => rfl
  | cons f fields ih => rw [fieldsOfSyntax, ih, map_cons]

theorem reads_name (text : String) : name.Reads [.name text] fun node => node.text = text :=
  .one (fun t hk ht => ⟨⟨t.text, t.span⟩, ⟨hk ▸ isName_name text, rfl⟩, ht⟩)
    (kind_name_ne text rfl)

theorem reads_nameExcept {kinds : List TokenKind} {text : String} (h : (Word.name text).kind ∉ kinds) :
    (nameExcept kinds).Reads [.name text] fun node => node.text = text :=
  .one (fun t hk ht => ⟨⟨t.text, t.span⟩, ⟨hk ▸ isName_name text, hk ▸ h, rfl⟩, ht⟩)
    (kind_name_ne text rfl)

theorem kind_notMem_reserved {name : String} (h : Value.isReserved name = false) :
    (Word.name name).kind ∉ reserved := by
  simp only [Value.isReserved, Bool.or_eq_false_iff, beq_eq_false_iff_ne] at h
  simp only [reserved, mem_cons, not_mem_nil, or_false, not_or]
  exact ⟨kind_name_ne_keyword .trueWord h.1.1, kind_name_ne_keyword .falseWord h.1.2,
    kind_name_ne_keyword .nullWord h.2⟩

section Values

variable {const : Bool}

theorem reads_literal {word : Word} {written : GraphClient.Value}
    (h : ∀ tok : Token, tok.kind = word.kind → tok.text = word.text →
      ∃ node, Literal tok node ∧ ofSyntax node = written) (hw : word.kind ≠ .error := by simp) :
    (value const).Reads [word] fun node => ofSyntax node = written := by
  rw [value_eq]
  exact .inl (.inl (.inl (.inl (.inl (.inr (.one h hw))))))

theorem reads_enum {name : String} (h : Value.isReserved name = false) :
    (value const).Reads [.name name] fun node => ofSyntax node = .enum name :=
  reads_literal (fun _ hk ht => ⟨_, .enum (hk ▸ isName_name name)
    (hk ▸ kind_notMem_reserved h), congrArg enum ht⟩) (kind_name_ne name rfl)

theorem reads_wordValue {keyword : Keyword} {make : Span → Value} {word : Word} {P : Value → Prop}
    (hw : word.kind = .keyword keyword) (h : ∀ span, P (make span)) : (wordValue keyword make).Reads [word] P :=
  .offset fun _ => (Reads.ofKind hw).take fun _ _ => .spanned h

theorem reads_value (written : GraphClient.Value) (h : written.isWellFormed const)
    (hi : .infinite true ∉ written.floats) :
    (value const).Reads written.words fun node => ofSyntax node = written.reread := by
  induction written with
  | «variable» name =>
    rw [isWellFormed, Bool.and_eq_true, Bool.not_eq_true'] at h
    rw [value_eq]
    refine .inl (.inl (.inl (.inl (.inl (.inl (.mark ((reads_name name).last fun node hn => ?_)))))))
    rw [h.1]
    exact .pure (congrArg GraphClient.Value.variable hn)
  | int num =>
    exact reads_literal fun tok hk ht =>
      ⟨_, .int hk (by rw [ht]; exact Parser.intValue?_toString h), rfl⟩
  | float x =>
    match x with
    | .finite .. =>
      exact reads_literal fun tok hk ht => ⟨_, .float hk, by rw [ofSyntax, ht]; rfl⟩
    | .infinite false => exact reads_enum rfl
    | .infinite true => exact absurd mem_cons_self hi
  | string text =>
    exact reads_literal fun tok hk ht =>
      ⟨_, .string (.string hk (by rw [ht]; exact Text.stringValue_quote text)), rfl⟩
  | boolean b =>
    rw [value_eq]
    cases b with
    | true => exact .inl (.inl (.inl (.inl (.inr (reads_wordValue rfl fun _ => rfl)))))
    | false => exact .inl (.inl (.inl (.inr (reads_wordValue rfl fun _ => rfl))))
  | null =>
    rw [value_eq]
    exact .inl (.inl (.inr (reads_wordValue rfl fun _ => rfl)))
  | enum name =>
    rw [isWellFormed, Bool.and_eq_true, Bool.not_eq_true'] at h
    exact reads_enum h.2
  | list items ih =>
    rw [isWellFormed, itemsWellFormed_iff] at h
    rw [floats, itemFloats_eq] at hi
    rw [value_eq, words, itemWords_eq]
    have he := fun item hit => ih item hit (h item hit)
      fun hm => hi (mem_flatMap_of_mem hit hm)
    refine .inl (.inr (.offset fun _ => (Reads.between he).last fun nodes ho => .spanned fun _ => ?_))
    rw [ofSyntax, itemsOfSyntax_eq, ho, reread, rereadItems_eq]
  | object fields ih =>
    rw [isWellFormed, fieldsWellFormed_iff] at h
    rw [floats, fieldFloats_eq] at hi
    rw [value_eq, words, fieldWords_eq]
    have hfi : ∀ field ∈ fields, (objectField (value const)).Reads (entryWords field)
        fun node => (node.1.text, ofSyntax node.2) = (field.1, field.2.reread) := fun field hf => by
      have hv := ih field hf (h field hf).2 fun hm => hi (mem_flatMap_of_mem hf hm)
      refine (reads_name field.1).take fun node hn => .mark (hv.last fun node' hn' => .pure ?_)
      rw [hn, hn']
    refine .inr (.offset fun _ => (Reads.between hfi).last fun nodes ho => .spanned fun _ => ?_)
    rw [ofSyntax, fieldsOfSyntax_eq, ho, reread, rereadFields_eq]

end Values

end Syntax.Grammar

end GraphClient
