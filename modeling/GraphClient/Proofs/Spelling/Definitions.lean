import GraphClient.Proofs.Spelling.Descriptions

/-!
# Written schema definitions

* **`Printer.lexes_type`**, **`Printer.lexes_directiveDefinition`**: the printed definitions have these words.
-/

namespace GraphClient

open List Printer InputValueDefinition TypeBody Text Bool

/-! ## Definitions without descriptions of arguments -/

def InputValueDefinition.undescribed (input : InputValueDefinition) : InputValueDefinition :=
  { input with description := none }

def FieldDefinition.plain (field : FieldDefinition) : FieldDefinition :=
  { field with arguments := field.arguments.map .undescribed }

def TypeBody.plain : TypeBody → TypeBody
  | .object implements fields => .object implements (fields.map .plain)
  | .interface implements fields => .interface implements (fields.map .plain)
  | body => body

def TypeDefinition.plain (type : TypeDefinition) : TypeDefinition := { type with body := type.body.plain }

def DirectiveDefinition.plain (directive : DirectiveDefinition) : DirectiveDefinition :=
  { directive with arguments := directive.arguments.map .undescribed }

theorem FieldDefinition.arguments_plain (f : FieldDefinition) : f.plain.arguments = f.arguments.map undescribed := rfl

/-! ## Lists of words -/

/-- The words of names behind `head`, with a separator between them; none when there are no names. -/
def chainWords (head : Word) (separator : Mark) : List String → List Word
  | [] => []
  | name :: names => head :: .name name :: names.flatMap fun name => [.mark separator, .name name]

def bracedWords {α : Type} (spell : α → List Word) (items : List α) : List Word :=
  .mark .leftBrace :: (items.flatMap spell ++ [.mark .rightBrace])

namespace Printer

theorem lexes_chain {first next : String} {he : Word} {sep : Mark}
    (hf : Lexes Any first [he]) (hn : Lexes Any next [.mark sep])
    (hs : Shut first) (hs' : Shut next) {names : List String} (h : ∀ name ∈ names, isName name) :
    Trails true (chain first next names) (chainWords he sep names) := by
  cases names with
  | nil => exact .empty
  | cons name names =>
    rw [forall_mem_cons] at h
    have hr : Trails true (String.join (names.map (next ++ ·)))
        (names.flatMap fun name => [.mark sep, .name name]) :=
      .join fun other ho => .shut (hn.before (.name (h.2 other ho))) (hs'.append _)
    exact .shut ((hf.before (.name h.1)).behind hr) ((hs.append _).append _)

theorem lexes_block {α : Type} {text : α → String} {words : α → List Word} {items : List α}
    (h : ∀ item ∈ items, Lexes Closed (text item) (words item)) :
    Trails true (block (items.map text)) (bracedWords words items) := by
  have he : block (items.map text) = braced 0 (items.map text) := by
    have hi : indent 0 = "" := rfl
    rw [block, braced, hi, String.append_empty]
  rw [he]
  exact spells_braced 0 h

end Printer

/-! ## Input values -/

namespace InputValueDefinition

def isWellFormed (input : InputValueDefinition) : Bool :=
  isName input.name && isName input.type.name &&
    input.defaultValue.all (Value.isWellFormed true) && input.directives.all (DirectiveUse.isWellFormed true)

def floats (input : InputValueDefinition) : List Binary64 :=
  input.defaultValue.toList.flatMap Value.floats ++ input.directives.flatMap DirectiveUse.floats

def words (input : InputValueDefinition) : List Word :=
  .name input.name :: .mark .colon :: (input.type.words ++
    (VariableDefinition.defaultWords input.defaultValue ++ input.directives.flatMap DirectiveUse.words))

def fieldWords (input : InputValueDefinition) : List Word :=
  descriptionWords 1 input.description ++ input.words

def reread (input : InputValueDefinition) : InputValueDefinition :=
  { input with
    description := input.description.map (Text.reread 1)
    defaultValue := input.defaultValue.map .reread
    directives := input.directives.map .reread }

end InputValueDefinition

namespace Printer

variable {input : InputValueDefinition}

theorem spells_inputValue (h : input.isWellFormed) : Spells Closed (inputValue input) input.words := by
  simp only [isWellFormed, and_eq_true] at h
  obtain ⟨⟨⟨hn, ht⟩, hd⟩, hi⟩ := h
  have hh := ((Worded.name hn).append Value.spells_colon fun _ _ => rfl).before (TypeRef.spells_text ht)
  have ha := (hh.behind (spells_default hd)).behind (spells_directives hi)
  exact ha.congr (by simp [words])

theorem lexes_inputField (h : input.isWellFormed) : Lexes Closed (inputField input) input.fieldWords :=
  (lexes_description 1 input.description).before (spells_inputValue h).lexes

theorem spells_argumentDefinitions {inputs : List InputValueDefinition} (h : inputs.all isWellFormed) :
    Trails false (argumentDefinitions inputs) (enclosed words inputs) := by
  rw [all_eq_true] at h
  exact spells_parenthesized fun input hi => spells_inputValue (h input hi)

end Printer

/-! ## Fields and enum values -/

namespace FieldDefinition

def isWellFormed (field : FieldDefinition) : Bool :=
  Text.isName field.name && field.arguments.all InputValueDefinition.isWellFormed &&
    Text.isName field.type.name && field.directives.all (DirectiveUse.isWellFormed true)

def floats (field : FieldDefinition) : List Binary64 :=
  field.arguments.flatMap InputValueDefinition.floats ++ field.directives.flatMap DirectiveUse.floats

def bareWords (field : FieldDefinition) : List Word :=
  .name field.name :: (enclosed words field.arguments ++
    (.mark .colon :: (field.type.words ++ field.directives.flatMap DirectiveUse.words)))

def words (field : FieldDefinition) : List Word :=
  descriptionWords 1 field.description ++ field.bareWords

def reread (field : FieldDefinition) : FieldDefinition :=
  { field with
    description := field.description.map (Text.reread 1)
    arguments := field.arguments.map fun input => input.reread.undescribed
    directives := field.directives.map .reread }

end FieldDefinition

namespace EnumValueDefinition

def isWellFormed (value : EnumValueDefinition) : Bool :=
  isName value.name && !Value.isReserved value.name &&
    value.directives.all (DirectiveUse.isWellFormed true)

def floats (value : EnumValueDefinition) : List Binary64 := value.directives.flatMap DirectiveUse.floats

def words (value : EnumValueDefinition) : List Word :=
  descriptionWords 1 value.description ++
    .name value.name :: value.directives.flatMap DirectiveUse.words

def reread (value : EnumValueDefinition) : EnumValueDefinition :=
  { value with
    description := value.description.map (Text.reread 1)
    directives := value.directives.map .reread }

end EnumValueDefinition

namespace Printer

theorem lexes_field {f : FieldDefinition} (h : f.isWellFormed) : Lexes Closed (Printer.field f) f.words := by
  simp only [FieldDefinition.isWellFormed, and_eq_true] at h
  obtain ⟨⟨⟨hn, ha⟩, hy⟩, hd⟩ := h
  have hh := ((lexes_description 1 f.description).before (.name hn)).behind
    (spells_argumentDefinitions ha).lexes
  have ht := (hh.append Value.spells_colon fun _ _ => rfl).before (TypeRef.spells_text hy).lexes
  exact (ht.behind (spells_directives hd).lexes).congr
    (by simp [FieldDefinition.words, FieldDefinition.bareWords])

theorem lexes_enumValue {v : EnumValueDefinition} (h : v.isWellFormed) : Lexes Closed (enumValue v) v.words := by
  simp only [EnumValueDefinition.isWellFormed, and_eq_true] at h
  obtain ⟨⟨hn, -⟩, hd⟩ := h
  have hh := (lexes_description 1 v.description).before (.name hn)
  exact (hh.behind (spells_directives hd).lexes).congr (by simp [EnumValueDefinition.words])

end Printer

/-! ## Types -/

namespace TypeBody

def isWellFormed : TypeBody → Bool
  | .scalar => true
  | .object implements fields =>
    implements.all (fun entry => Text.isName entry.name) && fields.all FieldDefinition.isWellFormed
  | .interface implements fields =>
    implements.all (fun entry => Text.isName entry.name) && fields.all FieldDefinition.isWellFormed
  | .union members => members.all fun entry => isName entry.name
  | .enum values => values.all EnumValueDefinition.isWellFormed
  | .inputObject fields => fields.all InputValueDefinition.isWellFormed

def floats : TypeBody → List Binary64
  | .scalar => []
  | .object _ fields => fields.flatMap FieldDefinition.floats
  | .interface _ fields => fields.flatMap FieldDefinition.floats
  | .union _ => []
  | .enum values => values.flatMap EnumValueDefinition.floats
  | .inputObject fields => fields.flatMap InputValueDefinition.floats

/-- The word that starts the definition of a type. -/
def keyword : TypeBody → Keyword
  | .scalar => .scalar
  | .object .. => .type
  | .interface .. => .interface
  | .union _ => .union
  | .enum _ => .enum
  | .inputObject _ => .input

def implementsWords (entries : List NamedRef) : List Word :=
  chainWords (.name "implements") .ampersand (entries.map NamedRef.name)

def words (uses : List DirectiveUse) : TypeBody → List Word
  | .scalar => uses.flatMap DirectiveUse.words
  | .object implements fields =>
    implementsWords implements ++ (uses.flatMap DirectiveUse.words ++ bracedWords FieldDefinition.words fields)
  | .interface implements fields =>
    implementsWords implements ++ (uses.flatMap DirectiveUse.words ++ bracedWords FieldDefinition.words fields)
  | .union members =>
    uses.flatMap DirectiveUse.words ++ chainWords (.mark .equals) .pipe (members.map NamedRef.name)
  | .enum values => uses.flatMap DirectiveUse.words ++ bracedWords EnumValueDefinition.words values
  | .inputObject fields => uses.flatMap DirectiveUse.words ++ bracedWords InputValueDefinition.fieldWords fields

def reread : TypeBody → TypeBody
  | .scalar => .scalar
  | .object implements fields => .object implements (fields.map .reread)
  | .interface implements fields => .interface implements (fields.map .reread)
  | .union members => .union members
  | .enum values => .enum (values.map .reread)
  | .inputObject fields => .inputObject (fields.map .reread)

end TypeBody

namespace TypeDefinition

/-- **Whether a type can be written.** -/
def isWellFormed (type : TypeDefinition) : Bool :=
  Text.isName type.name && type.directives.all (DirectiveUse.isWellFormed true) && type.body.isWellFormed

def floats (type : TypeDefinition) : List Binary64 :=
  type.directives.flatMap DirectiveUse.floats ++ type.body.floats

def bareWords (type : TypeDefinition) : List Word :=
  ⟨.keyword type.body.keyword, type.body.keyword.text⟩ :: .name type.name :: type.body.words type.directives

/-- **The words of a type.** -/
def words (type : TypeDefinition) : List Word :=
  descriptionWords 0 type.description ++ type.bareWords

/-- **What is read of a printed type.** -/
def reread (type : TypeDefinition) : TypeDefinition :=
  { type with
    description := type.description.map (Text.reread 0)
    directives := type.directives.map .reread
    body := type.body.reread }

end TypeDefinition

theorem Printer.lexes_type {type : TypeDefinition} (h : type.isWellFormed) :
    Lexes Closed (Printer.type type) type.words := by
  obtain ⟨name, desc, dirs, body, loc⟩ := type
  simp only [TypeDefinition.isWellFormed, and_eq_true] at h
  obtain ⟨⟨hnam, hd⟩, hb⟩ := h
  have hd := (spells_directives hd).lexes
  have hw : ∀ word : Keyword, isName word.text → Word.nameKind word.text = .keyword word →
      Lexes Closed (word.text ++ " " ++ name) [⟨.keyword word, word.text⟩, .name name] := by
    intro word hin hk
    have hs : Lexes Closed word.text [⟨.keyword word, word.text⟩] := by
      rw [← hk]
      exact .name hin
    exact (hs.append .space fun _ _ => rfl).before (.name hnam)
  have ha : ∀ {es : List NamedRef}, (es.all fun e => isName e.name) →
      ∀ name ∈ es.map NamedRef.name, isName name := by
    intro es he
    rw [all_eq_true] at he
    exact forall_mem_map.mpr he
  have hi : ∀ {es : List NamedRef}, (es.all fun e => isName e.name) →
      Trails true (chain " implements " " & " (es.map NamedRef.name)) (implementsWords es) := by
    intro es he
    have hr : Lexes Any " implements " [.name "implements"] := .spaced "implements" (.name rfl)
    have hn : Lexes Any " & " [.mark .ampersand] := .spaced _ (Worded.mark .ampersand).closed
    exact lexes_chain hr hn (fun _ => rfl) (fun _ => rfl) (ha he)
  have hfi : ∀ {text : String} {words : List Word} {impls : List NamedRef} {fields : List FieldDefinition},
      Lexes Closed text words → (TypeBody.object impls fields).isWellFormed →
      Lexes Closed (text ++ chain " implements " " & " (impls.map NamedRef.name) ++ Printer.directives dirs ++
          block (fields.map field)) (words ++ implementsWords impls ++
        dirs.flatMap DirectiveUse.words ++ bracedWords FieldDefinition.words fields) := by
    intro text words impls fields ht hb
    rw [TypeBody.isWellFormed, and_eq_true, all_eq_true (l := fields)] at hb
    exact ((ht.behind (hi hb.1)).behind hd).behind
      (lexes_block fun field hf => lexes_field (hb.2 field hf))
  refine (lexes_description 0 desc).before ?_
  cases body with
  | scalar => exact (hw .scalar rfl rfl).behind hd
  | object impls fields =>
    exact (hfi (hw .type rfl rfl) hb).congr (by simp [TypeDefinition.bareWords, TypeBody.words, keyword])
  | interface impls fields =>
    exact (hfi (hw .interface rfl rfl) hb).congr
      (by simp [TypeDefinition.bareWords, TypeBody.words, keyword])
  | union members =>
    have hr : Lexes Any " = " [.mark .equals] := .spaced _ (Worded.mark .equals).closed
    have hn : Lexes Any " | " [.mark .pipe] := .spaced _ (Worded.mark .pipe).closed
    have hm := lexes_chain hr hn (fun _ => rfl) (fun _ => rfl) (ha hb)
    exact (((hw .union rfl rfl).behind hd).behind hm).congr
      (by simp [TypeDefinition.bareWords, TypeBody.words, keyword])
  | enum vals =>
    rw [TypeBody.isWellFormed, all_eq_true] at hb
    have hl := lexes_block fun value hv => lexes_enumValue (hb value hv)
    exact (((hw .enum rfl rfl).behind hd).behind hl).congr
      (by simp [TypeDefinition.bareWords, TypeBody.words, keyword])
  | inputObject fields =>
    rw [TypeBody.isWellFormed, all_eq_true] at hb
    have hl := lexes_block fun field hf => lexes_inputField (hb field hf)
    exact (((hw .input rfl rfl).behind hd).behind hl).congr
      (by simp [TypeDefinition.bareWords, TypeBody.words, keyword])

/-! ## Directive definitions -/

namespace DirectiveDefinition

/-- **Whether a directive definition can be written.** -/
def isWellFormed (directive : DirectiveDefinition) : Bool :=
  Text.isName directive.name && directive.arguments.all InputValueDefinition.isWellFormed &&
    !directive.locations.isEmpty

def floats (directive : DirectiveDefinition) : List Binary64 :=
  directive.arguments.flatMap InputValueDefinition.floats

def bareWords (directive : DirectiveDefinition) : List Word :=
  .name "directive" :: .mark .atSign :: .name directive.name ::
    (enclosed words directive.arguments ++
      ((if directive.repeatable then [.name "repeatable"] else []) ++
        chainWords (.name "on") .pipe (directive.locations.map DirectiveLocation.text)))

/-- **The words of a directive definition.** -/
def words (directive : DirectiveDefinition) : List Word :=
  descriptionWords 0 directive.description ++ directive.bareWords

/-- **What is read of a printed directive definition.** -/
def reread (directive : DirectiveDefinition) : DirectiveDefinition :=
  { directive with
    description := directive.description.map (Text.reread 0)
    arguments := directive.arguments.map fun input => input.reread.undescribed }

end DirectiveDefinition

theorem DirectiveLocation.isName_text (place : DirectiveLocation) : isName place.text := by
  cases place <;> rfl

theorem Printer.lexes_directiveDefinition {dir : DirectiveDefinition} (h : dir.isWellFormed) :
    Lexes Closed (directiveDefinition dir) dir.words := by
  simp only [DirectiveDefinition.isWellFormed, and_eq_true] at h
  obtain ⟨⟨hn, ha⟩, -⟩ := h
  have hw : Lexes Closed "directive" [.name "directive"] := .name rfl
  have hs : Lexes Any "directive @" [.name "directive", .mark .atSign] :=
    (hw.append .space fun _ _ => rfl).before (.mark .atSign)
  have hr : Trails true (if dir.repeatable then " repeatable" else "")
      (if dir.repeatable then [.name "repeatable"] else []) := by
    split
    · have hn : Lexes Closed "repeatable" [.name "repeatable"] := .name rfl
      exact .shut (Worded.space.before hn) fun _ => rfl
    · exact .empty
  have hp : Trails true (chain " on " " | " (dir.locations.map DirectiveLocation.text))
      (chainWords (.name "on") .pipe (dir.locations.map DirectiveLocation.text)) := by
    have hf : Lexes Any " on " [.name "on"] := .spaced "on" (.name rfl)
    have he : Lexes Any " | " [.mark .pipe] := .spaced _ (Worded.mark .pipe).closed
    refine lexes_chain hf he (fun _ => rfl) (fun _ => rfl) ?_
    exact forall_mem_map.mpr fun place _ => place.isName_text
  have hh := ((lexes_description 0 dir.description).before hs).before (.name hn)
  have hl := ((hh.behind (spells_argumentDefinitions ha).lexes).behind hr).behind hp
  exact hl.congr (by simp [DirectiveDefinition.words, DirectiveDefinition.bareWords])

/-! ## Schema blocks -/

def rootWords (root : OperationKind × NamedRef) : List Word :=
  [.name root.1.text, .mark .colon, .name root.2.name]

namespace SchemaDefinition

def isWellFormed (schema : SchemaDefinition) : Bool :=
  schema.directives.all (DirectiveUse.isWellFormed true) &&
    schema.roots.all fun root => isName root.2.name

def floats (schema : SchemaDefinition) : List Binary64 := schema.directives.flatMap DirectiveUse.floats

def words (schema : SchemaDefinition) : List Word :=
  .name "schema" :: (schema.directives.flatMap DirectiveUse.words ++ bracedWords rootWords schema.roots)

def reread (schema : SchemaDefinition) : SchemaDefinition :=
  { schema with directives := schema.directives.map .reread }

end SchemaDefinition

def Registry.schema (registry : Registry) : SchemaDefinition :=
  ⟨none, registry.schemaDirectives, registry.roots, false, .builtin⟩

/-- **The printed schema block has the words of the block.** -/
theorem Printer.lexes_schemaBlock {reg : Registry} (h : reg.schema.isWellFormed) :
    Lexes Closed (schemaBlock reg) reg.schema.words := by
  rw [SchemaDefinition.isWellFormed, and_eq_true, all_eq_true (l := reg.schema.roots)] at h
  have hr : ∀ root ∈ reg.roots, Lexes Closed (root.1.text ++ ": " ++ root.2.name) (rootWords root) := by
    intro root hr
    have hk : isName root.1.text := by cases root.1 <;> rfl
    exact ((Worded.name hk).append Value.spells_colon fun _ _ => rfl).before (.name (h.2 root hr))
  have hw : Lexes Closed "schema" [.name "schema"] := .name rfl
  exact ((hw.behind (spells_directives h.1).lexes).behind (lexes_block hr)).congr
    (by simp [SchemaDefinition.words, Registry.schema])

end GraphClient
