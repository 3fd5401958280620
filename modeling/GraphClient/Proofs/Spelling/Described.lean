import GraphClient.Proofs.Spelling.SchemaDocument

/-!
# Described elements

The descriptions of a schema in one list, and what is read of them. Definitions and their members are
printed with their descriptions, arguments without.

* **`TypeDefinition.described_reread`**, **`DirectiveDefinition.described_reread`**: what is read of them.
* **`TypeDefinition.reread_eq_plain`**, **`DirectiveDefinition.reread_eq_plain`**: definitions that are read as
  they were, apart from the descriptions of arguments.
-/

namespace GraphClient

open List InputValueDefinition DirectiveUse

inductive DescribedKind
  /-- A type or directive. -/
  | definition
  /-- A field, enum value or input field. -/
  | member
  /-- An argument of a field or directive. -/
  | argument
deriving DecidableEq

/-- **An element with its description.** -/
structure Described where
  path : List String
  kind : DescribedKind
  text : Option String
deriving DecidableEq

def Described.reread (entry : Described) : Described :=
  match entry.kind with
  | .definition => { entry with text := entry.text.map (Text.reread 0) }
  | .member => { entry with text := entry.text.map (Text.reread 1) }
  | .argument => { entry with text := none }

/-- Whether the description, if there is one, is a single line. -/
def Described.isLine (entry : Described) : Bool := entry.text.all fun text => !text.toList.contains '\n'

def InputValueDefinition.described (kind : DescribedKind) (owner : List String) (input : InputValueDefinition) :
    Described := ⟨owner ++ [input.name], kind, input.description⟩

def FieldDefinition.described (owner : List String) (field : FieldDefinition) : List Described :=
  ⟨owner ++ [field.name], .member, field.description⟩ ::
    field.arguments.map (InputValueDefinition.described .argument (owner ++ [field.name]))

def EnumValueDefinition.described (owner : List String) (value : EnumValueDefinition) : Described :=
  ⟨owner ++ [value.name], .member, value.description⟩

/-- The elements that a type declares. -/
def TypeBody.described (owner : List String) : TypeBody → List Described
  | .scalar => []
  | .object _ fields => fields.flatMap (FieldDefinition.described owner)
  | .interface _ fields => fields.flatMap (FieldDefinition.described owner)
  | .union _ => []
  | .enum values => values.map (EnumValueDefinition.described owner)
  | .inputObject fields => fields.map (InputValueDefinition.described .member owner)

def TypeDefinition.described (type : TypeDefinition) : List Described :=
  ⟨[type.name], .definition, type.description⟩ :: type.body.described [type.name]

def DirectiveDefinition.described (directive : DirectiveDefinition) : List Described :=
  ⟨["@" ++ directive.name], .definition, directive.description⟩ ::
    directive.arguments.map (InputValueDefinition.described .argument ["@" ++ directive.name])

/-- **The described elements of a registry**: directives and types, each in front of what it declares. -/
def Registry.descriptions (registry : Registry) : List Described :=
  registry.userDirectives.flatMap DirectiveDefinition.described ++ registry.userTypes.flatMap TypeDefinition.described

variable {owner : List String} (dir : DirectiveDefinition)

section Relocate

variable (move : Location → Location)

theorem FieldDefinition.described_relocate (owner : List String) (f : FieldDefinition) :
    (f.relocate move).described owner = f.described owner := by
  simp only [described, relocate, map_map]
  rfl

theorem TypeDefinition.described_relocate (type : TypeDefinition) :
    (type.relocate move).described = type.described := by
  obtain ⟨name, desc, dirs, body, loc⟩ := type
  cases body with
  | scalar | union members => rfl
  | _ =>
    simp only [described, relocate, TypeBody.described, TypeBody.relocate, flatMap_map, map_map,
      FieldDefinition.described_relocate] <;> rfl

theorem DirectiveDefinition.described_relocate : (dir.relocate move).described = dir.described := by
  simp only [described, relocate, map_map]
  rfl

end Relocate

theorem FieldDefinition.described_reread (owner : List String) (f : FieldDefinition) :
    f.reread.described owner = (f.described owner).map .reread := by
  simp only [described, reread, map_map, map_cons]
  rfl

theorem TypeDefinition.described_reread (type : TypeDefinition) :
    type.reread.described = type.described.map .reread := by
  obtain ⟨name, desc, dirs, body, loc⟩ := type
  cases body with
  | scalar | union members => rfl
  | _ =>
    simp only [described, reread, TypeBody.described, TypeBody.reread, flatMap_map, map_flatMap,
      map_map, map_cons, FieldDefinition.described_reread]
    rfl

theorem DirectiveDefinition.described_reread : dir.reread.described = dir.described.map .reread := by
  simp only [described, reread, map_map, map_cons]
  rfl

theorem Text.map_reread_of_line {depth : Nat} {text : Option String}
    (h : (text.all fun line => !line.toList.contains '\n')) : text.map (reread depth) = text := by
  cases text with
  | none => rfl
  | some line =>
    rw [Option.all_some, Bool.not_eq_true'] at h
    rw [Option.map_some, Text.reread, Printer.isBlock, h]
    rfl

namespace InputValueDefinition

variable {input : InputValueDefinition}

theorem reread_eq (h : input.floats = []) :
    input.reread = { input with description := input.description.map (Text.reread 1) } := by
  obtain ⟨hd, hi⟩ := append_eq_nil_iff.mp h
  rw [reread, Value.map_reread_eq_self hd, DirectiveUse.map_reread_eq_self hi]

theorem reread_eq_self (h : input.floats = []) (hl : (input.described .member owner).isLine) :
    input.reread = input := by
  have hd : input.description.map (Text.reread 1) = input.description := Text.map_reread_of_line hl
  rw [reread_eq h, hd]

theorem undescribed_reread (h : input.floats = []) : input.reread.undescribed = input.undescribed := by
  rw [reread_eq h]
  rfl

theorem map_undescribed_reread {inputs : List InputValueDefinition} (h : inputs.flatMap floats = []) :
    (inputs.map fun input => input.reread.undescribed) = inputs.map undescribed :=
  map_congr_left fun _ hi => undescribed_reread (flatMap_eq_nil_iff.mp h _ hi)

end InputValueDefinition

theorem FieldDefinition.reread_eq_plain {f : FieldDefinition} (h : f.floats = [])
    (hl : ∀ e ∈ f.described owner, e.isLine) : f.reread = f.plain := by
  obtain ⟨ha, hd⟩ := append_eq_nil_iff.mp h
  rw [reread, map_undescribed_reread ha, map_reread_eq_self hd, Text.map_reread_of_line (hl _ mem_cons_self), plain]

theorem EnumValueDefinition.reread_eq_self {value : EnumValueDefinition} (h : value.floats = [])
    (hl : (value.described owner).isLine) : value.reread = value := by
  have hd : value.description.map (Text.reread 1) = value.description := Text.map_reread_of_line hl
  rw [reread, map_reread_eq_self h, hd]

theorem TypeBody.reread_eq_plain {body : TypeBody} (h : body.floats = [])
    (hl : ∀ e ∈ body.described owner, e.isLine) : body.reread = body.plain := by
  have hfi : ∀ {fields : List FieldDefinition}, fields.flatMap FieldDefinition.floats = [] →
      (∀ e ∈ fields.flatMap (FieldDefinition.described owner), e.isLine) →
      fields.map FieldDefinition.reread = fields.map FieldDefinition.plain := fun hfl hli =>
    map_congr_left fun field hf =>
      FieldDefinition.reread_eq_plain (flatMap_eq_nil_iff.mp hfl field hf)
        fun e he => hli e (mem_flatMap.mpr ⟨field, hf, he⟩)
  cases body with
  | scalar | union members => rfl
  | object impls fields | interface impls fields => rw [reread, hfi h hl, plain]
  | enum vals =>
    rw [reread, plain, map_eq_self fun value hv => EnumValueDefinition.reread_eq_self
      (flatMap_eq_nil_iff.mp h value hv) (hl _ (mem_map_of_mem hv))]
    all_goals simp
  | inputObject fields =>
    rw [reread, plain, map_eq_self fun input hi => reread_eq_self
      (flatMap_eq_nil_iff.mp h input hi) (hl _ (mem_map_of_mem hi))]
    all_goals simp

theorem TypeDefinition.reread_eq_plain {type : TypeDefinition} (h : type.floats = [])
    (hl : ∀ e ∈ type.described, e.isLine) : type.reread = type.plain := by
  obtain ⟨hd, hb⟩ := append_eq_nil_iff.mp h
  obtain ⟨hf, hr⟩ := forall_mem_cons.mp hl
  rw [reread, map_reread_eq_self hd, TypeBody.reread_eq_plain hb hr, Text.map_reread_of_line hf, plain]

theorem DirectiveDefinition.reread_eq_plain {dir : DirectiveDefinition} (h : dir.floats = [])
    (hl : ∀ e ∈ dir.described, e.isLine) : dir.reread = dir.plain := by
  rw [reread, map_undescribed_reread h, Text.map_reread_of_line (hl _ mem_cons_self), plain]

end GraphClient
