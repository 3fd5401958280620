import GraphClient.Proofs.Spelling.Definitions

/-!
# Schema documents

* **`Registry.read_print`**: what is read of a printed schema.
-/

namespace GraphClient

open List NamedRef Function Printer Syntax
open Syntax.Rule (Reads)

namespace Syntax.Grammar

/-! ## Lists -/

variable {α γ δ : Type} {uses : List DirectiveUse}

theorem reads_separated {item : Rule α} (text : δ → String) {view : α → γ} {target : δ → γ}
    (sep : Mark) (first : δ) (rest : List δ)
    (h : ∀ x ∈ first :: rest, item.Reads [.name (text x)] fun a => view a = target x) : (Rule.separated sep item).Reads
      (.name (text first) :: (rest.map text).flatMap fun name => [.mark sep, .name name])
      fun vs => vs.map view = (first :: rest).map target := by
  rw [forall_mem_cons] at h
  have hm : (Rule.mark sep ⊔ pure () : Rule Unit).Reads [] fun _ => True := .inr (.pure trivial)
  refine hm.bind fun _ _ => h.1.take fun a ha => ?_
  rw [flatMap_map]
  refine (Reads.many fun x hx => .mark (h.2 x hx)).last fun vs hv => .pure ?_
  rw [map_cons, map_cons, ha, hv]

theorem reads_chain {kind : TokenKind} {he : Word} (sep : Mark) (hh : he.kind = kind)
    (names : List String) (hk : kind ≠ .error := by decide) :
    (Rule.orEmpty (Rule.ofKind kind >>= fun _ => Rule.separated sep name)).Reads
      (chainWords he sep names) fun nodes => nodes.map Name.text = names := by
  cases names with
  | nil => exact .inr (.pure rfl)
  | cons first rest =>
    refine .inl ((Reads.ofKind hh hk).take fun _ _ => ?_)
    have h := reads_separated id sep first rest fun text _ => reads_name text
    rwa [map_id, map_id'] at h

theorem reads_braced {item : Rule α} {spell : δ → List Word} {view : α → γ} {target : δ → γ}
    {items : List δ} (h : ∀ x ∈ items, item.Reads (spell x) fun a => view a = target x) :
    (body item).Reads (bracedWords spell items) fun nodes => nodes.map view = items.map target := .inl (.between h)

/-! ## Entries -/

variable (source : Nat)

theorem reads_inputValue (desc : Option String) {input : GraphClient.InputValueDefinition}
    (h : input.isWellFormed) (hi : .infinite true ∉ input.floats) :
    inputValueDefinition.Reads (descriptionWords 1 desc ++ input.words)
      fun node => (InputValueDefinition.ofSyntax source node).relocate .erase =
        { input.reread with description := desc.map (Text.reread 1) }.relocate .erase := by
  simp only [InputValueDefinition.isWellFormed, Bool.and_eq_true] at h
  rw [InputValueDefinition.floats, mem_append, not_or] at hi
  refine reads_described 1 desc fun start node ho => (reads_name _).take fun name ha => .mark ?_
  refine (reads_typeExpr input.type).bind fun type ht => ?_
  refine (reads_defaultValue h.1.2 hi.1).bind fun v hv => ?_
  refine (reads_directives source h.2 hi.2).last fun nodes hn => .spanned fun span => ?_
  simp [InputValueDefinition.ofSyntax, InputValueDefinition.relocate, InputValueDefinition.reread, ha, ht,
    hv, ho, comp_def, hn, Location.erase]

theorem reads_argumentDefinitions {inputs : List GraphClient.InputValueDefinition}
    (h : inputs.all InputValueDefinition.isWellFormed)
    (hn : .infinite true ∉ inputs.flatMap InputValueDefinition.floats) :
    argumentDefinitions.Reads (enclosed InputValueDefinition.words inputs)
      fun nodes => nodes.map (fun node => (InputValueDefinition.ofSyntax source node).relocate .erase) =
        inputs.map fun input => input.reread.undescribed.relocate .erase := by
  rw [all_eq_true] at h
  exact reads_enclosed fun input hi => reads_inputValue source none (h input hi)
    fun hm => hn (mem_flatMap.mpr ⟨input, hi, hm⟩)

theorem reads_fieldDefinition {f : GraphClient.FieldDefinition} (h : f.isWellFormed)
    (hi : .infinite true ∉ f.floats) : fieldDefinition.Reads f.words
      fun node => (FieldDefinition.ofSyntax source node).relocate .erase =
        f.reread.relocate .erase := by
  simp only [FieldDefinition.isWellFormed, Bool.and_eq_true] at h
  rw [FieldDefinition.floats, mem_append, not_or] at hi
  refine reads_described 1 f.description fun start node ho => (reads_name _).take fun name hna => ?_
  refine (reads_argumentDefinitions source h.1.1.2 hi.1).bind fun args ha => .mark ?_
  refine (reads_typeExpr f.type).bind fun type ht => ?_
  refine (reads_directives source h.2 hi.2).last fun nodes hn => .spanned fun span => ?_
  simp [FieldDefinition.ofSyntax, FieldDefinition.relocate, FieldDefinition.reread, hna, ht, ho,
    comp_def, hn, ha, Location.erase]

theorem reads_enumValueDefinition {v : GraphClient.EnumValueDefinition} (h : v.isWellFormed)
    (hi : .infinite true ∉ v.floats) : enumValueDefinition.Reads v.words
      fun node => (EnumValueDefinition.ofSyntax source node).relocate .erase =
        v.reread.relocate .erase := by
  simp only [EnumValueDefinition.isWellFormed, Bool.and_eq_true, Bool.not_eq_true'] at h
  refine reads_described 1 v.description fun start node ho => ?_
  refine (reads_nameExcept (kind_notMem_reserved h.1.2)).take fun name ha => ?_
  refine (reads_directives source h.2 hi).last fun nodes hn => .spanned fun span => ?_
  simp [EnumValueDefinition.ofSyntax, EnumValueDefinition.relocate, EnumValueDefinition.reread, ha, ho,
    comp_def, hn, Location.erase]

/-! ## Types -/

theorem map_namedRef {nodes : List Name} {es : List NamedRef} (h : nodes.map Name.text = es.map NamedRef.name) :
    (nodes.map (ofSyntax source)).map (relocate .erase) = es.map (relocate .erase) := by
  have hv : ∀ node, (ofSyntax source node).relocate .erase = ⟨node.text, .builtin⟩ := fun _ => rfl
  have hm := congrArg (map fun name => mk name .builtin) h
  simp only [map_map, comp_def] at hm
  simp only [map_map, comp_def, hv]
  exact hm

theorem reads_fielded (make : List Name → List FieldDefinition → TypeBody)
    (declared : List NamedRef → List GraphClient.FieldDefinition → GraphClient.TypeBody)
    {interfaces : List NamedRef} {fields : List GraphClient.FieldDefinition}
    (hm : ∀ names nodes, TypeBody.ofSyntax source (make names nodes) =
      declared (names.map (ofSyntax source)) (nodes.map (FieldDefinition.ofSyntax source)))
    (hd : ∀ entries fields, (declared entries fields).relocate .erase =
      declared (entries.map (relocate .erase)) (fields.map (FieldDefinition.relocate .erase)))
    (hu : uses.all (DirectiveUse.isWellFormed true)) (hf : fields.all FieldDefinition.isWellFormed)
    (hi : .infinite true ∉ uses.flatMap DirectiveUse.floats ++ fields.flatMap FieldDefinition.floats) :
    (implements >>= fun names => directives true >>= fun nodes => body fieldDefinition >>= fun fields =>
        pure (nodes, make names fields)).Reads (TypeBody.implementsWords interfaces ++
        (uses.flatMap DirectiveUse.words ++ bracedWords FieldDefinition.words fields))
      fun result => result.1.map (fun node => (DirectiveUse.ofSyntax source node).relocate .erase) =
          uses.map (fun use => use.reread.relocate .erase) ∧
        (TypeBody.ofSyntax source result.2).relocate .erase =
          (declared interfaces (fields.map FieldDefinition.reread)).relocate .erase := by
  rw [mem_append, not_or] at hi
  rw [all_eq_true] at hf
  have hb := reads_braced fun field hfi => reads_fieldDefinition source (hf field hfi)
    fun he => hi.2 (mem_flatMap.mpr ⟨field, hfi, he⟩)
  refine (reads_chain .ampersand rfl _).bind fun names hn => ?_
  refine (reads_directives source hu hi.1).bind fun nodes ho => ?_
  refine hb.last fun fieldNodes hfn => .pure ⟨ho, ?_⟩
  rw [hm, hd, hd, map_namedRef source hn, map_map, map_map]
  exact congrArg _ hfn

/-- **Directives and body of a type are read from their words.** -/
theorem reads_typeRest {body : GraphClient.TypeBody}
    (hu : uses.all (DirectiveUse.isWellFormed true)) (hb : body.isWellFormed)
    (hi : .infinite true ∉ uses.flatMap DirectiveUse.floats ++ body.floats) :
    (typeRest body.keyword).Reads (body.words uses)
      fun result => result.1.map (fun node => (DirectiveUse.ofSyntax source node).relocate .erase) =
          uses.map (fun use => use.reread.relocate .erase) ∧
        (TypeBody.ofSyntax source result.2).relocate .erase = body.reread.relocate .erase := by
  have hd := reads_directives source hu fun hm => hi (mem_append_left _ hm)
  cases body with
  | scalar => exact hd.last fun nodes hn => .pure ⟨hn, rfl⟩
  | object interfaces fields =>
    rw [TypeBody.isWellFormed, Bool.and_eq_true] at hb
    exact reads_fielded source TypeBody.object GraphClient.TypeBody.object
      (fun _ _ => rfl) (fun _ _ => rfl) hu hb.2 hi
  | interface interfaces fields =>
    rw [TypeBody.isWellFormed, Bool.and_eq_true] at hb
    exact reads_fielded source TypeBody.interface GraphClient.TypeBody.interface
      (fun _ _ => rfl) (fun _ _ => rfl) hu hb.2 hi
  | union members =>
    refine hd.bind fun nodes hn => ?_
    refine (reads_chain .pipe rfl _).last fun names ha => .pure ⟨hn, ?_⟩
    exact congrArg GraphClient.TypeBody.union (map_namedRef source ha)
  | enum values =>
    rw [TypeBody.isWellFormed, all_eq_true] at hb
    have hva := reads_braced fun value hv => reads_enumValueDefinition source (hb value hv)
      fun hm => hi (mem_append_right _ (mem_flatMap.mpr ⟨value, hv, hm⟩))
    refine hd.bind fun nodes hn => hva.last fun nodes' hn' => .pure ⟨hn, ?_⟩
    simp only [TypeBody.ofSyntax, TypeBody.reread, TypeBody.relocate, map_map]
    exact congrArg GraphClient.TypeBody.enum hn'
  | inputObject fields =>
    rw [TypeBody.isWellFormed, all_eq_true] at hb
    have hf := reads_braced fun input hin =>
      reads_inputValue source input.description (hb input hin)
        fun hm => hi (mem_append_right _ (mem_flatMap.mpr ⟨input, hin, hm⟩))
    refine hd.bind fun nodes hn => hf.last fun nodes' hn' => .pure ⟨hn, ?_⟩
    simp only [TypeBody.ofSyntax, TypeBody.reread, TypeBody.relocate, map_map]
    exact congrArg GraphClient.TypeBody.inputObject hn'

variable {desc : Option Description}

theorem reads_typeDefinition (start : Nat) {type : GraphClient.TypeDefinition} (h : type.isWellFormed)
    (hi : .infinite true ∉ type.floats) (hd : desc.map Description.text = type.description.map (Text.reread 0)) :
    (typeDefinition start desc).Reads type.bareWords
      fun node => (TypeDefinition.ofSyntax source node).relocate .erase =
        type.reread.relocate .erase := by
  simp only [TypeDefinition.isWellFormed, Bool.and_eq_true] at h
  have hw : (Rule.one fun t word => t.kind = .keyword word).Reads
      [⟨.keyword type.body.keyword, type.body.keyword.text⟩] (· = type.body.keyword) :=
    .one fun t hk _ => ⟨_, hk, rfl⟩
  refine hw.take fun word hw => (reads_name _).take fun name hn => ?_
  subst hw
  refine (reads_typeRest source h.1.2 h.2 hi).last fun res hr => .spanned fun span => ?_
  simp [TypeDefinition.ofSyntax, TypeDefinition.relocate, TypeDefinition.reread, hn, hd, hr.2,
    comp_def, hr.1, Location.erase]

/-! ## Directive definitions -/

theorem reads_directiveLocation (place : DirectiveLocation) :
    directiveLocation.Reads [.name place.text] fun node => node.1 = place := by
  have hp : DirectiveLocation.ofText? place.text = some place := by cases place <;> rfl
  exact .one (fun t hk ht =>
    ⟨(place, t.span), ⟨hk ▸ Word.isName_name _, by rw [ht]; exact hp, rfl⟩, rfl⟩) (Word.kind_name_ne _ rfl)

theorem reads_directiveDefinition (start : Nat) {dir : GraphClient.DirectiveDefinition}
    (h : dir.isWellFormed) (hi : .infinite true ∉ dir.floats)
    (hd : desc.map Description.text = dir.description.map (Text.reread 0)) :
    (directiveDefinition start desc).Reads dir.bareWords
      fun node => (DirectiveDefinition.ofSyntax source node).relocate .erase =
        dir.reread.relocate .erase := by
  simp only [DirectiveDefinition.isWellFormed, Bool.and_eq_true, Bool.not_eq_true', isEmpty_eq_false_iff] at h
  obtain ⟨first, rest, hl⟩ := exists_cons_of_ne_nil h.2
  have hr : ((Rule.keyword .repeatable >>= fun _ => pure true) ⊔ pure false : Rule Bool).Reads
      (if dir.repeatable then [.name "repeatable"] else []) (· = dir.repeatable) := by
    cases dir.repeatable with
    | true => exact .inl ((Reads.ofKind rfl (by decide)).last fun _ _ => .pure rfl)
    | false => exact .inr (.pure rfl)
  have hp := reads_separated DirectiveLocation.text .pipe first rest fun place _ =>
    reads_directiveLocation place
  refine (Reads.ofKind rfl (by decide)).take fun _ _ => .mark ((reads_name _).take fun name hna => ?_)
  refine (reads_argumentDefinitions source h.1.2 hi).bind fun args ha => ?_
  refine hr.bind fun rep hr => ?_
  rw [hl]
  refine (Reads.ofKind rfl (by decide)).take fun _ _ => hp.last fun nodes hn => .spanned fun span => ?_
  simp [DirectiveDefinition.ofSyntax, DirectiveDefinition.relocate, DirectiveDefinition.reread, hna, hd,
    hr, hn, hl, comp_def, ha, Location.erase]

/-! ## Schema blocks -/

theorem reads_rootDefinition (root : OperationKind × NamedRef) : rootDefinition.Reads (rootWords root) fun node =>
      (node.operation, (ofSyntax source node.type).relocate .erase) =
        (root.1, root.2.relocate .erase) := by
  refine .offset fun start => (reads_operationType root.1).take fun kind hk => .mark ?_
  refine (reads_name _).last fun name hn => .spanned fun span => ?_
  simp only [ofSyntax, relocate, hk, hn, Location.erase]

theorem reads_schemaDefinition (start : Nat) {sch : GraphClient.SchemaDefinition} (h : sch.isWellFormed)
    (hi : .infinite true ∉ sch.floats) (hd : sch.description = none) (he : sch.isExtension = false) :
    (schemaDefinition start none).Reads sch.words
      fun node => (SchemaDefinition.ofSyntax source false node).relocate .erase =
        sch.reread.relocate .erase := by
  rw [SchemaDefinition.isWellFormed, Bool.and_eq_true] at h
  refine (Reads.ofKind rfl (by decide)).take fun _ _ => ?_
  refine (reads_directives source h.1 hi).bind fun nodes hn => ?_
  refine (Reads.between fun root _ => reads_rootDefinition source root).last fun roots hr => .spanned fun span => ?_
  simp [SchemaDefinition.ofSyntax, SchemaDefinition.relocate, SchemaDefinition.reread, hd, he,
    comp_def, hn, hr, Location.erase]

end Syntax.Grammar

/-! ## Parts -/

/-- One definition of a schema document. -/
inductive SchemaPart
  | directive (definition : DirectiveDefinition)
  | schema (definition : SchemaDefinition)
  | type (definition : TypeDefinition)

namespace SchemaPart

/-- Whether a part can be written. A schema block is printed without a description. -/
def isWellFormed : SchemaPart → Bool
  | .directive definition => definition.isWellFormed
  | .schema definition =>
    definition.isWellFormed && definition.description.isNone && !definition.isExtension
  | .type definition => definition.isWellFormed

def floats : SchemaPart → List Binary64
  | .directive definition => definition.floats
  | .schema definition => definition.floats
  | .type definition => definition.floats

def words : SchemaPart → List Word
  | .directive definition => definition.words
  | .schema definition => definition.words
  | .type definition => definition.words

def reread : SchemaPart → SchemaPart
  | .directive definition => .directive definition.reread
  | .schema definition => .schema definition.reread
  | .type definition => .type definition.reread

def relocate (move : Location → Location) : SchemaPart → SchemaPart
  | .directive definition => .directive (definition.relocate move)
  | .schema definition => .schema (definition.relocate move)
  | .type definition => .type (definition.relocate move)

def document (parts : List SchemaPart) : Document where
  source := 0
  schemas := parts.filterMap fun
    | .schema definition => some definition
    | _ => none
  types := parts.filterMap fun
    | .type definition => some definition
    | _ => none
  extensions := []
  directives := parts.filterMap fun
    | .directive definition => some definition
    | _ => none
  operations := []
  fragments := []

theorem document_relocate (move : Location → Location) (parts : List SchemaPart) :
    (document parts).relocate move = document (parts.map (relocate move)) := by
  simp only [document, Document.relocate, map_filterMap, filterMap_map, map_nil, Document.mk.injEq, true_and, and_true]
  refine ⟨?_, ?_, ?_⟩ <;>
  · congr 1
    funext part
    cases part <;> rfl

/-- The part that a definition is, without its places. -/
def ofSyntax? (source : Nat) : Definition → Option SchemaPart
  | .directive node => some (.directive ((DirectiveDefinition.ofSyntax source node).relocate .erase))
  | .schema node => some (.schema ((SchemaDefinition.ofSyntax source false node).relocate .erase))
  | .type node => some (.type ((TypeDefinition.ofSyntax source node).relocate .erase))
  | _ => none

end SchemaPart

/-- **A part is read from its words.** -/
theorem Syntax.Grammar.reads_part (source : Nat) {part : SchemaPart} (h : part.isWellFormed)
    (hi : .infinite true ∉ part.floats) : definition.Reads part.words
      fun node => SchemaPart.ofSyntax? source node = some (part.reread.relocate .erase) := by
  cases part with
  | directive definition =>
    refine .inl (.inl (reads_described 0 definition.description fun start description hd => .inr ?_))
    exact (reads_directiveDefinition source start h hi hd).last fun node hn =>
      .pure (congrArg (some ∘ SchemaPart.directive) hn)
  | schema definition =>
    simp only [SchemaPart.isWellFormed, Bool.and_eq_true, Option.isNone_iff_eq_none, Bool.not_eq_true'] at h
    refine .inl (.inl (reads_described 0 none fun start description hd => .inl (.inl ?_)))
    obtain rfl := Option.map_eq_none_iff.mp hd
    exact (reads_schemaDefinition source start h.1.1 hi h.1.2 h.2).last fun node hn =>
      .pure (congrArg (some ∘ SchemaPart.schema) hn)
  | type definition =>
    refine .inl (.inl (reads_described 0 definition.description fun start description hd => .inl (.inr ?_)))
    exact (reads_typeDefinition source start h hi hd).last fun node hn =>
      .pure (congrArg (some ∘ SchemaPart.type) hn)

theorem Document.relocate_ofParts {source : Nat} {nodes : List Definition} {span : Span}
    {parts : List SchemaPart} (h : nodes.map (SchemaPart.ofSyntax? source) = parts.map some) :
    (Document.ofSyntax source ⟨nodes, span⟩).relocate .erase = SchemaPart.document parts := by
  induction nodes generalizing parts with
  | nil =>
    obtain rfl := map_eq_nil_iff.mp h.symm
    rfl
  | cons node nodes ih =>
    cases parts with
    | nil => cases h
    | cons part parts =>
      obtain ⟨hn, ho⟩ := cons.inj h
      have hr := ih ho
      simp only [Document.ofSyntax, Document.relocate, SchemaPart.document, Document.mk.injEq] at hr ⊢
      cases node with
      | directive node | schema node | type node =>
        obtain rfl := Option.some.inj hn
        simpa [filterMap_cons] using hr
      | schemaExtension | typeExtension | operation | fragment => cases hn

/-! ## Printed schemas -/

namespace Registry

variable (registry : Registry)

/-- The definitions of a schema document, in the order in which they are printed. -/
def parts : List SchemaPart :=
  registry.userDirectives.map .directive ++ ((if registry.hasSchema then [.schema registry.schema] else []) ++
    registry.userTypes.map .type)

/-- **The floats in a printed schema.** -/
def floats : List Binary64 := registry.parts.flatMap SchemaPart.floats

variable {registry}

/-- **A printed schema has the words of its parts.** -/
theorem lexes_print (h : ∀ part ∈ registry.parts, part.isWellFormed) :
    Lexes Closed registry.print (registry.parts.flatMap SchemaPart.words) := by
  have hl : Lexes Any "\n" [] := .blank rfl
  have hs : Shut "\n\n" := fun _ => rfl
  let text : SchemaPart → String
    | .directive defn => Printer.directiveDefinition defn
    | .schema _ => schemaBlock registry
    | .type defn => Printer.type defn
  have ht : registry.print = String.intercalate "\n\n" (registry.parts.map text) ++ "\n" := by
    rw [print, Printer.sections, parts]
    cases registry.hasSchema <;> simp [text, comp_def]
  have hpa : ∀ part ∈ registry.parts, Lexes Closed (text part) part.words := by
    intro part hp
    have hf := h part hp
    cases part with
    | directive defn => exact lexes_directiveDefinition hf
    | schema defn =>
      obtain rfl : defn = registry.schema := by
        rw [parts] at hp
        split at hp
        · simpa using hp
        · simp at hp
      simp only [SchemaPart.isWellFormed, Bool.and_eq_true] at hf
      exact lexes_schemaBlock hf.1.1
    | type defn => exact lexes_type hf
  have ha := (Worded.intercalate (.blank rfl) hs hpa).append hl fun _ _ => rfl
  rw [ht]
  exact (ha.congr (append_nil _)).closed

/-- **What is read of a printed schema**: every part, without a report. -/
theorem read_print (h : ∀ part ∈ registry.parts, part.isWellFormed)
    (hi : .infinite true ∉ registry.floats) (source : Nat) (path : String) :
    (Document.read ⟨source, path, registry.print⟩).2 = [] ∧
      (Document.read ⟨source, path, registry.print⟩).1.relocate .erase =
        (SchemaPart.document (registry.parts.map SchemaPart.reread)).relocate .erase := by
  have hf : ∀ part ∈ registry.parts, .infinite true ∉ part.floats := fun part hp hm =>
    hi (mem_flatMap.mpr ⟨part, hp, hm⟩)
  have hr : (Rule.Many Grammar.definition).Reads (registry.parts.flatMap SchemaPart.words)
      fun nodes => nodes.map (SchemaPart.ofSyntax? source) =
        registry.parts.map fun part => some (part.reread.relocate .erase) :=
    .many fun part hp => Grammar.reads_part source (h part hp) (hf part hp)
  obtain ⟨nodes, span, ha, hn⟩ := parse_of_reads (lexes_print h) hr source
  have hpar : nodes.map (SchemaPart.ofSyntax? source) =
      (registry.parts.map fun part => part.reread.relocate .erase).map some := by
    rw [hn, map_map]
    rfl
  simp [Document.read, ha, Document.relocate_ofParts hpar, SchemaPart.document_relocate, comp_def]

end Registry

end GraphClient
