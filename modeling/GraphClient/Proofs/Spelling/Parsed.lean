import GraphClient.Proofs.Spelling.Definitions

/-!
# What is read can be written

A text without problems has definitions that can be written again: the grammar takes names for names only,
refuses integers of more than 64 bits, variables in constant values and empty selection sets, and rounds
floats to 53 bits.

* **`Document.isWellFormed_of_read`**, **`Document.schema_isWellFormed_of_read`**: documents.
-/

namespace GraphClient

open List Syntax Text Bool DirectiveUse Grammar

namespace Syntax.Grammar

open Rule

/-! ## Values -/

theorem ensures_name : name.Ensures fun node => isName node.text := .one fun _ _ hn h => h.2 ▸ (hn h.1).1

theorem ensures_nameExcept (kinds : List TokenKind) :
    (nameExcept kinds).Ensures fun node => isName node.text ∧ Word.nameKind node.text ∉ kinds := by
  refine .one fun t node hn h => ?_
  obtain ⟨ha, hk⟩ := hn h.1
  rw [h.2.2]
  exact ⟨ha, hk ▸ h.2.1⟩

theorem not_isReserved {text : String} (h : Word.nameKind text ∉ reserved) : Value.isReserved text = false := by
  simp only [Value.isReserved, or_eq_false_iff, beq_eq_false_iff_ne]
  refine ⟨⟨?_, ?_⟩, ?_⟩ <;> rintro rfl <;> exact h (by decide)

theorem ensures_literal {const : Bool} :
    (Rule.one Literal).Ensures fun node => (Value.ofSyntax node).isWellFormed const := by
  refine .one fun t node hn h => ?_
  cases h with
  | int hk hv =>
    simp only [Parser.intValue?, Option.ite_none_right_eq_some, Option.some.injEq] at hv
    obtain ⟨ha, rfl⟩ := hv
    exact decide_eq_true ha
  | float | string => rfl
  | enum hk hr =>
    obtain ⟨hna, he⟩ := hn hk
    simp [Value.ofSyntax, Value.isWellFormed, hna, not_isReserved (he ▸ hr)]

/-- **A value that is read can be written.** -/
theorem ensures_value (const : Bool) : (value const).Ensures fun node => (Value.ofSyntax node).isWellFormed const := by
  refine .least fun value hv => .sup (.sup (.sup (.sup (.sup (.sup ?_ ensures_literal) ?_) ?_) ?_) ?_) ?_
  · refine .skip fun _ => .bind ensures_name fun name hn => ?_
    cases const with
    | true => exact .bot
    | false => exact .pure hn
  iterate 3 · exact .skip fun _ => .skip fun _ => .skip fun _ => .pure rfl
  · refine .skip fun _ => .bind (.between hv) fun items hi => .skip fun _ => .pure ?_
    rw [Value.ofSyntax, itemsOfSyntax_eq, Value.isWellFormed, Value.itemsWellFormed_iff]
    exact forall_mem_map.mpr hi
  · have hfi : (objectField value).Ensures fun field =>
        isName field.1.text ∧ (Value.ofSyntax field.2).isWellFormed const :=
      .bind ensures_name fun _ hn => .skip fun _ => .bind hv fun _ ho => .pure ⟨hn, ho⟩
    refine .skip fun _ => .bind (.between hfi) fun fields hf => .skip fun _ => .pure ?_
    rw [Value.ofSyntax, fieldsOfSyntax_eq, Value.isWellFormed, Value.fieldsWellFormed_iff]
    exact forall_mem_map.mpr hf

theorem ensures_defaultValue :
    defaultValue.Ensures fun node => (node.map Value.ofSyntax).all (Value.isWellFormed true) := by
  refine (Ensures.optional (.skip fun _ => ensures_value true)).mono fun node hn => ?_
  cases node with
  | none => rfl
  | some node => exact hn node rfl

/-! ## Types -/

theorem ensures_typeExpr : typeExpr.Ensures fun node => isName (TypeRef.ofSyntax node).name := by
  refine .least fun type ht => .skip fun start => .bind (.sup ?_ ?_) fun node hn =>
    .sup (.skip fun _ => .skip fun _ => .pure hn) (.pure hn)
  · exact .skip fun _ => .bind ht fun inner hi => .skip fun _ => .skip fun _ => .pure hi
  · exact .bind ensures_name fun name ha => .pure ha

/-! ## Arguments and directives -/

theorem all_map_of {α β : Type} {f : α → β} {p : β → Bool} {nodes : List α} (h : ∀ node ∈ nodes, p (f node)) :
    (nodes.map f).all p := by
  rw [all_map, all_eq_true]
  exact h

theorem ensures_optionalName {r : Rule Name} (h : r.Ensures fun node => isName node.text) :
    (optional r).Ensures fun name => (name.map Name.text).all isName := by
  refine h.optional.mono fun name hn => ?_
  cases name with
  | none => rfl
  | some name => exact hn name rfl

variable (source : Nat)

theorem ensures_arguments (constant : Bool) : (arguments constant).Ensures fun nodes =>
    (nodes.map (.ofSyntax source)).all (Argument.isWellFormed constant) := by
  have ha : (argument constant).Ensures fun node =>
      (Argument.ofSyntax source node).isWellFormed constant :=
    .skip fun _ => .bind ensures_name fun _ hn => .skip fun _ =>
      .bind (ensures_value constant) fun _ hv => .skip fun _ => .pure (and_eq_true_iff.mpr ⟨hn, hv⟩)
  exact (Ensures.orEmpty (.between ha)).mono fun _ => all_map_of

theorem ensures_directives (constant : Bool) : (directives constant).Ensures fun nodes =>
    (nodes.map (ofSyntax source)).all (isWellFormed constant) := by
  have hd : (directive constant).Ensures fun node =>
      (ofSyntax source node).isWellFormed constant :=
    .skip fun _ => .skip fun _ => .bind ensures_name fun _ ha =>
      .bind (ensures_arguments source constant) fun _ hn => .skip fun _ =>
        .pure (and_eq_true_iff.mpr ⟨ha, hn⟩)
  exact (Ensures.many hd).mono fun _ => all_map_of

/-! ## Selections -/

def GoodSet (source : Nat) (set : SelectionSet) : Prop :=
  set.selections ≠ [] ∧ Selection.allWellFormed (Selection.listOfSyntax source set.selections)

variable {source} in
theorem GoodSet.isEmpty {set : SelectionSet} (h : GoodSet source set) :
    (Selection.listOfSyntax source set.selections).isEmpty = false := by
  rw [listOfSyntax_eq, isEmpty_eq_false_iff, ne_eq, map_eq_nil_iff]
  exact h.1

theorem ensures_fragmentName : fragmentName.Ensures fun node => isName node.text ∧ (node.text != "on") := by
  refine (ensures_nameExcept _).mono fun node hn => ⟨hn.1, bne_iff_ne.mpr fun he => hn.2 ?_⟩
  rw [he]
  decide

theorem ensures_selection {inner : Rule SelectionSet} (hi : inner.Ensures (GoodSet source)) :
    (selection inner).Ensures fun node => (Selection.ofSyntax source node).isWellFormed := by
  refine .sup (.sup ?_ ?_) ?_
  · have hl : (name >>= fun label => Rule.mark .colon >>= fun _ => pure label).Ensures fun label =>
        isName label.text := .bind ensures_name fun _ hn => .skip fun _ => .pure hn
    refine .skip fun start => .bind (ensures_optionalName hl) fun label hl => ?_
    refine .bind ensures_name fun name hn => .bind (ensures_arguments source false) fun args ha => ?_
    refine .bind (ensures_directives source false) fun dirs hd => ?_
    refine .bind hi.optional fun set hs => .skip fun span => .pure ?_
    simp only [Selection.ofSyntax, Selection.isWellFormed, and_eq_true]
    refine ⟨⟨⟨⟨hl, hn⟩, ha⟩, hd⟩, ?_⟩
    cases set with
    | none => rfl
    | some set => exact (hs set rfl).2
  · refine .skip fun start => .skip fun _ => .bind ensures_fragmentName fun name hn => ?_
    refine .bind (ensures_directives source false) fun nodes ho => .skip fun span => .pure ?_
    simp only [Selection.ofSyntax, Selection.isWellFormed, and_eq_true]
    exact ⟨hn, ho⟩
  · refine .skip fun start => .skip fun _ => .bind (ensures_optionalName (.skip fun _ => ensures_name))
      fun cond hc => ?_
    refine .bind (ensures_directives source false) fun nodes ho => ?_
    refine .bind hi fun set hs => .skip fun span => .pure ?_
    rw [Selection.ofSyntax, Selection.isWellFormed, hs.isEmpty, ho, hs.2, Option.map_map]
    simp only [Bool.and_true, Bool.not_false]
    exact hc

/-- **Selections that are read can be written**, and there are some. -/
theorem ensures_selectionSet : selectionSet.Ensures (GoodSet source) := by
  refine .least fun inner hi => .skip fun start => .skip fun _ => ?_
  have hs : (many1 (selection inner)).Ensures fun nodes => nodes ≠ [] ∧
      ∀ node ∈ nodes, (Selection.ofSyntax source node).isWellFormed := fun tokens next nodes ha h =>
    ⟨h.2, Ensures.many (ensures_selection source hi) tokens next nodes ha h.1⟩
  refine .bind hs fun nodes hn => .skip fun _ => .skip fun span => .pure ⟨hn.1, ?_⟩
  rw [listOfSyntax_eq, Selection.allWellFormed_iff]
  exact forall_mem_map.mpr hn.2

/-! ## Executable definitions -/

theorem ensures_variableDefinitions : variableDefinitions.Ensures fun nodes =>
    (nodes.map (.ofSyntax source)).all VariableDefinition.isWellFormed := by
  have hd : variableDefinition.Ensures fun node =>
      (VariableDefinition.ofSyntax source node).isWellFormed := by
    refine .skip fun start => .skip fun _ => .bind ensures_name fun name ha => .skip fun _ => ?_
    refine .bind ensures_typeExpr fun type ht => .bind ensures_defaultValue fun value hv => ?_
    refine .bind (ensures_directives source true) fun nodes hn => .skip fun span => .pure ?_
    simp only [VariableDefinition.isWellFormed, and_eq_true]
    exact ⟨⟨⟨ha, ht⟩, hv⟩, hn⟩
  exact (Ensures.orEmpty (.between hd)).mono fun _ => all_map_of

/-- **An operation that is read can be written.** -/
theorem ensures_operation : operation.Ensures fun node => (OperationDefinition.ofSyntax source node).isWellFormed := by
  refine .sup (.skip fun start => .skip fun kind => ?_) (.skip fun start => ?_)
  · refine .bind (ensures_optionalName ensures_name) fun name ha => ?_
    refine .bind (ensures_variableDefinitions source) fun params hp => ?_
    refine .bind (ensures_directives source false) fun nodes hn => ?_
    refine .bind (ensures_selectionSet source) fun set hs => .skip fun span => .pure ?_
    rw [OperationDefinition.ofSyntax, OperationDefinition.isWellFormed, hs.isEmpty, hn, hs.2, ha, hp]
    rfl
  · refine .bind (ensures_selectionSet source) fun set hs => .skip fun span => .pure ?_
    rw [OperationDefinition.ofSyntax, OperationDefinition.isWellFormed, hs.isEmpty, hs.2]
    rfl

/-- **A fragment that is read can be written.** -/
theorem ensures_fragment : fragment.Ensures fun node => (FragmentDefinition.ofSyntax source node).isWellFormed := by
  refine .skip fun start => .skip fun _ => .bind ensures_fragmentName fun name hn => .skip fun _ => ?_
  refine .bind ensures_name fun cond hc => ?_
  refine .bind (ensures_directives source false) fun nodes ho => ?_
  refine .bind (ensures_selectionSet source) fun set hs => .skip fun span => .pure ?_
  rw [FragmentDefinition.ofSyntax, FragmentDefinition.isWellFormed, hs.isEmpty, ho, hs.2, hn.1,
    NamedRef.ofSyntax, hc, hn.2]
  rfl

/-! ## Schema definitions -/

theorem ensures_inputValueDefinition : inputValueDefinition.Ensures fun node =>
    (InputValueDefinition.ofSyntax source node).isWellFormed := by
  refine .skip fun start => .skip fun desc => .bind ensures_name fun name ha => .skip fun _ => ?_
  refine .bind ensures_typeExpr fun type ht => .bind ensures_defaultValue fun value hv => ?_
  refine .bind (ensures_directives source true) fun nodes hn => .skip fun span => .pure ?_
  simp only [InputValueDefinition.isWellFormed, and_eq_true]
  exact ⟨⟨⟨ha, ht⟩, hv⟩, hn⟩

theorem ensures_argumentDefinitions : argumentDefinitions.Ensures fun nodes =>
    (nodes.map (.ofSyntax source)).all InputValueDefinition.isWellFormed :=
  (Ensures.orEmpty (.between (ensures_inputValueDefinition source))).mono fun _ => all_map_of

theorem ensures_fieldDefinition :
    fieldDefinition.Ensures fun node => (FieldDefinition.ofSyntax source node).isWellFormed := by
  refine .skip fun start => .skip fun desc => .bind ensures_name fun name hna => ?_
  refine .bind (ensures_argumentDefinitions source) fun args ha => .skip fun _ => ?_
  refine .bind ensures_typeExpr fun type ht => ?_
  refine .bind (ensures_directives source true) fun nodes hn => .skip fun span => .pure ?_
  simp only [FieldDefinition.isWellFormed, and_eq_true]
  exact ⟨⟨⟨hna, ha⟩, ht⟩, hn⟩

theorem ensures_enumValueDefinition : enumValueDefinition.Ensures fun node =>
    (EnumValueDefinition.ofSyntax source node).isWellFormed := by
  refine .skip fun start => .skip fun desc => .bind (ensures_nameExcept _) fun name hn => ?_
  refine .bind (ensures_directives source true) fun nodes ho => .skip fun span => .pure ?_
  simp only [EnumValueDefinition.ofSyntax, EnumValueDefinition.isWellFormed, and_eq_true, not_isReserved hn.2]
  exact ⟨⟨hn.1, rfl⟩, ho⟩

theorem ensures_body {α : Type} {item : Rule α} {P : α → Prop} (h : item.Ensures P) :
    (body item).Ensures fun nodes => ∀ node ∈ nodes, P node :=
  .sup (.between h) (.skip fun _ => .pure (forall_mem_nil _))

theorem ensures_references {kind : TokenKind} {sep : Mark} :
    (orEmpty (ofKind kind >>= fun _ => separated sep name)).Ensures fun nodes =>
      ((nodes.map (NamedRef.ofSyntax source)).all fun e => isName e.name) :=
  (Ensures.orEmpty (.skip fun _ => (Ensures.separated ensures_name).mono fun _ h => h.2)).mono fun _ h => all_map_of h

theorem ensures_typeRest (word : Keyword) : (typeRest word).Ensures fun res =>
    (res.1.map (ofSyntax source)).all (isWellFormed true) ∧ (TypeBody.ofSyntax source res.2).isWellFormed := by
  have hi : ∀ {names : List Name}, ((names.map (NamedRef.ofSyntax source)).all
      fun e => isName e.name) → (body fieldDefinition).Ensures fun fields =>
        (((names.map (NamedRef.ofSyntax source)).all fun e => isName e.name) &&
          (fields.map (FieldDefinition.ofSyntax source)).all FieldDefinition.isWellFormed) := fun ha =>
    (ensures_body (ensures_fieldDefinition source)).mono fun _ hf =>
      and_eq_true_iff.mpr ⟨ha, all_map_of hf⟩
  unfold typeRest
  split
  · exact .bind (ensures_directives source true) fun _ hn => .pure ⟨hn, rfl⟩
  iterate 2
    · exact .bind (ensures_references source) fun _ ha => .bind (ensures_directives source true) fun _ hn =>
        .bind (hi ha) fun _ hb => .pure ⟨hn, hb⟩
  · exact .bind (ensures_directives source true) fun _ hn =>
      .bind (ensures_references source) fun _ ha => .pure ⟨hn, ha⟩
  · exact .bind (ensures_directives source true) fun _ hn =>
      .bind (ensures_body (ensures_enumValueDefinition source)) fun _ hv => .pure ⟨hn, all_map_of hv⟩
  · exact .bind (ensures_directives source true) fun _ hn =>
      .bind (ensures_body (ensures_inputValueDefinition source)) fun _ hf => .pure ⟨hn, all_map_of hf⟩
  · exact .bot

/-- **A type that is read can be written.** -/
theorem ensures_typeDefinition (start : Nat) (desc : Option Description) :
    (typeDefinition start desc).Ensures fun node => (TypeDefinition.ofSyntax source node).isWellFormed := by
  refine .skip fun word => .bind ensures_name fun name hn => ?_
  refine .bind (ensures_typeRest source word) fun res hr => .skip fun span => .pure ?_
  simp only [TypeDefinition.isWellFormed, and_eq_true]
  exact ⟨⟨hn, hr.1⟩, hr.2⟩

/-- **A directive definition that is read can be written**: it has a place. -/
theorem ensures_directiveDefinition (start : Nat) (desc : Option Description) :
    (directiveDefinition start desc).Ensures fun node =>
      (DirectiveDefinition.ofSyntax source node).isWellFormed := by
  have hp : (separated .pipe directiveLocation).Ensures fun places => places ≠ [] ∧ ∀ place ∈ places, True :=
    .separated fun _ _ _ _ _ => trivial
  refine .skip fun _ => .skip fun _ => .bind ensures_name fun name hn => ?_
  refine .bind (ensures_argumentDefinitions source) fun args ha => .skip fun rep => ?_
  refine .skip fun _ => .bind hp fun places hp => .skip fun span => .pure ?_
  obtain ⟨first, rest, rfl⟩ := exists_cons_of_ne_nil hp.1
  simp only [DirectiveDefinition.isWellFormed, and_eq_true]
  exact ⟨⟨hn, ha⟩, rfl⟩

theorem ensures_schema {roots : Rule (List RootDefinition)} (isExtension : Bool) (start : Nat)
    (description : Option Description) (h : roots.Ensures fun nodes => ∀ node ∈ nodes, isName node.type.text) :
    (keyword .schema >>= fun _ => directives true >>= fun uses => roots >>= fun roots => spanFrom start >>= fun span =>
      pure (SchemaDefinition.mk description uses roots span)).Ensures fun node =>
        (SchemaDefinition.ofSyntax source isExtension node).isWellFormed := by
  refine .skip fun _ => .bind (ensures_directives source true) fun nodes hn => .bind h fun roots hr => ?_
  refine .skip fun span => .pure ?_
  simp only [SchemaDefinition.isWellFormed, and_eq_true]
  exact ⟨hn, all_map_of hr⟩

theorem ensures_rootDefinition : rootDefinition.Ensures fun node => isName node.type.text :=
  .skip fun _ => .skip fun _ => .skip fun _ => .bind ensures_name fun _ hn => .skip fun _ => .pure hn

/-! ## Definitions of any kind -/

/-- What is known of a definition that is read. -/
def GoodDefinition : Definition → Prop
  | .operation node => (OperationDefinition.ofSyntax source node).isWellFormed
  | .fragment node => (FragmentDefinition.ofSyntax source node).isWellFormed
  | .type node => (TypeDefinition.ofSyntax source node).isWellFormed
  | .typeExtension node => (TypeDefinition.ofSyntax source node).isWellFormed
  | .directive node => (DirectiveDefinition.ofSyntax source node).isWellFormed
  | .schema node => (SchemaDefinition.ofSyntax source false node).isWellFormed
  | .schemaExtension node => (SchemaDefinition.ofSyntax source true node).isWellFormed

theorem ensures_definition : definition.Ensures (GoodDefinition source) := by
  refine .sup (.sup (.skip fun start => .skip fun desc => .sup (.sup ?_ ?_) ?_)
    (.skip fun start => .skip fun _ => .sup ?_ ?_)) (.sup ?_ ?_)
  · exact .bind (ensures_schema source false start desc (.between ensures_rootDefinition)) fun _ h => .pure h
  · exact .bind (ensures_typeDefinition source start desc) fun _ h => .pure h
  · exact .bind (ensures_directiveDefinition source start desc) fun _ h => .pure h
  · exact .bind (ensures_schema source true start none (ensures_body ensures_rootDefinition)) fun _ h => .pure h
  · exact .bind (ensures_typeDefinition source start none) fun _ h => .pure h
  · exact .bind (ensures_operation source) fun _ h => .pure h
  · exact .bind (ensures_fragment source) fun _ h => .pure h

end Syntax.Grammar

/-! ## Documents -/

variable {source : Source}

theorem Document.good_of_read (h : (Document.read source).2 = []) :
    ∀ definition ∈ (parse source.id source.text).1.definitions, GoodDefinition source.id definition := by
  have hd : Derives (tokenize source.text) (parse source.id source.text).1 :=
    (derives_of_parse (Prod.ext rfl h)).2
  have hn := tokenize_named source.text
  generalize tokenize source.text = ts, (parse source.id source.text).1 = tree at hd hn ⊢
  obtain ⟨-, hm⟩ := hd
  exact Rule.Ensures.many (ensures_definition source.id) _ _ _
    (forall_mem_append.mp hn).1 hm

theorem Document.forall_of_read (h : (Document.read source).2 = []) {α : Type} {P : α → Prop}
    {part : Definition → Option α} (hp : ∀ node, GoodDefinition source.id node → ∀ a ∈ part node, P a) :
    ∀ a ∈ (parse source.id source.text).1.definitions.filterMap part, P a := by
  intro a ha
  obtain ⟨node, hn, hs⟩ := mem_filterMap.mp ha
  exact hp node (good_of_read h node hn) a hs

theorem Document.isWellFormed_of_read (h : (read source).2 = []) :
    (∀ defn ∈ (read source).1.operations, defn.isWellFormed) ∧
      ∀ frag ∈ (read source).1.fragments, frag.isWellFormed := by
  constructor <;> refine forall_of_read h fun node hg a ha => ?_ <;>
    cases node <;> cases ha <;> exact hg

/-- What is known of the schema definitions of a document that is read. -/
structure Document.SchemaWellFormed (document : Document) : Prop where
  types : ∀ type ∈ document.types, type.isWellFormed
  extensions : ∀ type ∈ document.extensions, type.isWellFormed
  directives : ∀ directive ∈ document.directives, directive.isWellFormed
  schemas : ∀ schema ∈ document.schemas, schema.isWellFormed

theorem Document.schema_isWellFormed_of_read (h : (read source).2 = []) :
    (read source).1.SchemaWellFormed := by
  constructor <;> refine forall_of_read h fun node hg a ha => ?_ <;>
    cases node <;> cases ha <;> exact hg

end GraphClient
