import GraphClient.Document.OfSyntax
import GraphClient.Proofs.Syntax.Places

/-!
# Sources under other numbers

The number of a source enters the locations of its document and nothing else.

* **`Document.ofSyntax_relocate`**: the documents of a tree under two numbers, moved to the same places.
* **`Document.readAll_number`**, **`Document.readAll_clean`**: what is read of numbered inputs depends on
  each text alone, up to places.
-/

namespace GraphClient

open List Selection Syntax Source

section Trees

variable {move : Location → Location} {i j : Nat} (h : ∀ span, move ⟨i, span⟩ = move ⟨j, span⟩)

include h

theorem NamedRef.ofSyntax_relocate (name : Name) :
    (ofSyntax i name).relocate move = (ofSyntax j name).relocate move := by
  simp only [ofSyntax, relocate, h]

theorem Argument.ofSyntax_relocate (arg : Syntax.Argument) :
    (Argument.ofSyntax i arg).relocate move = (Argument.ofSyntax j arg).relocate move := by
  simp only [ofSyntax, relocate, h]

theorem DirectiveUse.ofSyntax_relocate (use : Directive) :
    (DirectiveUse.ofSyntax i use).relocate move = (DirectiveUse.ofSyntax j use).relocate move := by
  simp [DirectiveUse.ofSyntax, DirectiveUse.relocate, Argument.ofSyntax_relocate h, h]

theorem InputValueDefinition.ofSyntax_relocate (input : Syntax.InputValueDefinition) :
    (InputValueDefinition.ofSyntax i input).relocate move = (InputValueDefinition.ofSyntax j input).relocate move := by
  simp [InputValueDefinition.ofSyntax, InputValueDefinition.relocate, DirectiveUse.ofSyntax_relocate h, h]

theorem FieldDefinition.ofSyntax_relocate (f : Syntax.FieldDefinition) :
    (FieldDefinition.ofSyntax i f).relocate move = (FieldDefinition.ofSyntax j f).relocate move := by
  simp [FieldDefinition.ofSyntax, FieldDefinition.relocate, DirectiveUse.ofSyntax_relocate h,
    InputValueDefinition.ofSyntax_relocate h, h]

theorem EnumValueDefinition.ofSyntax_relocate (v : Syntax.EnumValueDefinition) :
    (EnumValueDefinition.ofSyntax i v).relocate move = (EnumValueDefinition.ofSyntax j v).relocate move := by
  simp [EnumValueDefinition.ofSyntax, EnumValueDefinition.relocate, DirectiveUse.ofSyntax_relocate h, h]

theorem TypeBody.ofSyntax_relocate (body : Syntax.TypeBody) :
    (TypeBody.ofSyntax i body).relocate move = (TypeBody.ofSyntax j body).relocate move := by
  cases body <;>
    simp [TypeBody.ofSyntax, TypeBody.relocate, NamedRef.ofSyntax_relocate h, FieldDefinition.ofSyntax_relocate h,
      EnumValueDefinition.ofSyntax_relocate h, InputValueDefinition.ofSyntax_relocate h]

theorem TypeDefinition.ofSyntax_relocate (type : Syntax.TypeDefinition) :
    (TypeDefinition.ofSyntax i type).relocate move = (TypeDefinition.ofSyntax j type).relocate move := by
  simp [TypeDefinition.ofSyntax, TypeDefinition.relocate, DirectiveUse.ofSyntax_relocate h,
    TypeBody.ofSyntax_relocate h, h]

theorem SchemaDefinition.ofSyntax_relocate (isExtension : Bool) (sch : Syntax.SchemaDefinition) :
    (SchemaDefinition.ofSyntax i isExtension sch).relocate move =
      (SchemaDefinition.ofSyntax j isExtension sch).relocate move := by
  simp [SchemaDefinition.ofSyntax, SchemaDefinition.relocate, DirectiveUse.ofSyntax_relocate h,
    NamedRef.ofSyntax_relocate h, h]

theorem DirectiveDefinition.ofSyntax_relocate (dir : Syntax.DirectiveDefinition) :
    (DirectiveDefinition.ofSyntax i dir).relocate move = (DirectiveDefinition.ofSyntax j dir).relocate move := by
  simp [DirectiveDefinition.ofSyntax, DirectiveDefinition.relocate, InputValueDefinition.ofSyntax_relocate h, h]

theorem FieldHead.ofSyntax_relocate (he : Syntax.FieldHead) :
    (FieldHead.ofSyntax i he).relocate move = (FieldHead.ofSyntax j he).relocate move := by
  simp [FieldHead.ofSyntax, FieldHead.relocate, Argument.ofSyntax_relocate h, DirectiveUse.ofSyntax_relocate h, h]

omit h in
mutual

theorem Selection.ofSyntax_relocate (h : ∀ span, move ⟨i, span⟩ = move ⟨j, span⟩) : (sel : Syntax.Selection) →
    (ofSyntax i sel).relocate move = (ofSyntax j sel).relocate move
  | .field head _ sels => by
    simp only [ofSyntax, relocate, FieldHead.ofSyntax_relocate h, listOfSyntax_relocate h sels]
  | .spread name dirs span => by
    simp only [ofSyntax, relocate, Spread.relocate, map_map, Function.comp_def, DirectiveUse.ofSyntax_relocate h, h]
  | .inline cond dirs _ sels span => by
    simp only [ofSyntax, relocate, map_map, Option.map_map,
      Function.comp_def, NamedRef.ofSyntax_relocate h, DirectiveUse.ofSyntax_relocate h,
      listOfSyntax_relocate h sels, h]

theorem Selection.listOfSyntax_relocate (h : ∀ span, move ⟨i, span⟩ = move ⟨j, span⟩) :
    (sels : List Syntax.Selection) → relocateAll move (listOfSyntax i sels) = relocateAll move (listOfSyntax j sels)
  | [] => rfl
  | sel :: rest => by
    simp only [listOfSyntax, relocateAll, ofSyntax_relocate h sel, listOfSyntax_relocate h rest]

end

theorem VariableDefinition.ofSyntax_relocate (defn : Syntax.VariableDefinition) :
    (VariableDefinition.ofSyntax i defn).relocate move = (VariableDefinition.ofSyntax j defn).relocate move := by
  simp [VariableDefinition.ofSyntax, VariableDefinition.relocate, DirectiveUse.ofSyntax_relocate h, h]

theorem OperationDefinition.ofSyntax_relocate (op : Syntax.OperationDefinition) :
    (OperationDefinition.ofSyntax i op).relocate move = (OperationDefinition.ofSyntax j op).relocate move := by
  simp [OperationDefinition.ofSyntax, OperationDefinition.relocate, VariableDefinition.ofSyntax_relocate h,
    DirectiveUse.ofSyntax_relocate h, listOfSyntax_relocate h, h]

theorem FragmentDefinition.ofSyntax_relocate (frag : Syntax.FragmentDefinition) :
    (FragmentDefinition.ofSyntax i frag).relocate move = (FragmentDefinition.ofSyntax j frag).relocate move := by
  simp [FragmentDefinition.ofSyntax, FragmentDefinition.relocate, NamedRef.ofSyntax_relocate h,
    DirectiveUse.ofSyntax_relocate h, listOfSyntax_relocate h, h]

theorem Document.ofSyntax_relocate (tree : Syntax.Document) :
    (Document.ofSyntax i tree).relocate move = (Document.ofSyntax j tree).relocate move := by
  have he : ∀ {β γ : Type} {f g : Definition → Option β} {r : β → γ}, (∀ defn, (f defn).map r = (g defn).map r) →
      (tree.definitions.filterMap f).map r = (tree.definitions.filterMap g).map r := by
    intro β γ f g r hd
    rw [map_filterMap, map_filterMap]
    exact filterMap_congr fun defn _ => hd defn
  rw [mk.injEq]
  refine ⟨rfl, he fun defn => ?_, he fun defn => ?_, he fun defn => ?_,
    he fun defn => ?_, he fun defn => ?_, he fun defn => ?_⟩
  all_goals
    cases defn <;>
      simp [SchemaDefinition.ofSyntax_relocate h, TypeDefinition.ofSyntax_relocate h,
        DirectiveDefinition.ofSyntax_relocate h, OperationDefinition.ofSyntax_relocate h,
          FragmentDefinition.ofSyntax_relocate h]

end Trees

namespace Location

/-- A location without its place. What is built in stays so. -/
def forget (l : Location) : Location := if l.isBuiltin then .builtin else ⟨0, .empty 0⟩

@[simp] theorem forget_builtin : forget .builtin = .builtin := rfl

@[simp] theorem isBuiltin_forget (l : Location) : l.forget.isBuiltin = l.isBuiltin := by
  rw [forget]
  split_ifs with h
  · exact h.symm
  · exact (Bool.eq_false_iff.mpr h).symm

theorem forget_of_lt {src : Nat} (h : src < builtinSource) (span : Span) : forget ⟨src, span⟩ = ⟨0, .empty 0⟩ := by
  have hn : isBuiltin ⟨src, span⟩ = false := beq_false_of_ne (ne_of_lt h)
  rw [forget, hn]
  rfl

end Location

namespace Document

/-- The document of a text, without places. -/
def ofText (text : String) : Document := (ofSyntax 0 (parse 0 text).1).relocate .forget

variable {src : Source} {type : TypeDefinition}

theorem read_forget (h : src.id < Location.builtinSource) :
    (read src).1.relocate Location.forget = ofText src.text := by
  rw [read, parse_inSource 0]
  refine ofSyntax_relocate (fun span => ?_) _
  rw [Location.forget_of_lt h, Location.forget_of_lt (by decide)]

theorem id_number {inputs : List (String × String)} (h : src ∈ number inputs) : src.id < Location.builtinSource := by
  obtain ⟨e, -, rfl⟩ := mem_map.mp h
  exact lt_of_le_of_lt (min_le_right _ _) (by decide)

variable {srcs : List Source} (inputs : List (String × String))

theorem texts_number : (number inputs).map text = inputs.map Prod.snd := by
  rw [number, map_map]
  conv_rhs => rw [← zipIdx_map_fst 0 inputs, map_map]
  rfl

theorem readAll_number : (readAll (number inputs)).1.map (relocate .forget) =
      inputs.map fun input => ofText input.2 := by
  have ht : inputs.map (fun input => ofText input.2) =
      (number inputs).map fun src => ofText src.text := by
    have h := congrArg (map ofText) (texts_number inputs)
    rw [map_map, map_map] at h
    exact h.symm
  rw [ht, readAll, map_map, map_map]
  exact map_congr_left fun src hs => read_forget (id_number hs)

theorem readAll_clean : (readAll (number inputs)).2.hasErrors = false ↔
      ∀ text ∈ inputs.map Prod.snd, (parse 0 text).2 = [] := by
  rw [readAll]
  rw [flatMap_map, Diagnostics.hasErrors_flatMap, ← texts_number, forall_mem_map]
  refine forall_congr' fun src => imp_congr_right fun _ => ?_
  refine (parse_fatal src.id src.text).eq_nil_iff.symm.trans ?_
  rw [parse_inSource 0]
  exact map_eq_nil_iff

theorem exists_source {α : Type} {part : Document → List α} {e : α} (h : e ∈ (readAll srcs).1.flatMap part) :
    ∃ src ∈ srcs, e ∈ part (ofSyntax src.id (parse src.id src.text).1) := by
  obtain ⟨doc, hd, he⟩ := mem_flatMap.mp h
  rw [readAll, map_map] at hd
  obtain ⟨src, hs, rfl⟩ := mem_map.mp hd
  exact ⟨src, hs, he⟩

theorem source_of_mem_types (h : type ∈ (readAll srcs).1.flatMap types) :
    ∃ src ∈ srcs, type.location.source = src.id := by
  obtain ⟨src, hs, ht⟩ := exists_source h
  obtain ⟨defn, -, hd⟩ := mem_filterMap.mp ht
  refine ⟨src, hs, ?_⟩
  cases defn with
  | type node =>
    obtain rfl := Option.some.inj hd
    rfl
  | _ => cases hd

theorem source_of_mem_directives {dir : DirectiveDefinition} (h : dir ∈ (readAll srcs).1.flatMap directives) :
    ∃ source ∈ srcs, dir.location.source = source.id := by
  obtain ⟨source, hs, hd⟩ := exists_source h
  obtain ⟨defn, -, he⟩ := mem_filterMap.mp hd
  refine ⟨source, hs, ?_⟩
  cases defn with
  | directive node =>
    obtain rfl := Option.some.inj he
    rfl
  | _ => cases he

theorem isBuiltin_readAll {inputs : List (String × String)}
    (h : type ∈ (readAll (number inputs)).1.flatMap Document.types) : type.location.isBuiltin = false := by
  obtain ⟨src, hs, hi⟩ := source_of_mem_types h
  rw [Location.isBuiltin, hi]
  exact beq_false_of_ne (ne_of_lt (id_number hs))

end Document

end GraphClient
