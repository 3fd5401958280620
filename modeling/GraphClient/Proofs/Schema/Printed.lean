import GraphClient.Proofs.Schema.DirectiveOrder
import GraphClient.Proofs.Schema.Registry
import GraphClient.Proofs.Schema.Relocate
import Mathlib.Data.List.Forall2

/-!
# Printed schemas

The schema document of a registry shows everything but places, so two registries with the same outline
can only differ in the order of directives.

* **`Registry.print_eq_iff`**: when two registries with the same outline are printed alike.
-/

namespace GraphClient

open List TypeDefinition Function NameMap

namespace Printer

/-! ## Definitions elsewhere -/

section Relocate

variable (move : Location → Location)

@[simp] theorem inputValue_relocate (input : InputValueDefinition) :
    inputValue (input.relocate move) = inputValue input := by
  simp only [inputValue, InputValueDefinition.relocate, directives_relocate]

@[simp] theorem argumentDefinitions_relocate (inputs : List InputValueDefinition) :
    argumentDefinitions (inputs.map (.relocate move)) = argumentDefinitions inputs := by
  simp only [argumentDefinitions, map_map, comp_def, inputValue_relocate]

@[simp] theorem field_relocate (entry : FieldDefinition) : field (entry.relocate move) = field entry := by
  simp only [field, FieldDefinition.relocate, argumentDefinitions_relocate, directives_relocate]

@[simp] theorem enumValue_relocate (value : EnumValueDefinition) :
    enumValue (value.relocate move) = enumValue value := by
  simp only [enumValue, EnumValueDefinition.relocate, directives_relocate]

@[simp] theorem inputField_relocate (input : InputValueDefinition) :
    inputField (input.relocate move) = inputField input := by
  rw [inputField, inputField, inputValue_relocate]
  rfl

@[simp] theorem directiveDefinition_relocate (dir : DirectiveDefinition) :
    directiveDefinition (dir.relocate move) = directiveDefinition dir := by
  simp only [directiveDefinition, DirectiveDefinition.relocate, argumentDefinitions_relocate]
  rfl

end Relocate

/-! ## Types -/

def typeFront (type : TypeDefinition) : String :=
  description 0 type.description ++
  match type.body with
  | .scalar => "scalar " ++ type.name
  | .object implements _ =>
    "type " ++ type.name ++ chain " implements " " & " (implements.map NamedRef.name)
  | .interface implements _ =>
    "interface " ++ type.name ++ chain " implements " " & " (implements.map NamedRef.name)
  | .union _ => "union " ++ type.name
  | .enum _ => "enum " ++ type.name
  | .inputObject _ => "input " ++ type.name

/-- What is printed of a type behind its directives. -/
def typeBack (type : TypeDefinition) : String :=
  match type.body with
  | .scalar => ""
  | .object _ fields => block (fields.map field)
  | .interface _ fields => block (fields.map field)
  | .union members => chain " = " " | " (members.map NamedRef.name)
  | .enum values => block (values.map enumValue)
  | .inputObject fields => block (fields.map inputField)

/-- **A type is printed around its directives.** -/
theorem type_eq (entry : TypeDefinition) :
    type entry = typeFront entry ++ directives entry.directives ++ typeBack entry := by
  obtain ⟨name, text, uses, body, loc⟩ := entry
  cases body <;> simp only [type, typeFront, typeBack, String.append_assoc, String.append_empty]

variable {move : Location → Location}

variable (move) in
theorem typeFront_outline (entry : TypeDefinition) : typeFront (entry.outline move) = typeFront entry := by
  obtain ⟨name, text, uses, body, loc⟩ := entry
  cases body with
  | object impls fields | interface impls fields =>
    simp only [typeFront, outline, TypeBody.relocate, map_map]
    rfl
  | _ => rfl

variable (move) in
theorem typeBack_outline (entry : TypeDefinition) : typeBack (entry.outline move) = typeBack entry := by
  obtain ⟨name, text, uses, body, loc⟩ := entry
  cases body with
  | union members =>
    simp only [typeBack, outline, TypeBody.relocate, map_map]
    rfl
  | _ =>
    simp [typeBack, outline, TypeBody.relocate, comp_def]

variable {entry entry' : TypeDefinition} (h : entry.outline move = entry'.outline move)

include h

theorem type_eq_iff : type entry = type entry' ↔ directives entry.directives = directives entry'.directives := by
  rw [type_eq, type_eq, ← typeFront_outline move entry, ← typeBack_outline move entry, h,
    typeFront_outline, typeBack_outline, String.append_left_inj, String.append_right_inj]

theorem length_type (hl : (directives entry.directives).length = (directives entry'.directives).length) :
    (type entry).length = (type entry').length := by
  have hf : typeFront entry = typeFront entry' := by
    rw [← typeFront_outline move entry, h, typeFront_outline]
  have hb : typeBack entry = typeBack entry' := by
    rw [← typeBack_outline move entry, h, typeBack_outline]
  simp only [type_eq, String.length_append, hf, hb, hl]

end Printer

/-! ## Sections -/

theorem Text.intercalate_inj_of_length {s : String} : {xs ys : List String} →
    xs.map String.length = ys.map String.length → s.intercalate xs = s.intercalate ys → xs = ys
  | [], [], _, _ => rfl
  | [x], [y], _, h => by simpa using h
  | x :: x' :: xs, y :: y' :: ys, hl, h => by
    obtain ⟨hf, hr⟩ := cons.inj hl
    rw [String.intercalate_cons_cons, String.intercalate_cons_cons, String.append_assoc, String.append_assoc] at h
    obtain ⟨rfl, ht⟩ := append_inj_of_length h hf
    rw [Text.intercalate_inj_of_length hr ((String.append_right_inj s).mp ht)]
  | [], _ :: _, hl, _ | _ :: _, [], hl, _ => by cases hl
  | [_], _ :: _ :: _, hl, _ | _ :: _ :: _, [_], hl, _ => by simp at hl

theorem Printer.sections_inj {xs ys : List String} (hl : xs.map String.length = ys.map String.length)
    (h : sections xs = sections ys) : xs = ys :=
  Text.intercalate_inj_of_length hl ((String.append_left_inj "\n").mp h)

/-! ## Entries side by side -/

section Parallel

variable {α : Type} {p : α → Bool} {f : α → String} {xs ys : List α}

theorem length_filter_parallel (h : Forall₂ (fun x y => p x = p y ∧ (f x).length = (f y).length) xs ys) :
    ((xs.filter p).map f).map String.length = ((ys.filter p).map f).map String.length := by
  induction h with
  | nil => rfl
  | cons hf _ ih =>
    rw [filter_cons, filter_cons, ← hf.1]
    split_ifs
    · rw [map_cons, map_cons, map_cons, map_cons, hf.2, ih]
    · exact ih

theorem filter_parallel_iff {R : α → α → Prop} (h : Forall₂ (fun x y => R x y ∧ p x = p y) xs ys) :
    (xs.filter p).map f = (ys.filter p).map f ↔ Forall₂ (fun x y => R x y ∧ (p x → f x = f y)) xs ys := by
  induction h with
  | nil => simp
  | cons hf _ ih =>
    rw [filter_cons, filter_cons, ← hf.2, forall₂_cons, ← ih]
    split_ifs with hp
    · simp [hp, hf.1]
    · simp [hp, hf.1]

variable {m m' : NameMap α}

theorem parallel_of_names (P : α → α → Prop) (hn : m.names = m'.names)
    (h : ∀ entry ∈ m, ∀ entry' ∈ m', entry.1 = entry'.1 → P entry.2 entry'.2) :
    Forall₂ (fun entry entry' => entry.1 = entry'.1 ∧ P entry.2 entry'.2) m m' := by
  induction m generalizing m' with
  | nil =>
    cases m' with
    | nil => exact .nil
    | cons => cases hn
  | cons entry rest ih =>
    cases m' with
    | nil => cases hn
    | cons entry' rest' =>
      obtain ⟨ha, hr⟩ := cons.inj hn
      refine .cons ⟨ha, h entry mem_cons_self entry' mem_cons_self ha⟩ (ih hr ?_)
      exact fun e he e' he' => h e (mem_cons_of_mem _ he) e' (mem_cons_of_mem _ he')

theorem find?_of_parallel (P : α → α → Prop)
    (h : Forall₂ (fun entry entry' => entry.1 = entry'.1 ∧ P entry.2 entry'.2) m m') {name : String}
    {x y : α} (hx : m.find? name = some x) (hy : m'.find? name = some y) : P x y := by
  induction h with
  | nil => cases hx
  | @cons entry entry' rest rest' hf _ ih =>
    obtain ⟨hk, hP⟩ := hf
    rw [NameMap.find?_cons] at hx hy
    rw [← hk] at hy
    split_ifs at hx hy
    · cases hx
      cases hy
      exact hP
    · exact ih hx hy

end Parallel

/-! ## Registries -/

namespace Registry

open Printer

variable {move : Location → Location} {reg registry' : Registry}
  (houtline : reg.outline move = registry'.outline move)
  (hbuiltin : ∀ l : Location, (move l).isBuiltin = l.isBuiltin)

def typeTexts (registry : Registry) : List String := registry.userTypes.map Printer.type

theorem typeTexts_eq (reg : Registry) : reg.typeTexts =
    (reg.types.filter fun entry => !entry.2.location.isBuiltin).map fun entry => Printer.type entry.2 := by
  rw [typeTexts, userTypes, values, filter_map, map_map]
  rfl

/-- The text of the schema block, if there is one. -/
def schemaTexts (registry : Registry) : List String :=
  if registry.hasSchema then [schemaBlock registry] else []

theorem print_eq (reg : Registry) :
    reg.print = sections (reg.userDirectives.map directiveDefinition ++ reg.schemaTexts ++ reg.typeTexts) := rfl

theorem schemaBlock_eq (reg : Registry) : schemaBlock reg =
    "schema" ++ Printer.directives reg.schemaDirectives ++ block (reg.roots.map fun root =>
      root.1.text ++ ": " ++ root.2.name) := rfl

include houtline

theorem names_of_outline : reg.types.names = registry'.types.names := by
  have h := congrArg (fun r => r.types.names) houtline
  simpa [outline, names, comp_def] using h

variable {type type' : TypeDefinition}

theorem outline_of_find? {name : String} (ht : reg.type? name = some type) (ht' : registry'.type? name = some type') :
    type.outline move = type'.outline move := by
  have h := type?_outline move reg name
  rw [houtline, type?_outline, ht, ht'] at h
  exact (Option.some.inj h).symm

theorem parallel_types (hnamed : reg.Named) (hnamed' : registry'.Named) (P : TypeDefinition → TypeDefinition → Prop)
    (hP : ∀ {name type type'}, reg.type? name = some type → registry'.type? name = some type' → P type type') :
    Forall₂ (fun entry entry' => entry.1 = entry'.1 ∧ P entry.2 entry'.2) reg.types registry'.types := by
  refine parallel_of_names P (names_of_outline houtline) fun entry he entry' he' hn => ?_
  have hf : registry'.type? entry.1 = some entry'.2 := by
    rw [hn]
    exact find?_of_mem hnamed'.types_sorted he'
  exact hP (find?_of_mem hnamed.types_sorted he) hf

include hbuiltin

omit houtline in
theorem isBuiltin_of_outline (h : type.outline move = type'.outline move) :
    type.location.isBuiltin = type'.location.isBuiltin := by
  have hl : (type.outline move).location.isBuiltin = (type'.outline move).location.isBuiltin := by
    rw [h]
  rwa [TypeDefinition.outline, TypeDefinition.outline, hbuiltin, hbuiltin] at hl

theorem directiveTexts_of_outline :
    reg.userDirectives.map directiveDefinition = registry'.userDirectives.map directiveDefinition := by
  have ht : ∀ r : Registry, r.userDirectives.map directiveDefinition =
      ((r.outline move).userDirectives).map directiveDefinition := by
    intro r
    simp only [userDirectives, outline, values, map_map, filter_map, comp_def, DirectiveDefinition.relocate, hbuiltin]
    refine map_congr_left fun entry _ => ?_
    exact (directiveDefinition_relocate move entry.2).symm
  rw [ht reg, ht registry', houtline]

variable (hnamed : reg.Named) (hnamed' : registry'.Named)

include hnamed hnamed'

theorem length_typeTexts (hl : ∀ {name type type'}, reg.type? name = some type → registry'.type? name = some type' →
      (Printer.directives type.directives).length = (Printer.directives type'.directives).length) :
    reg.typeTexts.map String.length = registry'.typeTexts.map String.length := by
  rw [typeTexts_eq, typeTexts_eq]
  refine length_filter_parallel ((parallel_types houtline hnamed hnamed' (fun type type' =>
    type.location.isBuiltin = type'.location.isBuiltin ∧
      (Printer.type type).length = (Printer.type type').length) fun ht ht' => ?_).imp
        fun _ _ h => ⟨by rw [h.2.1], h.2.2⟩)
  have hs := outline_of_find? houtline ht ht'
  exact ⟨isBuiltin_of_outline hbuiltin hs, length_type hs (hl ht ht')⟩

theorem typeTexts_eq_iff : reg.typeTexts = registry'.typeTexts ↔
    ∀ {name type type'}, reg.type? name = some type → registry'.type? name = some type' →
      type.location.isBuiltin = false → Printer.directives type.directives = Printer.directives type'.directives := by
  have hl := parallel_types houtline hnamed hnamed' (fun type type' =>
    type.location.isBuiltin = type'.location.isBuiltin) fun ht ht' =>
      isBuiltin_of_outline hbuiltin (outline_of_find? houtline ht ht')
  rw [typeTexts_eq, typeTexts_eq, filter_parallel_iff (hl.imp fun _ _ h => ⟨h.1, by rw [h.2]⟩)]
  constructor
  · intro h name type type' ht ht' hp
    refine (type_eq_iff (outline_of_find? houtline ht ht')).mp ?_
    exact find?_of_parallel (fun type type' => (!type.location.isBuiltin) →
      Printer.type type = Printer.type type') h ht ht' (by rw [hp]; rfl)
  · intro h
    refine parallel_types houtline hnamed hnamed' (fun type type' => (!type.location.isBuiltin) →
      Printer.type type = Printer.type type') fun ht ht' hp => ?_
    exact (type_eq_iff (outline_of_find? houtline ht ht')).mpr
      (h ht ht' (by simpa using hp))

omit hbuiltin hnamed hnamed' in
theorem rootTexts_of_outline : (reg.roots.map fun root => root.1.text ++ ": " ++ root.2.name) =
      registry'.roots.map fun root => root.1.text ++ ": " ++ root.2.name := by
  have h := congrArg (fun r => r.roots.map fun root => root.1.text ++ ": " ++ root.2.name) houtline
  simpa [outline, comp_def, NamedRef.relocate] using h

omit hbuiltin hnamed hnamed' in
theorem length_schemaTexts (hs : (Printer.directives reg.schemaDirectives).length =
    (Printer.directives registry'.schemaDirectives).length) :
    reg.schemaTexts.map String.length = registry'.schemaTexts.map String.length := by
  have hh : reg.hasSchema = registry'.hasSchema := by
    rw [← hasSchema_outline move, houtline, hasSchema_outline]
  rw [schemaTexts, schemaTexts, hh]
  split_ifs
  · simp [schemaBlock_eq, rootTexts_of_outline houtline, hs]
  · rfl

omit hbuiltin hnamed hnamed' in
theorem schemaTexts_eq_iff : reg.schemaTexts = registry'.schemaTexts ↔
    (reg.hasSchema → Printer.directives reg.schemaDirectives = Printer.directives registry'.schemaDirectives) := by
  have hh : reg.hasSchema = registry'.hasSchema := by
    rw [← hasSchema_outline move, houtline, hasSchema_outline]
  rw [schemaTexts, schemaTexts, ← hh]
  split_ifs with h
  · rw [schemaBlock_eq, schemaBlock_eq, rootTexts_of_outline houtline]
    simp [h]
  · simp [h]

theorem print_eq_iff (he : ∀ {name type type'}, reg.type? name = some type → registry'.type? name = some type' →
      (Printer.directives type.directives).length = (Printer.directives type'.directives).length)
    (hsc : (Printer.directives reg.schemaDirectives).length =
      (Printer.directives registry'.schemaDirectives).length) : reg.print = registry'.print ↔
      (∀ {name type type'}, reg.type? name = some type → registry'.type? name = some type' →
        type.location.isBuiltin = false → Printer.directives type.directives = Printer.directives type'.directives) ∧
      (reg.hasSchema → Printer.directives reg.schemaDirectives = Printer.directives registry'.schemaDirectives) := by
  have hf := directiveTexts_of_outline houtline hbuiltin
  have hl := length_schemaTexts houtline hsc
  rw [← typeTexts_eq_iff houtline hbuiltin hnamed hnamed', ← schemaTexts_eq_iff houtline, print_eq, print_eq, hf]
  constructor
  · intro h
    have ha := sections_inj (by
      simp [hl, length_typeTexts houtline hbuiltin hnamed hnamed' he]) h
    rw [append_assoc, append_assoc] at ha
    have hc : reg.schemaTexts.length = registry'.schemaTexts.length := by
      simpa using congrArg List.length hl
    obtain ⟨hs, ht⟩ := append_inj (append_cancel_left ha) hc
    exact ⟨ht, hs⟩
  · rintro ⟨ht, hs⟩
    rw [ht, hs]

end Registry

end GraphClient
