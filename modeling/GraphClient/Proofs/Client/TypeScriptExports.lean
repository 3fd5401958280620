import GraphClient.Client.TypeScript
import GraphClient.Proofs.Client.Words
import GraphClient.Proofs.Client.StarredComments

/-!
# Exported names

The names that a TypeScript file exports are read from its lines.

* **`exportedNames_body`**: the lines of a file export the names of its declarations.
-/

namespace GraphClient.TypeScript

open List String Layout Item
open Text (isWord isNamePart)

/-- The words that stand between `export` and a name. -/
def exportKeywords : List String := ["type", "interface", "class", "const", "function"]

def exportedIn? (line : List Char) : Option String := do
  let rest ← line.dropPrefix? "export ".toList
  if exportKeywords.any fun keyword => keyword.toList == rest.takeWhile (· != ' ') then
    some (ofList (((rest.dropWhile (· != ' ')).drop 1).takeWhile isNamePart))
  else none

def exportedName? (line : String) : Option String := exportedIn? line.toList

/-- **The names that code exports**, with its lines at the outermost level. -/
def exportedNames (code : List Layout) : List String :=
  code.filterMap fun
    | .line text => exportedName? text
    | _ => none

theorem exportedName?_declaration {line name : String} (keyword tail : String)
    (hk : keyword ∈ exportKeywords) (hn : isWord name) (ht : tail.toList.takeWhile isNamePart = [])
    (hl : line = "export " ++ (keyword ++ (" " ++ (name ++ tail)))) : exportedName? line = some name := by
  have hb : ∀ keyword ∈ exportKeywords, ∀ c ∈ keyword.toList, (c != ' ') := by
    simp [exportKeywords]
  have ha : ∀ c ∈ name.toList, isNamePart c := all_eq_true.mp hn
  simp only [exportedName?, exportedIn?, hl, toList_append]
  rw [dropPrefix?_append_of_beq _ (by simp)]
  simp only [Option.bind_eq_bind, Option.bind_some, takeWhile_append_of_pos (hb keyword hk),
    dropWhile_append_of_pos (hb keyword hk)]
  have han : (exportKeywords.any fun other =>
      other.toList == keyword.toList ++ takeWhile (· != ' ') (" ".toList ++ (name.toList ++ tail.toList))) =
        true :=
    any_eq_true.mpr ⟨keyword, hk, by simp⟩
  rw [if_pos han]
  simp [takeWhile_append_of_pos ha, ht]

theorem exportedName?_of_ne {line : String} {c : Char} {rest : List Char} (hl : line.toList = c :: rest)
    (hc : c ≠ 'e') : exportedName? line = none := by
  have hn : (c :: rest).dropPrefix? "export ".toList = none := by
    cases h : (c :: rest).dropPrefix? "export ".toList with
    | none => rfl
    | some suffix =>
      obtain ⟨start, hs, he⟩ := dropPrefix?_eq_some_iff.mp h
      rw [eq_of_beq he] at hs
      exact absurd (cons.inj hs).1 hc
  rw [exportedName?, exportedIn?, hl, hn]
  rfl

section Pieces

variable (code more : List Layout)

@[simp] theorem exportedNames_append : exportedNames (code ++ more) = exportedNames code ++ exportedNames more :=
  filterMap_append

omit code more in
theorem exportedNames_lines (texts : List String) :
    exportedNames (texts.map .line) = texts.filterMap exportedName? := by
  rw [exportedNames, filterMap_map]
  rfl

theorem exportedNames_separated (parts : List (List Layout)) :
    exportedNames (separated parts) = parts.flatMap exportedNames := by
  induction parts with
  | nil => rfl
  | cons part rest ih =>
    cases rest with
    | nil => simp [separated]
    | cons next rest =>
      rw [separated, exportedNames_append, flatMap_cons, ← ih]
      · rfl
      · exact fun h => cons_ne_nil _ _ h

end Pieces

theorem exportedNames_starred (doc : Doc) : exportedNames doc.starred = [] := by
  have hi : ∀ text ∈ doc.innerTexts, exportedName? text = none := by
    intro text ht
    rcases mem_append.mp ht with h | h
    · cases hd : doc.description with
      | none => simp [hd] at h
      | some desc =>
        rw [hd] at h
        obtain ⟨line, -, rfl⟩ := mem_map.mp h
        split_ifs
        · exact exportedName?_of_ne rfl (by decide)
        · exact exportedName?_of_ne (by rw [toList_append]; rfl) (by decide)
    · obtain ⟨reason, -, rfl⟩ : ∃ reason, doc.deprecated = some reason ∧ " * @deprecated " ++ reason = text := by
        simpa using h
      exact exportedName?_of_ne (by rw [toList_append]; rfl) (by decide)
  rcases doc.starred_cases with ⟨hc, -⟩ | ⟨text, hc, -⟩ | hc
  · rw [hc]
    rfl
  · have hl : exportedName? ("/** " ++ text ++ " */") = none :=
      exportedName?_of_ne (by rw [toList_append, toList_append]; rfl) (by decide)
    simp [hc, exportedNames, hl]
  · rw [hc, exportedNames_lines, filterMap_eq_nil_iff]
    refine forall_mem_append.mpr ⟨forall_mem_cons.mpr ⟨?_, hi⟩, forall_mem_singleton.mpr ?_⟩
    all_goals exact exportedName?_of_ne rfl (by decide)

/-- What stands behind the name of a constant is not part of it. -/
def Item.EndsName : Item → Prop
  | .constant _ _ typing _ => typing.toList.takeWhile isNamePart = []
  | _ => True

theorem takeWhile_behind {c : Char} {rest : List Char} (more : String) (hc : isNamePart c = false) :
    (ofList (c :: rest) ++ more).toList.takeWhile isNamePart = [] := by
  rw [toList_append, toList_ofList, cons_append, takeWhile_cons, hc]
  rfl

theorem exportedNames_braces {name he : String} (keyword tail : String) (body : List Layout)
    (hk : keyword ∈ exportKeywords) (hn : isWord name) (ht : tail.toList.takeWhile isNamePart = [])
    (hh : he ++ " \x7b" = "export " ++ (keyword ++ (" " ++ (name ++ tail)))) :
    exportedNames (braces he body) = [name] := by
  have hf := exportedName?_declaration keyword tail hk hn ht hh
  have hl : exportedName? "\x7d" = none := exportedName?_of_ne rfl (by decide)
  simp [exportedNames, braces, block, hf, hl]

theorem exportedNames_function {name : String} (tail : String) (body : List Layout) (hn : isWord name)
    (ht : tail.toList.takeWhile isNamePart = []) :
    exportedNames (braces ("export function " ++ (name ++ tail)) body) = [name] := by
  refine exportedNames_braces "function" (tail ++ " \x7b") body (by decide) hn ?_ ?_
  · rw [toList_append]
    cases hc : tail.toList with
    | nil => rfl
    | cons c rest =>
      rw [hc, takeWhile_cons] at ht
      rw [cons_append, takeWhile_cons]
      split_ifs at ht ⊢
      rfl
  · rw [show "export function " = "export " ++ ("function" ++ " ") from rfl]
    simp only [String.append_assoc]

theorem exportedNames_decoder {type : String} (body : List Layout) (hn : isWord ("decode" ++ type)) :
    exportedNames (braces (decoderHead type) body) = ["decode" ++ type] := by
  have ht : ("(value: unknown, path: string): " ++ type).toList.takeWhile isNamePart = [] :=
    takeWhile_behind type rfl
  have hh : decoderHead type =
      "export function decode" ++ type ++ "(value: unknown, path: string): " ++ type := rfl
  rw [hh, String.append_assoc]
  have hf := exportedNames_function _ body hn ht
  rwa [String.append_assoc] at hf

theorem exportedNames_code {item : Item} (hn : isWord item.name) (he : item.EndsName) :
    exportedNames item.code = [item.name] := by
  cases item with
  | «alias» doc name target =>
    have hl : exportedName? ("export type " ++ name ++ " = " ++ target ++ ";") = some name := by
      refine exportedName?_declaration "type" (" = " ++ (target ++ ";")) (by decide) hn ?_ ?_
      · exact takeWhile_behind _ rfl
      · rw [show "export type " = "export " ++ ("type" ++ " ") from rfl]
        simp only [String.append_assoc]
    rw [code, exportedNames_append, exportedNames_starred]
    simp [exportedNames, hl, Item.name]
  | interface doc name members =>
    rw [code, exportedNames_append, exportedNames_starred]
    refine exportedNames_braces "interface" " \x7b" _ (by decide) hn rfl ?_
    rw [show "export interface " = "export " ++ ("interface" ++ " ") from rfl]
    simp only [String.append_assoc, Item.name]
  | constant doc name typing value =>
    have hl : exportedName? ("export const " ++ name ++ typing ++ " = " ++ value ++ ";") = some name := by
      refine exportedName?_declaration "const" (typing ++ (" = " ++ (value ++ ";"))) (by decide) hn ?_ ?_
      · rw [toList_append, toList_append]
        cases ht : typing.toList with
        | nil => rfl
        | cons c rest =>
          rw [EndsName, ht, takeWhile_cons] at he
          rw [cons_append, takeWhile_cons]
          split_ifs at he ⊢ with hc
          rfl
      · rw [show "export const " = "export " ++ ("const" ++ " ") from rfl]
        simp only [String.append_assoc]
    rw [code, exportedNames_append, exportedNames_starred]
    simp [exportedNames, hl, Item.name]
  | builder input req opt =>
    refine exportedNames_braces "class" " \x7b" _ (by decide) hn rfl ?_
    rw [show "export class " = "export " ++ ("class" ++ " ") from rfl]
    simp only [String.append_assoc, Item.name]
  | inputEncoder input es =>
    rw [code, show "export function encode" = "export function " ++ "encode" from rfl]
    simpa only [String.append_assoc, Item.name] using exportedNames_function _ _ hn (takeWhile_behind _ rfl)
  | objectDecoder type es | unionDecoder type variants => exact exportedNames_decoder _ hn
  | request name op es =>
    rw [code]
    simpa only [String.append_assoc, Item.name] using exportedNames_function _ _ hn (takeWhile_behind _ rfl)
  | responseDecoder op root =>
    rw [code, show "export function decode" = "export function " ++ "decode" from rfl]
    simpa only [String.append_assoc, Item.name] using exportedNames_function _ _ hn (takeWhile_behind _ rfl)

/-- The declarations of a file, behind its imports. -/
def Module.body (file : Module) : List Layout :=
  separated (file.sections.map fun items => items.flatMap code)

theorem exportedNames_body {file : Module} (hn : ∀ name ∈ file.exports, isWord name)
    (he : ∀ item ∈ file.sections.flatten, item.EndsName) : exportedNames file.body = file.exports := by
  have ht : ∀ items : List Item, (∀ item ∈ items, isWord item.name ∧ item.EndsName) →
      exportedNames (items.flatMap code) = items.map Item.name := by
    intro items ha
    induction items with
    | nil => rfl
    | cons item rest ih =>
      obtain ⟨hi, hr⟩ := forall_mem_cons.mp ha
      rw [flatMap_cons, exportedNames_append, exportedNames_code hi.1 hi.2, ih hr]
      rfl
  rw [Module.body, exportedNames_separated, Module.exports, flatMap_map, map_flatten]
  refine congrArg List.flatten (map_congr_left fun items hm => ht items fun item hi => ?_)
  have hf := mem_flatten_of_mem hm hi
  exact ⟨hn _ (mem_map_of_mem hf), he item hf⟩

def supportTypes : List String := ["JsonValue", "Decoder", "Encoder", "GraphQLRequest", "ShapeMismatchError"]

def supportFunctions : List String :=
  ["expectString", "expectInt", "expectFloat", "expectBoolean", "expectPresent", "expectObject", "expectOneOf",
    "nullable", "list", "field", "typenameOf", "encodeNullable", "encodeList", "compact"]

section Support

variable {cs : List Char} {lines names : List String} {name : String}

theorem exported_skip (h : exportedIn? cs = none) (hr : lines.filterMap exportedName? = names) :
    (ofList cs :: lines).filterMap exportedName? = names := by
  rw [filterMap_cons_none, hr]
  rw [exportedName?, toList_ofList, h]

theorem exported_take (h : exportedIn? cs = some name) (hr : lines.filterMap exportedName? = names) :
    (ofList cs :: lines).filterMap exportedName? = name :: names := by
  rw [filterMap_cons_some (b := name), hr]
  rw [exportedName?, toList_ofList, h]

end Support

/-- **What the support file exports.** -/
theorem exportedNames_support : exportedNames (supportLines.map line) = supportTypes ++ supportFunctions := by
  rw [exportedNames_lines]
  repeat first
    | refine exported_skip rfl ?_
    | refine exported_take rfl ?_
  rfl

end GraphClient.TypeScript
