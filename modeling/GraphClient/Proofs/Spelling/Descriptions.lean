import GraphClient.Proofs.Spelling.Documents

/-!
# Written descriptions

A description of one line is printed as a string, one of several lines as a block string. Both are read as
one word; a block string need not have the value that it was printed for.

* **`Printer.lexes_description`**, **`Syntax.Grammar.reads_description`**: a description as one word.
-/

namespace GraphClient

open List Printer Lexeme Text Option
open Syntax.Rule (Reads)

namespace Lexeme

open Lexical (BlockTail tripleQuote)

/-- A text that does not end the block string it stands in. -/
def Passes (front : List Char) : Prop := ∀ rest, BlockTail rest → BlockTail (front ++ rest)

theorem Passes.append {a b : List Char} (ha : Passes a) (hb : Passes b) : Passes (a ++ b) := by
  intro rest h
  rw [append_assoc]
  exact ha _ (hb _ h)

theorem Passes.flatMap {α : Type} {f : α → List Char} {xs : List α} (h : ∀ x ∈ xs, Passes (f x)) :
    Passes (xs.flatMap f) := by
  induction xs with
  | nil => exact fun _ h => h
  | cons x xs ih =>
    exact (h x mem_cons_self).append (ih fun y hy => h y (mem_cons_of_mem _ hy))

theorem Passes.char {c : Char} (hq : c ≠ '"') (hs : c ≠ '\\') : Passes [c] := fun _ h =>
  .character (fun hf => hq (cons_prefix_cons.mp hf).1.symm) (fun hf => hs (cons_prefix_cons.mp hf).1.symm) h

/-- A quote at the front of an escaped line stands in the line, and no two others behind it. -/
theorem quote_of_escapeTriple {line tail rest : List Char}
    (h : Printer.escapeTriple line ++ '\n' :: tail = '"' :: rest) :
    ∃ more, line = '"' :: more ∧ (∀ r, more ≠ '"' :: '"' :: r) ∧ rest = Printer.escapeTriple more ++ '\n' :: tail := by
  fun_cases Printer.escapeTriple line with
  | case1 more =>
    cases h
  | case2 c more hs =>
    rw [Printer.escapeTriple] at h
    · obtain ⟨rfl, rfl⟩ := List.cons.inj h
      exact ⟨more, rfl, fun r => hs r rfl, rfl⟩
    · exact hs
  | case3 => cases h

theorem escapeTriple_ne (line tail rest : List Char) :
    Printer.escapeTriple line ++ '\n' :: tail ≠ '"' :: '"' :: '"' :: rest := by
  intro h
  obtain ⟨more, -, hs, h⟩ := quote_of_escapeTriple h
  obtain ⟨more, rfl, -, h⟩ := quote_of_escapeTriple h.symm
  obtain ⟨more, rfl, -, -⟩ := quote_of_escapeTriple h.symm
  exact hs more rfl

/-- **An escaped line does not end a block string.** -/
theorem Passes.line (line : List Char) : Passes (escapeTriple line ++ ['\n']) := by
  intro rest hr
  rw [append_assoc, singleton_append]
  induction line using escapeTriple.induct with
  | case1 more ih =>
    rw [escapeTriple]
    exact .escape ih
  | case2 c more hs ih =>
    have hl := escapeTriple_ne (c :: more) rest
    rw [escapeTriple.eq_2 _ _ hs] at hl ⊢
    refine .character ?_ ?_ ih
    · rintro ⟨tail, ht⟩
      exact hl tail ht.symm
    · rintro ⟨tail, ht⟩
      exact escapeTriple_ne more rest tail (cons.inj ht).2.symm
  | case3 => exact char (by decide) (by decide) rest hr

end Lexeme

variable (depth : Nat) (text : Option String)

namespace Printer

/-- The block string that is printed for a description of several lines. -/
def blockText (depth : Nat) (text : String) : String :=
  "\"\"\"\n" ++ String.join ((Text.textLines text).map (descriptionLine depth)) ++ indent depth ++ "\"\"\""

def isBlock (text : String) : Bool := text.toList.contains '\n'

def descriptionWord (depth : Nat) (text : String) : Word :=
  if isBlock text then ⟨.blockString, blockText depth text⟩ else .string text

def descriptionWords (depth : Nat) (text : Option String) : List Word :=
  text.toList.map (descriptionWord depth)

theorem description_some (text : String) :
    description depth (some text) = (descriptionWord depth text).text ++ "\n" ++ indent depth := by
  rw [description, descriptionWord, isBlock]
  split_ifs <;> rfl

theorem toList_indent : ∀ c ∈ (indent depth).toList, c = ' ' := by
  intro c hc
  rw [indent, String.toList_join, mem_flatMap] at hc
  obtain ⟨text, ht, hc⟩ := hc
  rw [eq_of_mem_replicate ht] at hc
  simpa using hc

theorem passes_indent : Passes (indent depth).toList := by
  rw [← flatMap_singleton' (indent depth).toList]
  refine .flatMap fun c hc => ?_
  rw [toList_indent depth c hc]
  exact .char (by decide) (by decide)

theorem passes_descriptionLine (line : String) : Passes (descriptionLine depth line).toList := by
  rw [descriptionLine, String.toList_append]
  split_ifs
  · exact .char (by decide) (by decide)
  · rw [String.toList_append, String.toList_ofList, append_assoc]
    exact (passes_indent depth).append (.line line.toList)

theorem lexes_blockText (text : String) : Lexes Any (blockText depth text) [⟨.blockString, blockText depth text⟩] := by
  let body := '\n' :: ((textLines text).flatMap (fun line => (descriptionLine depth line).toList) ++
    (indent depth).toList)
  have hp : Passes body :=
    .append (a := ['\n']) (.char (by decide) (by decide))
      ((Passes.flatMap fun line _ => passes_descriptionLine depth line).append (passes_indent depth))
  have ht : (blockText depth text).toList = '"' :: ('"' :: '"' :: body ++ ['"', '"', '"']) := by
    simp [blockText, body, flatMap_map]
  exact .word ⟨.blockString, blockText depth text⟩ ⟨_, ht, hp _ .close⟩ nofun fun _ _ => ⟨nofun, by simp, by simp⟩

theorem lexes_description : Lexes Any (description depth text) (descriptionWords depth text) := by
  cases text with
  | none => exact .empty
  | some text =>
    have hs : Shut "\n" := fun _ => rfl
    have he : Lexes Any ("\n" ++ indent depth) [] := Worded.line.before (spells_indent depth)
    rw [description_some, String.append_assoc, descriptionWords, toList_some, map_singleton, descriptionWord]
    split_ifs
    · exact (lexes_blockText depth text).before he
    · exact (Worded.string text).append he fun rest _ => hs.append _ rest

end Printer

/-- What is read of a printed description. -/
def Text.reread (depth : Nat) (text : String) : String :=
  if isBlock text then blockValue (blockText depth text) else text

namespace Syntax.Grammar

theorem reads_description : (Rule.optional description).Reads (descriptionWords depth text)
      fun node => node.map Description.text = text.map (reread depth) := by
  cases text with
  | none => exact .none
  | some text =>
    rw [descriptionWords, toList_some, map_singleton, descriptionWord, map_some, reread]
    split_ifs
    · refine .some (.one fun tok hk ht => ⟨⟨_, tok.span⟩, ⟨.block hk, rfl⟩, ?_⟩)
      exact congrArg blockValue ht
    · refine .some (.one fun tok hk ht => ⟨⟨text, tok.span⟩, ⟨.string hk ?_, rfl⟩, rfl⟩)
      rw [ht]
      exact stringValue_quote text

theorem reads_described {α : Type} {rest : Nat → Option Description → Rule α} {words : List Word} {P : α → Prop}
    (h : ∀ start node, node.map Description.text = text.map (reread depth) → (rest start node).Reads words P) :
    (described rest).Reads (descriptionWords depth text ++ words) P :=
  .offset fun start => (reads_description depth text).bind (h start)

end Syntax.Grammar

end GraphClient
