import GraphClient.Client.KotlinModule
import GraphClient.Client.Rust
import GraphClient.Client.TypeScript
import GraphClient.Proofs.RequestDocument

/-!
# Literals of request documents

A client holds its request documents as literals of its language. Here each language gets a reader of its
own: it takes one literal up to the last character and gives the text that the literal stands for.
-/

namespace GraphClient

open List Text

namespace TypeScript

/-- The character that a backslash and one more character stand for. In front of a digit, a line end and
the marks of a code it stands for something else. -/
def escapedChar? : Char → Option Char
  | 'b' => some '\x08'
  | 'f' => some '\x0c'
  | 'n' => some '\n'
  | 'r' => some '\r'
  | 't' => some '\t'
  | 'v' => some '\x0b'
  | c => if c.isDigit || ['x', 'u', '\n', '\r', '\u2028', '\u2029'].contains c then none else some c

/-- The value of a template behind its opening mark. There is none if a substitution is opened. Every line
end counts as a line feed. -/
def templateTail? : List Char → Option (List Char)
  | [] => none
  | '`' :: rest => if rest.isEmpty then some [] else none
  | '$' :: '\x7b' :: _ => none
  | '\\' :: c :: rest =>
    match escapedChar? c with
    | some ch => (templateTail? rest).map (ch :: ·)
    | none => none
  | '\r' :: '\n' :: rest => (templateTail? rest).map ('\n' :: ·)
  | '\r' :: rest => (templateTail? rest).map ('\n' :: ·)
  | c :: rest => (templateTail? rest).map (c :: ·)

def templateValue? (literal : String) : Option String :=
  match literal.toList with
  | '`' :: rest => (templateTail? rest).map String.ofList
  | _ => none

theorem templateBody_ne_brace {cs rest : List Char} (h : ∀ rest, cs ≠ '\x7b' :: rest) :
    templateBody cs ++ ['`'] ≠ '\x7b' :: rest := by
  fun_cases templateBody cs <;> simp_all

theorem templateTail?_templateBody {cs : List Char} (h : '\r' ∉ cs) :
    templateTail? (templateBody cs ++ ['`']) = some cs := by
  fun_induction templateBody cs with
  | case1 => rfl
  | case2 rest ih =>
    simp only [mem_cons, not_or] at h
    simp [templateTail?, escapedChar?, ih h.2.2]
  | case3 c rest _ hm ih =>
    simp only [mem_cons, not_or] at h
    have he : escapedChar? c = some c := by
      simp only [Bool.or_eq_true, beq_iff_eq] at hm
      rcases hm with rfl | rfl <;> decide
    simp [templateTail?, he, ih h.2]
  | case4 c rest ho hm ih =>
    simp only [mem_cons, not_or] at h
    simp only [Bool.or_eq_true, beq_iff_eq, not_or] at hm
    rw [cons_append, templateTail?, ih h.2, Option.map_some]
    · exact hm.2
    · rintro rest' rfl hb
      exact templateBody_ne_brace (fun tail ht => ho tail rfl ht) hb
    · exact fun _ _ hs => absurd hs hm.1
    · exact fun _ hr => absurd hr.symm h.1
    · exact fun hr => absurd hr.symm h.1

theorem templateValue?_templateLiteral {text : String} (h : '\r' ∉ text.toList) :
    templateValue? (templateLiteral text) = some text := by
  have hl : (templateLiteral text).toList = '`' :: (templateBody text.toList ++ ['`']) := by
    simp [templateLiteral]
  rw [templateValue?, hl]
  simp [templateTail?_templateBody h]

end TypeScript

namespace Rust

/-- The value of a raw string behind its opening quote, up to the first quote with `marks` marks behind it. -/
def rawTail? (marks : Nat) : List Char → Option (List Char)
  | [] => none
  | c :: rest =>
    if c = '"' ∧ List.replicate marks '#' <+: rest then
      if rest.length = marks then some [] else none
    else if c = '\r' then none
    else (rawTail? marks rest).map (c :: ·)

def rawValue? (literal : String) : Option String :=
  match literal.toList with
  | 'r' :: marked =>
    match marked.dropWhile (· == '#') with
    | '"' :: rest => (rawTail? (marked.takeWhile (· == '#')).length rest).map String.ofList
    | _ => none
  | _ => none

/-- Behind `run` marks there are fewer than `marks - run` more. -/
theorem not_prefix_of_longestRun {cs tail : List Char} {run marks : Nat} (hr : run < marks)
    (h : longestRun (some run) cs < marks) : ¬ replicate (marks - run) '#' <+: cs ++ '"' :: tail := by
  induction cs generalizing run with
  | nil =>
    rw [show marks - run = marks - run - 1 + 1 by omega, replicate_succ]
    simp
  | cons c cs ih =>
    rw [show marks - run = marks - (run + 1) + 1 by omega, replicate_succ, cons_append, cons_prefix_cons]
    rintro ⟨rfl, hp⟩
    simp only [longestRun, Char.reduceEq, if_false, if_true] at h
    exact ih (by omega) (by omega) hp

theorem rawTail?_append {cs : List Char} {run : Option Nat} {marks : Nat} (h : longestRun run cs < marks)
    (hr : '\r' ∉ cs) : rawTail? marks (cs ++ '"' :: replicate marks '#') = some cs := by
  induction cs generalizing run with
  | nil => simp [rawTail?]
  | cons c cs ih =>
    simp only [mem_cons, not_or] at hr
    rw [longestRun.eq_def] at h
    dsimp only at h
    have ho : ¬ (c = '"' ∧ List.replicate marks '#' <+: cs ++ '"' :: replicate marks '#') := by
      rintro ⟨rfl, hp⟩
      rw [if_pos rfl] at h
      exact not_prefix_of_longestRun (by omega) h hp
    rw [cons_append, rawTail?, if_neg ho, if_neg (Ne.symm hr.1)]
    have he : ∃ next, longestRun next cs < marks := by
      cases run with
      | none => split_ifs at h <;> exact ⟨_, h⟩
      | some n =>
        split_ifs at h
        · exact ⟨_, h⟩
        · exact ⟨_, lt_of_le_of_lt (le_max_right _ _) h⟩
        · exact ⟨_, h⟩
    obtain ⟨next, hn⟩ := he
    rw [ih hn hr.2, Option.map_some]

theorem rawValue?_rawString {text : String} (h : '\r' ∉ text.toList) : rawValue? (rawString text) = some text := by
  obtain ⟨marks, hm⟩ : ∃ marks, longestRun none text.toList + 1 = marks := ⟨_, rfl⟩
  have hl : (rawString text).toList = 'r' :: (replicate marks '#' ++
      '"' :: (text.toList ++ '"' :: replicate marks '#')) := by
    simp [rawString, hm]
  have ha : ∀ c ∈ replicate marks '#', (c == '#') := by simp
  rw [rawValue?, hl]
  simp [rawTail?_append (show longestRun none text.toList < marks by omega) h]

end Rust

namespace Kotlin

def escapedChar? : Char → Option Char
  | 't' => some '\t'
  | 'b' => some '\x08'
  | 'n' => some '\n'
  | 'r' => some '\r'
  | '\'' => some '\''
  | '"' => some '"'
  | '\\' => some '\\'
  | '$' => some '$'
  | _ => none

/-- The value of a string behind its opening quote. There is none if it holds a line end, or a dollar sign
that may open a template. -/
def stringTail? : List Char → Option (List Char)
  | [] => none
  | '"' :: rest => if rest.isEmpty then some [] else none
  | '\\' :: 'u' :: a :: b :: c :: d :: rest =>
    match (Text.hexValue? [a, b, c, d]).bind Text.scalar? with
    | some ch => (stringTail? rest).map (ch :: ·)
    | none => none
  | '\\' :: c :: rest =>
    match escapedChar? c with
    | some ch => (stringTail? rest).map (ch :: ·)
    | none => none
  | c :: rest =>
    if c = '$' ∨ c = '\n' ∨ c = '\r' then none else (stringTail? rest).map (c :: ·)

def stringValue? (literal : String) : Option String :=
  match literal.toList with
  | '"' :: rest => (stringTail? rest).map String.ofList
  | _ => none

theorem hexDigit?_lowerHex {d : Nat} (h : d < 16) : hexDigit? (lowerHex d) = some d :=
  (by decide : ∀ d : Fin 16, hexDigit? (lowerHex d) = some d.val) ⟨d, h⟩

/-- **A written character reads back as itself.** -/
theorem stringTail?_escapeChar (c : Char) (rest : List Char) :
    stringTail? (escapeChar c ++ rest) = (stringTail? rest).map (c :: ·) := by
  by_cases hl : c ∈ ['\\', '"', '$', '\n', '\r', '\t']
  · simp only [mem_cons, not_mem_nil, or_false] at hl
    rcases hl with rfl | rfl | rfl | rfl | rfl | rfl <;> simp [escapeChar, stringTail?, escapedChar?]
  · simp only [mem_cons, not_mem_nil, or_false, not_or] at hl
    obtain ⟨hs, hq, hd, hi, hr, ht⟩ := hl
    have ho : escapeChar c = if isControl c then codeEscape lowerHex c else [c] := by
      rw [escapeChar] <;> assumption
    rw [ho]
    split_ifs with hc
    · have hsm : c.toNat < 256 := by
        simp only [isControl, Bool.or_eq_true, Bool.and_eq_true, decide_eq_true_eq] at hc
        omega
      simp only [codeEscape, cons_append, nil_append]
      rw [stringTail?, hexValue?_digits (fun _ => hexDigit?_lowerHex) (by omega), Option.bind_some, scalar?_toNat]
    · simp [stringTail?, hs, hd, hi, hr]

theorem stringValue?_stringLiteral (text : String) : stringValue? (stringLiteral text) = some text := by
  have ha : ∀ cs, stringTail? (cs.flatMap escapeChar ++ ['"']) = some cs := by
    intro cs
    induction cs with
    | nil => rfl
    | cons c cs ih => rw [flatMap_cons, append_assoc, stringTail?_escapeChar, ih, Option.map_some]
  rw [stringValue?, stringLiteral, String.toList_ofList, cons_append]
  simp [ha]

end Kotlin

/-- The literals of a text are read as that text in all three languages. -/
def ReadAlike (text : String) : Prop :=
  TypeScript.templateValue? (TypeScript.templateLiteral text) = some text ∧
    Rust.rawValue? (Rust.rawString text) = some text ∧
    Kotlin.stringValue? (Kotlin.stringLiteral text) = some text

theorem readAlike_of_returnless {text : String} (h : '\r' ∉ text.toList) : ReadAlike text :=
  ⟨TypeScript.templateValue?_templateLiteral h, Rust.rawValue?_rawString h, Kotlin.stringValue?_stringLiteral text⟩

/-- **All three languages send the same document.** They read alike the literals of every text without carriage
returns, and request documents have none. -/
theorem request_literals : (∀ text : String, '\r' ∉ text.toList → ReadAlike text) ∧
      ∀ sources : List Source, (analyze sources).isOk → ∀ operation ∈ (analyze sources).operations,
        '\r' ∉ (operation.document (analyze sources).fragments).toList ∧
          ReadAlike (operation.document (analyze sources).fragments) := by
  refine ⟨fun text => readAlike_of_returnless, fun sources hok operation hoperation => ?_⟩
  obtain ⟨hformed, hused⟩ := isWellFormed_of_mem_operations hok hoperation
  have hreturn := (BoundOperation.spells_document hformed hused).returnless rfl
  exact ⟨hreturn, readAlike_of_returnless hreturn⟩

/-- Marks that some language reads as more than themselves, and a request with a quoted default. -/
theorem request_literals_marks : ReadAlike "`$\x7b\\\"##$\x7d\t" ∧ ∃ operation ∈ (analyze requestSources).operations,
      operation.fragments = ["Id", "Named"] ∧ ReadAlike (operation.document (analyze requestSources).fragments) := by
  obtain ⟨hok, operation, hmem, hfragments⟩ : (analyze requestSources).isOk ∧
      ∃ operation ∈ (analyze requestSources).operations, operation.fragments = ["Id", "Named"] := by decide +kernel
  exact ⟨request_literals.1 _ (by decide), operation, hmem, hfragments,
    (request_literals.2 requestSources hok operation hmem).2⟩

end GraphClient
