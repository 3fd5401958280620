import GraphClient.Text.Lines
import GraphClient.Token

/-!
# Scanning

A source text is read as a list of characters; spans count bytes. Whitespace, commas, comments and
byte order marks stand between tokens and mean nothing.
-/

namespace GraphClient

open List Char

def isIgnored (c : Char) : Bool :=
  c == ' ' || c == '\t' || c == '\r' || c == '\n' || c == ',' || c == '\ufeff'

def endsComment (c : Char) : Bool := c == '\n' || c == '\r'

/-- Divides a text behind the insignificant characters at its front. -/
def takeTrivia (inComment : Bool) : List Char → List Char × List Char
  | [] => ([], [])
  | c :: rest =>
    if inComment then
      let (skipped, tail) := takeTrivia (!endsComment c) rest
      (c :: skipped, tail)
    else if isIgnored c then
      let (skipped, tail) := takeTrivia false rest
      (c :: skipped, tail)
    else if c == '#' then
      let (skipped, tail) := takeTrivia true rest
      (c :: skipped, tail)
    else ([], c :: rest)

/-- A token at the front of a text, and the text behind it. -/
structure Lexeme where
  kind : TokenKind
  text : List Char
  rest : List Char

namespace Lexeme

def after (front : List Char) (lexeme : Lexeme) : Lexeme :=
  { lexeme with text := front ++ lexeme.text }

def name (cs : List Char) : Lexeme :=
  let text := cs.takeWhile Text.isNamePart
  let kind := match Keyword.ofText? (String.ofList text) with
    | some word => .keyword word
    | none => .name
  ⟨kind, text, cs.dropWhile Text.isNamePart⟩

/-- Closes a number: it may not run into a name or a point. -/
def endNumber (kind : TokenKind) (cs : List Char) : Lexeme :=
  match cs with
  | c :: _ => if c == '.' || Text.isNameStart c then ⟨.error, [], cs⟩ else ⟨kind, [], cs⟩
  | [] => ⟨kind, [], []⟩

def exponent (kind : TokenKind) (cs : List Char) : Lexeme :=
  match cs with
  | mark :: rest =>
    if mark == 'e' || mark == 'E' then
      let sign := (rest.take 1).filter fun c => c == '+' || c == '-'
      let rest := rest.drop sign.length
      let digits := rest.takeWhile Char.isDigit
      let rest := rest.dropWhile Char.isDigit
      if digits.isEmpty then ⟨.error, mark :: sign, rest⟩
      else (endNumber .float rest).after (mark :: sign ++ digits)
    else endNumber kind cs
  | [] => ⟨kind, [], []⟩

def fraction (cs : List Char) : Lexeme :=
  match cs with
  | '.' :: rest =>
    let digits := rest.takeWhile Char.isDigit
    let rest := rest.dropWhile Char.isDigit
    if digits.isEmpty then ⟨.error, ['.'], rest⟩
    else (exponent .float rest).after ('.' :: digits)
  | _ => exponent .int cs

/-- Whether digits may stand in front of a point: there are some, without a leading zero. -/
def isWholePart : List Char → Bool
  | [] => false
  | '0' :: _ :: _ => false
  | _ => true

def number (cs : List Char) : Lexeme :=
  let sign := (cs.take 1).filter (· == '-')
  let cs := cs.drop sign.length
  let digits := cs.takeWhile Char.isDigit
  let rest := cs.dropWhile Char.isDigit
  if isWholePart digits then (fraction rest).after (sign ++ digits) else ⟨.error, sign ++ digits, rest⟩

/-- A quoted string behind its opening quote. It ends in the same line; a backslash takes the next
character with it. -/
def quoted : List Char → Lexeme
  | [] => ⟨.error, [], []⟩
  | '"' :: rest => ⟨.string, ['"'], rest⟩
  | '\\' :: c :: rest => (quoted rest).after ['\\', c]
  | c :: rest => if c == '\n' || c == '\r' then ⟨.error, [], c :: rest⟩ else (quoted rest).after [c]

def block : List Char → Lexeme
  | [] => ⟨.error, [], []⟩
  | '"' :: '"' :: '"' :: rest => ⟨.blockString, ['"', '"', '"'], rest⟩
  | '\\' :: '"' :: '"' :: '"' :: rest => (block rest).after ['\\', '"', '"', '"']
  | c :: rest => (block rest).after [c]

/-- The token at the front of a text that starts with `c`. -/
def scan (c : Char) (rest : List Char) : Lexeme :=
  match Mark.ofChar? c with
  | some mark => ⟨.mark mark, [c], rest⟩
  | none =>
    if c == '.' then
      match rest with
      | '.' :: '.' :: rest => ⟨.mark .spread, ['.', '.', '.'], rest⟩
      | _ => ⟨.error, ['.'], rest⟩
    else if c == '"' then
      match rest with
      | '"' :: '"' :: rest => (block rest).after ['"', '"', '"']
      | _ => (quoted rest).after ['"']
    else if c == '-' || c.isDigit then number (c :: rest)
    else if Text.isNameStart c then name (c :: rest)
    else ⟨.error, [c], rest⟩

/-- **The token and the text behind it make up `cs`.** -/
def Divides (lexeme : Lexeme) (cs : List Char) : Prop := lexeme.text ++ lexeme.rest = cs

theorem Divides.after {lexeme : Lexeme} {cs : List Char} (h : lexeme.Divides cs) (front : List Char) :
    (lexeme.after front).Divides (front ++ cs) :=
  (append_assoc _ _ _).trans (congrArg _ h)

theorem divides_quoted (cs : List Char) : (quoted cs).Divides cs := by
  fun_induction quoted cs <;> first | rfl | (rename_i ih; exact ih.after _)

theorem divides_block (cs : List Char) : (block cs).Divides cs := by
  fun_induction block cs <;> first | rfl | (rename_i ih; exact ih.after _)

theorem divides_name (cs : List Char) : (name cs).Divides cs := takeWhile_append_dropWhile

theorem divides_endNumber (kind : TokenKind) (cs : List Char) : (endNumber kind cs).Divides cs := by
  unfold endNumber
  split
  · split <;> rfl
  · rfl

/-- A sign in front of the digits. -/
theorem sign_append (isSign : Char → Bool) (cs : List Char) :
    (cs.take 1).filter isSign ++ cs.drop ((cs.take 1).filter isSign).length = cs := by
  cases cs with
  | nil => rfl
  | cons c rest => by_cases hc : isSign c = true <;> simp [hc]

theorem divides_exponent (kind : TokenKind) (cs : List Char) : (exponent kind cs).Divides cs := by
  unfold exponent
  split
  · rename_i mark rest
    split
    · have hs := sign_append (fun c => c == '+' || c == '-') rest
      generalize (rest.take 1).filter (fun c => c == '+' || c == '-') = sign at hs
      have hd : (rest.drop sign.length).takeWhile isDigit ++
          (rest.drop sign.length).dropWhile isDigit = _ := takeWhile_append_dropWhile
      have ha : mark :: sign ++ ((rest.drop sign.length).takeWhile isDigit ++
          (rest.drop sign.length).dropWhile isDigit) = mark :: rest := by rw [hd, cons_append, hs]
      dsimp only
      split
      · rename_i he
        rw [List.isEmpty_iff.mp he] at ha
        exact ha
      · rw [← append_assoc] at ha
        exact ha ▸ (divides_endNumber .float _).after _
    · exact divides_endNumber _ _
  · rfl

theorem divides_fraction (cs : List Char) : (fraction cs).Divides cs := by
  unfold fraction
  split
  · rename_i rest
    have hd : rest.takeWhile isDigit ++ rest.dropWhile isDigit = rest :=
      takeWhile_append_dropWhile
    dsimp only
    split
    · rename_i he
      rw [List.isEmpty_iff.mp he] at hd
      exact congrArg (cons '.') hd
    · have h := (divides_exponent .float (rest.dropWhile isDigit)).after ('.' :: rest.takeWhile isDigit)
      rwa [cons_append, hd] at h
  · exact divides_exponent _ _

theorem divides_number (cs : List Char) : (number cs).Divides cs := by
  have hs := sign_append (· == '-') cs
  unfold number
  generalize (cs.take 1).filter (· == '-') = sign at hs
  have ha : sign ++ (cs.drop sign.length).takeWhile isDigit ++
      (cs.drop sign.length).dropWhile isDigit = cs := by
    rw [append_assoc, takeWhile_append_dropWhile, hs]
  dsimp only
  split
  · have h := (divides_fraction ((cs.drop sign.length).dropWhile isDigit)).after
      (sign ++ (cs.drop sign.length).takeWhile isDigit)
    rwa [ha] at h
  · exact ha

/-- **A token and the text behind it make up the text.** -/
theorem divides_scan (c : Char) (rest : List Char) : (scan c rest).Divides (c :: rest) := by
  unfold scan
  split
  · rfl
  split
  · rename_i hd
    rw [eq_of_beq hd]
    split <;> rfl
  split
  · rename_i hq
    rw [eq_of_beq hq]
    split
    · exact (divides_block _).after _
    · exact (divides_quoted _).after _
  split
  · exact divides_number _
  split
  · exact divides_name _
  · rfl

theorem isNamePart_of_isNameStart {c : Char} (h : Text.isNameStart c = true) : Text.isNamePart c = true := by
  simp only [Text.isNameStart, Bool.or_eq_true] at h
  simp only [Text.isNamePart, isAlphanum, Bool.or_eq_true]
  exact h.imp_left Or.inl

theorem text_number_ne_nil {c : Char} (rest : List Char) (h : (c == '-' || c.isDigit) = true) :
    (number (c :: rest)).text ≠ [] := by
  have hf : ∀ {front back : List Char}, front ≠ [] → front ++ back ≠ [] := by simp_all
  have hn : ((c :: rest).take 1).filter (· == '-') ++
      ((c :: rest).drop (((c :: rest).take 1).filter (· == '-')).length).takeWhile isDigit ≠ [] := by
    by_cases hc : c = '-'
    · simp [hc]
    · have hd : c.isDigit = true := by simpa [hc] using h
      simp [hc, hd]
  unfold number
  dsimp only
  split
  · exact hf hn
  · exact hn

/-- **Every token takes a character.** -/
theorem text_scan_ne_nil (c : Char) (rest : List Char) : (scan c rest).text ≠ [] := by
  unfold scan
  split
  · simp
  split
  · split <;> simp
  split
  · split <;> simp [after]
  split
  · exact text_number_ne_nil rest (by assumption)
  split
  · rename_i hn
    simp [name, isNamePart_of_isNameStart hn]
  · simp

theorem length_rest_scan (c : Char) (rest : List Char) : (scan c rest).rest.length ≤ rest.length := by
  have hl := congrArg length (divides_scan c rest)
  have hpos := length_pos_iff.mpr (text_scan_ne_nil c rest)
  rw [length_append, length_cons] at hl
  omega

end Lexeme

theorem length_takeTrivia (inComment : Bool) (cs : List Char) :
    (takeTrivia inComment cs).2.length ≤ cs.length := by
  fun_induction takeTrivia inComment cs <;> simp_all <;> omega

def tokenizeFrom (offset : Nat) (cs : List Char) : List Token :=
  let trivia := takeTrivia false cs
  let start := offset + Text.byteSize trivia.1
  match _h : trivia.2 with
  | [] => [⟨.eof, .empty start, ""⟩]
  | c :: rest =>
    let lexeme := Lexeme.scan c rest
    let stop := start + Text.byteSize lexeme.text
    ⟨lexeme.kind, ⟨start, stop⟩, String.ofList lexeme.text⟩ :: tokenizeFrom stop lexeme.rest
termination_by cs.length
decreasing_by
  have hle := length_takeTrivia false cs
  have hscan := Lexeme.length_rest_scan c rest
  have : (takeTrivia false cs).2.length = rest.length + 1 := by rw [_h]; rfl
  omega

/-- **The tokens of a text.** -/
def tokenize (source : String) : List Token := tokenizeFrom 0 source.toList

end GraphClient
