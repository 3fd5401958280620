import Mathlib.Data.List.Basic
import GraphClient.Token.Scan

/-!
# Tokens of a text

A text is tiled by its tokens and by what stands between them.

* **`Lexeme.sound_scan`**: a token that is no error is the longest of its class.
-/

namespace GraphClient

open List Text Bool Char

def Text.isName (text : String) : Bool :=
  match text.toList with
  | [] => false
  | c :: rest => isNameStart c && rest.all isNamePart

/-- The kind of a name, which may be a keyword. -/
def Word.nameKind (text : String) : TokenKind :=
  match Keyword.ofText? text with
  | some word => .keyword word
  | none => .name

/-! ## Lexical classes -/

namespace Lexical

def Digits (text : List Char) : Prop := text ≠ [] ∧ ∀ c ∈ text, c.isDigit

/-- Digits with or without a sign. A zero stands in front of no other digit. -/
def IntegerPart (text : List Char) : Prop :=
  ∃ sign digits, text = sign ++ digits ∧ (sign = [] ∨ sign = ['-']) ∧ Digits digits ∧
    ∀ rest, digits = '0' :: rest → rest = []

def FractionalPart (text : List Char) : Prop := ∃ digits, text = '.' :: digits ∧ Digits digits

def ExponentPart (text : List Char) : Prop :=
  ∃ mark sign digits, text = mark :: (sign ++ digits) ∧ (mark = 'e' ∨ mark = 'E') ∧
    (sign = [] ∨ sign = ['+'] ∨ sign = ['-']) ∧ Digits digits

/-- A number behind its integer part. -/
inductive NumberTail : TokenKind → List Char → Prop
  | int : NumberTail .int []
  | fraction {text : List Char} : FractionalPart text → NumberTail .float text
  | exponent {text : List Char} : ExponentPart text → NumberTail .float text
  | both {text text' : List Char} : FractionalPart text → ExponentPart text' → NumberTail .float (text ++ text')

/-- A quoted string behind its opening quote. -/
inductive QuotedTail : List Char → Prop
  | close : QuotedTail ['"']
  | escape (c : Char) {rest : List Char} : QuotedTail rest → QuotedTail ('\\' :: c :: rest)
  | character {c : Char} {rest : List Char} : c ∉ ['"', '\\', '\n', '\r'] → QuotedTail rest → QuotedTail (c :: rest)

def tripleQuote : List Char := ['"', '"', '"']

/-- A block string behind its opening quotes. -/
inductive BlockTail : List Char → Prop
  | close : BlockTail tripleQuote
  | escape {rest : List Char} : BlockTail rest → BlockTail ('\\' :: tripleQuote ++ rest)
  | character {c : Char} {rest : List Char} : ¬tripleQuote <+: c :: rest → ¬ '\\' :: tripleQuote <+: c :: rest →
      BlockTail rest → BlockTail (c :: rest)

end Lexical

open Lexical in
/-- **The lexical class of each kind of token.** Keywords are names. -/
def Lexical (kind : TokenKind) (text : List Char) : Prop :=
  match kind with
  | .mark sign => text = sign.text.toList
  | .name | .keyword _ => Text.isName (String.ofList text)
  | .int | .float => ∃ whole tail, text = whole ++ tail ∧ IntegerPart whole ∧ NumberTail kind tail
  | .string => ∃ tail, text = '"' :: tail ∧ QuotedTail tail
  | .blockString => ∃ tail, text = tripleQuote ++ tail ∧ BlockTail tail
  | .eof | .error => False

/-- **The longest text of its class that can be read**, in front of `rest`. A name that is a keyword is read as
one, a number does not run into more digits, a point or a name, and two quotes not into a third. -/
structure Longest (kind : TokenKind) (text rest : List Char) : Prop where
  lexical : Lexical kind text
  longest : ∀ longer, Lexical kind longer → longer <+: text ++ rest → longer.length ≤ text.length
  name : kind.isName → kind = Word.nameKind (String.ofList text)
  number : kind = .int ∨ kind = .float → ∀ c ∈ rest.head?, ¬(c = '.' ∨ c.isDigit ∨ isNameStart c)
  string : kind = .string → text = ['"', '"'] → rest.head? ≠ some '"'

/-- **Where a token ends.** A name does not run into more of it, a number not into more digits, a point or a
name, and two quotes not into a third. A name that is a keyword is read as one. -/
structure Bounded (kind : TokenKind) (text rest : List Char) : Prop where
  name : kind.isName → kind = Word.nameKind (String.ofList text) ∧ ∀ c ∈ rest.head?, Text.isNamePart c = false
  number : kind = .int ∨ kind = .float → ∀ c ∈ rest.head?, ¬(c = '.' ∨ c.isDigit ∨ Text.isNameStart c)
  string : kind = .string → text = ['"', '"'] → rest.head? ≠ some '"'

variable {kind : TokenKind} {text rest : List Char}

theorem Bounded.of_head? {rest' : List Char} (h : Bounded kind text rest)
    (hh : rest'.head? = rest.head?) : Bounded kind text rest' :=
  ⟨hh ▸ h.name, hh ▸ h.number, hh ▸ h.string⟩

theorem Word.isName_nameKind (text : String) : (nameKind text).isName := by
  rw [nameKind]
  split <;> rfl

theorem Bounded.named (h : ∀ c ∈ rest.head?, isNamePart c = false) :
    Bounded (Word.nameKind (String.ofList text)) text rest := by
  refine ⟨fun _ => ⟨rfl, h⟩, fun hk => ?_, fun hk => ?_⟩
  · rcases hk with hk | hk <;> cases hk ▸ Word.isName_nameKind (String.ofList text)
  · cases hk ▸ Word.isName_nameKind (String.ofList text)

theorem Bounded.whole (h : kind.isName → kind = Word.nameKind (String.ofList text)) : Bounded kind text [] :=
  ⟨fun hn => ⟨h hn, nofun⟩, fun _ => nofun, fun _ _ => nofun⟩

namespace Lexeme

variable {c : Char} {rest : List Char}

theorem isNamePart_of_isDigit (h : c.isDigit) : isNamePart c := by
  rw [isNamePart, isAlphanum, h, Bool.or_true, Bool.true_or]

theorem ofChar?_of_isNamePart (h : (c == '-' || isNamePart c)) : Mark.ofChar? c = none := by
  unfold Mark.ofChar?
  split <;> first | rfl | exact absurd h (by decide)

theorem isDigit_of_isNameStart (h : isNameStart c) : c.isDigit = false := by
  have ha : c.isAlpha = (decide (c.val ≥ 'A'.val ∧ c.val ≤ 'Z'.val) ||
      (decide (c.val ≥ 'a'.val) && decide (c.val ≤ 'z'.val))) := rfl
  simp only [isNameStart, ha, or_eq_true, and_eq_true, decide_eq_true_eq, beq_iff_eq] at h
  by_contra hd
  simp only [isDigit, not_eq_false, and_eq_true, decide_eq_true_eq] at hd
  rcases h with (h | h) | rfl
  iterate 2 · exact absurd (UInt32.le_trans h.1 hd.2) (by decide)
  · exact absurd hd.2 (by decide)

theorem takeWhile_append {p : Char → Bool} {front : List Char} (hf : ∀ c ∈ front, p c)
    (hr : ∀ c ∈ rest.head?, p c = false) :
    (front ++ rest).takeWhile p = front ∧ (front ++ rest).dropWhile p = rest := by
  have hn : rest.takeWhile p = [] ∧ rest.dropWhile p = rest := by
    cases rest with
    | nil => exact ⟨rfl, rfl⟩
    | cons c rest => simp [hr c rfl]
  rw [takeWhile_append_of_pos hf, dropWhile_append_of_pos hf, hn.1, hn.2, append_nil]
  exact ⟨rfl, rfl⟩

theorem sign_of_append {isSign : Char → Bool} {sign : List Char}
    (hs : sign = [] ∨ ∃ c, isSign c ∧ sign = [c]) (hr : ∀ c ∈ rest.head?, isSign c = false) :
    ((sign ++ rest).take 1).filter isSign = sign := by
  rcases hs with rfl | ⟨c, hc, rfl⟩
  · cases rest with
    | nil => rfl
    | cons c rest => simp [hr c rfl]
  · simp [hc]

/-- No number goes on in the text. -/
def Ends (cs : List Char) : Prop := ∀ c ∈ cs.head?, ¬(c = '.' ∨ c.isDigit ∨ isNameStart c)

end Lexeme

/-! ## Tokens are scanned -/

namespace Lexical

open Lexeme

variable {kind : TokenKind} {text rest : List Char}

/-! ### Numbers -/

theorem Digits.head? (h : Digits text) : ∀ c ∈ (text ++ rest).head?, c.isDigit := by
  intro c hc
  rw [head?_append_of_ne_nil _ h.1] at hc
  exact h.2 c (mem_of_mem_head? hc)

theorem Digits.split (h : Digits text) (hr : ∀ c ∈ rest.head?, c.isDigit = false) :
    (text ++ rest).takeWhile isDigit = text ∧ (text ++ rest).dropWhile isDigit = rest ∧ text.isEmpty = false :=
  have hs := takeWhile_append h.2 hr
  ⟨hs.1, hs.2, isEmpty_eq_false_iff.mpr h.1⟩

theorem endNumber_of_ends (hr : Ends rest) : endNumber kind rest = ⟨kind, [], rest⟩ := by
  cases rest with
  | nil => rfl
  | cons c rest =>
    have hc := hr c rfl
    rw [endNumber, if_neg (by simp_all)]

theorem exponent_of_ends (hr : Ends rest) : exponent kind rest = ⟨kind, [], rest⟩ := by
  cases rest with
  | nil => rfl
  | cons c rest =>
    have hm : ¬(c == 'e' || c == 'E') := fun h => hr c rfl (.inr (.inr (by
      rcases (or_eq_true _ _).mp h with h | h <;> rw [eq_of_beq h] <;> rfl)))
    rw [exponent, if_neg hm, endNumber_of_ends hr]

theorem ExponentPart.exponent (h : ExponentPart text) (hr : Ends rest) :
    exponent kind (text ++ rest) = ⟨.float, text, rest⟩ := by
  obtain ⟨mark, sign, digits, rfl, hm, hi, hd⟩ := h
  have hp := hd.split fun c hc => eq_false_of_ne_true fun h => hr c hc (.inr (.inl h))
  have hs : ((sign ++ (digits ++ rest)).take 1).filter (fun c => c == '+' || c == '-') = sign := by
    refine sign_of_append (by rcases hi with rfl | rfl | rfl <;> simp) fun c hc => ?_
    have hc := hd.head? c hc
    by_contra h
    simp only [not_eq_false, or_eq_true, beq_iff_eq] at h
    rcases h with rfl | rfl <;> cases hc
  rw [cons_append, append_assoc, Lexeme.exponent, if_pos (by simpa using hm), hs]
  simp only [drop_left, hp, false_eq_true, if_false, endNumber_of_ends hr, Lexeme.after, append_nil, cons_append]

theorem NumberTail.fraction_eq (h : NumberTail kind text) (hr : Ends rest) :
    Lexeme.fraction (text ++ rest) = ⟨kind, text, rest⟩ := by
  have hp : ∀ {cs : List Char}, cs.head? ≠ some '.' → Lexeme.fraction cs = Lexeme.exponent .int cs := by
    intro cs hcs
    rw [Lexeme.fraction]
    rintro more rfl
    exact hcs rfl
  have ho : ∀ {digits back : List Char}, Digits digits → (∀ c ∈ back.head?, c.isDigit = false) →
      Lexeme.fraction ('.' :: digits ++ back) = (Lexeme.exponent .float back).after ('.' :: digits) := by
    intro digits back hd hb
    have hs := hd.split hb
    rw [cons_append, Lexeme.fraction, hs.1, hs.2.1, if_neg (by simp [hs.2.2])]
  have he : ∀ c ∈ rest.head?, c.isDigit = false := fun c hc =>
    eq_false_of_ne_true fun h => hr c hc (.inr (.inl h))
  cases h with
  | int =>
    rw [nil_append, hp fun hh => hr '.' hh (.inl rfl), exponent_of_ends hr]
  | fraction h =>
    obtain ⟨digits, rfl, hd⟩ := h
    rw [ho hd he, exponent_of_ends hr, Lexeme.after, append_nil]
  | exponent h =>
    rw [hp, h.exponent hr]
    obtain ⟨mark, sign, digits, rfl, rfl | rfl, -⟩ := h <;> simp
  | @both front back h h' =>
    have hm : ∀ c ∈ (back ++ rest).head?, c.isDigit = false := by
      obtain ⟨mark, sign, digits, rfl, rfl | rfl, -⟩ := h' <;> rintro c ⟨⟩ <;> rfl
    obtain ⟨digits, rfl, hd⟩ := h
    rw [append_assoc, ho hd hm, h'.exponent hr]
    rfl

variable {tail : List Char}

theorem number_eq {whole : List Char} (hw : IntegerPart whole) (ht : NumberTail kind tail)
    (hr : Ends rest) : number (whole ++ tail ++ rest) = ⟨kind, whole ++ tail, rest⟩ := by
  obtain ⟨sign, digits, rfl, hi, hd, hz⟩ := hw
  have hb : ∀ c ∈ (tail ++ rest).head?, c.isDigit = false := by
    cases ht with
    | int => exact fun c hc => eq_false_of_ne_true fun h => hr c hc (.inr (.inl h))
    | fraction h | both h _ =>
      obtain ⟨digits, rfl, -⟩ := h
      rintro c ⟨⟩
      rfl
    | exponent h => obtain ⟨mark, sign, digits, rfl, rfl | rfl, -⟩ := h <;> rintro c ⟨⟩ <;> rfl
  have hsp := hd.split hb
  have hs : ((sign ++ (digits ++ (tail ++ rest))).take 1).filter (· == '-') = sign := by
    refine sign_of_append (by simpa using hi) fun c hc => beq_false_of_ne ?_
    rintro rfl
    cases hd.head? _ hc
  have hp : isWholePart digits := by
    unfold isWholePart
    split
    · exact absurd rfl hd.1
    · cases hz _ rfl
    · rfl
  rw [append_assoc, append_assoc, number, hs]
  simp only [drop_left, hsp, hp, if_true, ht.fraction_eq hr, Lexeme.after, append_assoc]

/-! ### Strings -/

theorem QuotedTail.quoted_eq (h : QuotedTail text) : quoted (text ++ rest) = ⟨.string, text, rest⟩ := by
  induction h with
  | close => rfl
  | escape c _ ih =>
    rw [cons_append, cons_append, quoted, ih]
    rfl
  | @character c _ hc _ ih =>
    have hc : c ≠ '"' ∧ c ≠ '\\' ∧ ¬(c == '\n' || c == '\r') := by simpa using hc
    rw [cons_append, quoted, if_neg hc.2.2, ih]
    · rfl
    · exact hc.1
    · exact fun _ _ h => absurd h hc.2.1

theorem BlockTail.length_le (h : BlockTail text) : 3 ≤ text.length := by
  induction h with
  | close => exact Nat.le_refl _
  | escape _ ih => exact Nat.le_trans ih (length_append ▸ Nat.le_add_left _ _)
  | character _ _ _ ih => exact Nat.le_succ_of_le ih

theorem BlockTail.block_eq (h : BlockTail text) : block (text ++ rest) = ⟨.blockString, text, rest⟩ := by
  induction h with
  | close => rfl
  | escape _ ih =>
    rw [append_assoc, tripleQuote]
    simp only [cons_append, nil_append]
    rw [block, ih]
    rfl
  | @character c tail hq he ht ih =>
    have hs : ∀ {front : List Char}, front.length ≤ 4 → front <+: c :: tail ++ rest → front <+: c :: tail :=
      fun hl hf => prefix_of_prefix_length_le hf (prefix_append _ _)
        (Nat.le_trans hl (Nat.succ_le_succ ht.length_le))
    rw [cons_append, block, ih]
    · rfl
    · rintro more rfl hm
      exact hq (hs (by decide) ⟨more, congrArg ('"' :: ·) hm.symm⟩)
    · rintro more rfl hm
      exact he (hs (by decide) ⟨more, congrArg ('\\' :: ·) hm.symm⟩)

/-! ### The first token -/

variable {c : Char} {cs : List Char}

theorem IntegerPart.first (h : IntegerPart text) (he : c :: cs = text ++ tail) : (c == '-' || c.isDigit) := by
  obtain ⟨sign, digits, rfl, rfl | rfl, hd, -⟩ := h
  · have hc : c.isDigit := hd.head? c (congrArg head? he).symm
    rw [hc, Bool.or_true]
  · obtain ⟨rfl, -⟩ := cons.inj he
    rfl

theorem scan_number (h : (c == '-' || c.isDigit)) : scan c rest = number (c :: rest) := by
  have hm : Mark.ofChar? c = none := by
    rw [or_eq_true] at h
    exact ofChar?_of_isNamePart ((or_eq_true _ _).mpr (h.imp_right isNamePart_of_isDigit))
  have hd : (c == '.') = false := beq_false_of_ne (by rintro rfl; exact absurd h (by decide))
  have hq : (c == '"') = false := beq_false_of_ne (by rintro rfl; exact absurd h (by decide))
  simp only [scan, hm, hd, hq, h, false_eq_true, if_false, if_true]

theorem scan_name (hc : isNameStart c) : scan c rest = name (c :: rest) := by
  have ha := ofChar?_of_isNamePart (c := c) (by rw [isNamePart_of_isNameStart hc, Bool.or_true])
  have hd : (c == '.') = false := beq_false_of_ne (by rintro rfl; cases hc)
  have hq : (c == '"') = false := beq_false_of_ne (by rintro rfl; cases hc)
  have hm : (c == '-') = false := beq_false_of_ne (by rintro rfl; cases hc)
  simp only [scan, ha, hd, hq, hm, isDigit_of_isNameStart hc, hc, Bool.or_self, false_eq_true, if_false, if_true]

/-- **A text of a class is scanned**, when it ends where a token of that class does. -/
theorem scan_eq (h : Lexical kind (c :: cs)) (hr : Bounded kind (c :: cs) rest) :
    scan c (cs ++ rest) = ⟨kind, c :: cs, rest⟩ := by
  have ha : isName (String.ofList (c :: cs)) → kind.isName → scan c (cs ++ rest) = ⟨kind, c :: cs, rest⟩ := by
    intro h hnam
    obtain ⟨hk, hne⟩ := hr.name hnam
    rw [isName, String.toList_ofList, and_eq_true] at h
    have hp := takeWhile_append (forall_mem_cons.mpr ⟨isNamePart_of_isNameStart h.1, all_eq_true.mp h.2⟩)
      hne
    rw [scan_name h.1, name, ← cons_append, hp.1, hp.2, hk]
    rfl
  have hn : (∃ whole tail, c :: cs = whole ++ tail ∧ IntegerPart whole ∧ NumberTail kind tail) →
      kind = .int ∨ kind = .float → scan c (cs ++ rest) = ⟨kind, c :: cs, rest⟩ := by
    rintro ⟨whole, tail, he, hw, ht⟩ hk
    rw [scan_number (hw.first he), ← cons_append, he]
    exact number_eq hw ht (hr.number hk)
  cases kind with
  | mark sign =>
    cases sign <;> (obtain ⟨rfl, rfl⟩ := cons.inj h; rfl)
  | name | keyword word => exact ha h rfl
  | int => exact hn h (.inl rfl)
  | float => exact hn h (.inr rfl)
  | string =>
    obtain ⟨tail, he, ht⟩ := h
    obtain ⟨rfl, rfl⟩ := cons.inj he
    have hb : ∀ more, cs ++ rest ≠ '"' :: '"' :: more := by
      intro more hm
      cases ht with
      | close => exact hr.string rfl rfl (congrArg head? (cons.inj hm).2)
      | escape => cases (cons.inj hm).1
      | character hc => exact absurd (cons.inj hm).1 (by simp_all)
    have hs : scan '"' (cs ++ rest) = (quoted (cs ++ rest)).after ['"'] := by
      have hma : Mark.ofChar? '"' = none := rfl
      simp [scan, hma]
    rw [hs, ht.quoted_eq]
    rfl
  | blockString =>
    obtain ⟨tail, he, ht⟩ := h
    obtain ⟨rfl, rfl⟩ := List.cons.inj he
    have hs : ∀ more, scan '"' ('"' :: '"' :: more) = (block more).after tripleQuote := fun _ => rfl
    exact (hs (tail ++ rest)).trans (by rw [ht.block_eq]; rfl)
  | eof | error => exact h.elim

theorem ne_nil (h : Lexical kind text) : text ≠ [] := by
  rintro rfl
  cases kind with
  | mark sign => cases sign <;> cases h
  | name | keyword => cases h
  | int | float =>
    obtain ⟨whole, tail, he, ⟨sign, digits, rfl, -, hd, -⟩, -⟩ := h
    exact hd.1 (append_eq_nil_iff.mp (append_eq_nil_iff.mp he.symm).1).2
  | string | blockString =>
    obtain ⟨tail, he, -⟩ := h
    cases he
  | eof | error => exact h

theorem of_isName (h : isName (String.ofList text)) : Lexical (Word.nameKind (String.ofList text)) text := by
  rw [Word.nameKind]
  split <;> exact h

/-- **A text that ends where a token of its class does is the longest of it.** -/
theorem longest (h : Lexical kind text) (hr : Bounded kind text rest) : Longest kind text rest := by
  refine ⟨h, fun longer hl hf => ?_, fun hn => (hr.name hn).1, hr.number, hr.string⟩
  by_contra hlt
  obtain ⟨more, rfl⟩ := prefix_of_prefix_length_le (prefix_append _ _) hf (Nat.le_of_not_le hlt)
  obtain ⟨c, cs, rfl⟩ := exists_cons_of_ne_nil h.ne_nil
  have hm : more ≠ [] := by rintro rfl; exact hlt (Nat.le_of_eq (by rw [append_nil]))
  have hh : more.head? = rest.head? := by
    obtain ⟨tail, ht⟩ := hf
    rw [append_assoc] at ht
    rw [← append_cancel_left ht, head?_append_of_ne_nil _ hm]
  -- both texts would be scanned
  have hs := h.scan_eq (hr.of_head? hh)
  have ho : ∃ kind', scan c (cs ++ more) = ⟨kind', c :: (cs ++ more), []⟩ := by
    rw [cons_append] at hl
    by_cases hn : kind.isName
    · have hc : isName (String.ofList (c :: (cs ++ more))) := by
        cases kind <;> first | exact hl | cases hn
      exact ⟨_, by simpa using (of_isName hc).scan_eq (.whole fun _ => rfl)⟩
    · exact ⟨kind, by simpa using hl.scan_eq (.whole fun h => absurd h hn)⟩
  obtain ⟨kind', ho⟩ := ho
  rw [hs] at ho
  exact hm (congrArg Lexeme.rest ho)

end Lexical

/-! ## Scanning -/

variable (cs : List Char)

namespace Lexeme

open Lexical

/-- **The token is an error or the longest of its class.** -/
def Sound (lexeme : Lexeme) : Prop := lexeme.kind = .error ∨ Longest lexeme.kind lexeme.text lexeme.rest

theorem head?_dropWhile (p : Char → Bool) (cs : List Char) : ∀ c ∈ (cs.dropWhile p).head?, p c = false := by
  intro c hc
  have h := head?_dropWhile_not p cs
  rw [Option.mem_def.mp hc] at h
  exact h

theorem digits_takeWhile {cs : List Char} (h : (cs.takeWhile isDigit).isEmpty ≠ true) : Digits (cs.takeWhile isDigit) :=
  ⟨fun hn => h (isEmpty_iff.mpr hn), all_eq_true.mp all_takeWhile⟩

theorem endNumber_cases (kind : TokenKind) {cs : List Char} (hs : ∀ c ∈ cs.head?, c.isDigit = false) :
    (endNumber kind cs).kind = .error ∨ endNumber kind cs = ⟨kind, [], cs⟩ ∧ Ends cs := by
  cases cs with
  | nil => exact .inr ⟨rfl, fun _ => nofun⟩
  | cons c rest =>
    rw [endNumber]
    split_ifs with hc
    · exact .inl rfl
    · refine .inr ⟨rfl, fun d hd => ?_⟩
      obtain rfl := Option.some.inj hd
      simpa [hs c rfl] using hc

theorem sign_cases (isSign : Char → Bool) (cs : List Char) :
    (cs.take 1).filter isSign = [] ∨ ∃ c, isSign c ∧ (cs.take 1).filter isSign = [c] := by
  cases cs with
  | nil => exact .inl rfl
  | cons c rest =>
    by_cases hc : isSign c
    · exact .inr ⟨c, hc, by simp [hc]⟩
    · exact .inl (by simp [hc])

theorem exponent_cases (kind : TokenKind) {cs : List Char} (hc : ∀ c ∈ cs.head?, c.isDigit = false) :
    (exponent kind cs).kind = .error ∨ Ends (exponent kind cs).rest ∧
      ((exponent kind cs).kind = kind ∧ (exponent kind cs).text = [] ∨
        (exponent kind cs).kind = .float ∧ ExponentPart (exponent kind cs).text) := by
  have hn : ∀ (kind : TokenKind) {cs} (front), (∀ c ∈ cs.head?, c.isDigit = false) →
      ((endNumber kind cs).after front).kind = .error ∨ Ends ((endNumber kind cs).after front).rest ∧
        ((endNumber kind cs).after front).kind = kind ∧ ((endNumber kind cs).after front).text = front := by
    intro kind cs front hc
    rcases endNumber_cases kind hc with h | ⟨h, he⟩
    · exact .inl h
    · rw [h]
      exact .inr ⟨he, rfl, append_nil _⟩
  cases cs with
  | nil => exact .inr ⟨fun _ => nofun, .inl ⟨rfl, rfl⟩⟩
  | cons mark rest =>
    unfold exponent
    dsimp only
    split_ifs with hm hd
    · exact .inl rfl
    · have hs := sign_cases (fun c => c == '+' || c == '-') rest
      generalize (rest.take 1).filter (fun c => c == '+' || c == '-') = sign at hd hs ⊢
      refine (hn .float _ (head?_dropWhile isDigit (rest.drop sign.length))).imp id fun ⟨he, hk, ht⟩ => ?_
      refine ⟨he, .inr ⟨hk, ht.symm ▸ ?_⟩⟩
      exact ⟨mark, sign, _, rfl, by simpa using hm, by simpa using hs, digits_takeWhile hd⟩
    · exact (hn kind [] hc).imp id fun ⟨he, h⟩ => ⟨he, .inl h⟩

theorem fraction_cases {cs : List Char} (hc : ∀ c ∈ cs.head?, c.isDigit = false) :
    (fraction cs).kind = .error ∨ Ends (fraction cs).rest ∧ NumberTail (fraction cs).kind (fraction cs).text := by
  unfold fraction
  split
  · next rest =>
    dsimp only
    split_ifs with hd
    · exact .inl rfl
    · have hf : FractionalPart ('.' :: rest.takeWhile isDigit) := ⟨_, rfl, digits_takeWhile hd⟩
      refine (exponent_cases .float (head?_dropWhile isDigit rest)).imp id fun h => ⟨h.1, ?_⟩
      rw [after]
      rcases h.2 with ⟨hk, ht⟩ | ⟨hk, he⟩
      · rw [hk, ht, append_nil]
        exact .fraction hf
      · rw [hk]
        exact .both hf he
  · refine (exponent_cases .int hc).imp id fun h => ⟨h.1, ?_⟩
    rcases h.2 with ⟨hk, ht⟩ | ⟨hk, he⟩
    · rw [hk, ht]
      exact .int
    · rw [hk]
      exact .exponent he

theorem longest_number {kind : TokenKind} {whole tail rest : List Char} (hw : IntegerPart whole)
    (ht : NumberTail kind tail) (he : Ends rest) : Longest kind (whole ++ tail) rest := by
  have hk : kind = .int ∨ kind = .float := by cases ht <;> simp
  rcases hk with rfl | rfl <;> exact longest ⟨_, _, rfl, hw, ht⟩ ⟨nofun, fun _ => he, nofun⟩

theorem sound_number : (number cs).Sound := by
  have hs := sign_cases (· == '-') cs
  unfold number
  generalize (cs.take 1).filter (· == '-') = sign at hs ⊢
  dsimp only
  split_ifs with hw
  · have hi : IntegerPart (sign ++ (cs.drop sign.length).takeWhile isDigit) := by
      refine ⟨_, _, rfl, by simpa using hs, digits_takeWhile ?_, fun rest hr => ?_⟩
      · intro he
        rw [isEmpty_iff.mp he] at hw
        cases hw
      · rw [hr] at hw
        cases rest with
        | nil => rfl
        | cons c rest => cases hw
    exact (fraction_cases (head?_dropWhile isDigit (cs.drop sign.length))).imp id fun ⟨hn, ht⟩ =>
      longest_number hi ht hn
  · exact .inl rfl

theorem quoted_cases : (quoted cs).kind = .error ∨ (quoted cs).kind = .string ∧ QuotedTail (quoted cs).text := by
  fun_induction quoted cs with
  | case1 => exact .inl rfl
  | case2 => exact .inr ⟨rfl, .close⟩
  | case3 c rest ih => exact ih.imp id fun h => ⟨h.1, .escape c h.2⟩
  | case4 => exact .inl rfl
  | case5 c rest hq he hl ih =>
    refine ih.imp id fun h => ⟨h.1, .character ?_ h.2⟩
    have hb : c ≠ '\\' := by
      rintro rfl
      cases rest with
      | nil => cases h.1
      | cons d rest => exact he d rest rfl rfl
    simp only [or_eq_true, beq_iff_eq] at hl
    simpa [hb, hl] using hq

theorem block_cases : (block cs).kind = .error ∨ (block cs).kind = .blockString ∧ BlockTail (block cs).text := by
  fun_induction block cs with
  | case1 => exact .inl rfl
  | case2 => exact .inr ⟨rfl, .close⟩
  | case3 rest ih => exact ih.imp id fun h => ⟨h.1, .escape h.2⟩
  | case4 c rest hq he ih =>
    have hi : c :: (block rest).text <+: c :: rest := ⟨_, congrArg (c :: ·) (divides_block rest)⟩
    refine ih.imp id fun h => ⟨h.1, .character (fun hf => ?_) (fun hf => ?_) h.2⟩
    · obtain ⟨tail, ht⟩ := hf.trans hi
      obtain ⟨rfl, rfl⟩ := cons.inj ht
      exact hq tail rfl rfl
    · obtain ⟨tail, ht⟩ := hf.trans hi
      obtain ⟨rfl, rfl⟩ := cons.inj ht
      exact he tail rfl rfl

theorem sound_scan (c : Char) (rest : List Char) : (scan c rest).Sound := by
  unfold scan
  split
  · next sign hs =>
    have ht : sign.text.toList = [c] := by
      unfold Mark.ofChar? at hs
      split at hs <;> cases hs <;> rfl
    exact .inr (longest ht.symm ⟨fun h => (by cases h), by simp, by simp⟩)
  split_ifs with hdo hq hnu hn
  · split
    · exact .inr (longest rfl ⟨fun h => (by cases h), by simp, by simp⟩)
    · exact .inl rfl
  · split
    · next tail =>
      refine (block_cases tail).imp id fun h => ?_
      obtain ⟨hk, ht⟩ := h
      rw [after, hk]
      exact longest ⟨_, rfl, ht⟩ ⟨fun h => (by cases h), by simp, by simp⟩
    · next hb =>
      refine (quoted_cases rest).imp id fun h => ?_
      obtain ⟨hk, ht⟩ := h
      rw [after, hk]
      refine longest ⟨_, rfl, ht⟩ ⟨fun h => (by cases h), by simp, fun _ he hh => ?_⟩
      obtain ⟨tail, ha⟩ := head?_eq_some_iff.mp hh
      have hd : (quoted rest).text ++ (quoted rest).rest = rest := divides_quoted rest
      rw [show (quoted rest).text = ['"'] from (List.cons.inj he).2, ha] at hd
      exact hb tail hd.symm
  · exact sound_number _
  · have ht : (c :: rest).takeWhile isNamePart = c :: rest.takeWhile isNamePart :=
      takeWhile_cons_of_pos (isNamePart_of_isNameStart hn)
    have hi : isName (String.ofList ((c :: rest).takeWhile isNamePart)) := by
      rw [ht, isName, String.toList_ofList, and_eq_true]
      exact ⟨hn, all_takeWhile⟩
    exact .inr (longest (of_isName hi) (.named (head?_dropWhile isNamePart (c :: rest))))
  · exact .inl rfl

theorem Sound.ne_eof {lexeme : Lexeme} (h : lexeme.Sound) : lexeme.kind ≠ .eof := by
  intro he
  rcases h with h | h
  · cases he.symm.trans h
  · exact (he ▸ h.lexical : Lexical .eof lexeme.text)

end Lexeme

/-! ## Gaps -/

/-- **What may stand between tokens.** Only at the end of a text has a comment no line end. -/
inductive Trivia (atEnd : Bool) : List Char → Prop
  | nil : Trivia atEnd []
  | ignored {c : Char} {rest : List Char} : isIgnored c → Trivia atEnd rest → Trivia atEnd (c :: rest)
  | comment {text rest : List Char} {stop : Char} : (∀ c ∈ text, endsComment c = false) →
      endsComment stop → Trivia atEnd rest → Trivia atEnd ('#' :: (text ++ stop :: rest))
  | lastComment {text : List Char} : (∀ c ∈ text, endsComment c = false) → atEnd → Trivia atEnd ('#' :: text)

theorem takeTrivia_append (inComment : Bool) (cs : List Char) :
    (takeTrivia inComment cs).1 ++ (takeTrivia inComment cs).2 = cs := by
  fun_induction takeTrivia inComment cs <;> simp_all

/-- The insignificant characters at the front of a text, of which `front` may have been read in a comment. -/
theorem trivia_takeTrivia (inComment : Bool) (cs : List Char) {front : List Char}
    (hf : ∀ c ∈ front, endsComment c = false) : Trivia (takeTrivia inComment cs).2.isEmpty
      (if inComment then '#' :: (front ++ (takeTrivia inComment cs).1) else (takeTrivia inComment cs).1) := by
  fun_induction takeTrivia inComment cs generalizing front with
  | case1 inComment =>
    cases inComment with
    | true => exact .lastComment (by simpa using hf) rfl
    | false => exact .nil
  | case2 c rest skipped tail he ih =>
    cases hc : endsComment c with
    | true =>
      rw [he, hc] at ih
      exact .comment hf hc (ih (forall_mem_nil _))
    | false =>
      rw [he, hc] at ih
      have hf' : ∀ d ∈ front ++ [c], endsComment d = false := by simpa [or_imp, forall_and] using ⟨hf, hc⟩
      simpa using ih hf'
  | case3 inComment c rest ho hi skipped tail he ih =>
    rw [he] at ih
    rw [if_neg ho]
    exact .ignored hi (ih (forall_mem_nil _))
  | case4 inComment c rest ho hi hh skipped tail he ih =>
    rw [he] at ih
    rw [if_neg ho, eq_of_beq hh]
    exact ih (forall_mem_nil _)
  | case5 inComment c rest ho =>
    rw [if_neg ho]
    exact .nil

/-! ## Sizes in bytes -/

namespace Text

theorem byteSize_eq : byteSize cs = (String.ofList cs).utf8ByteSize := by
  induction cs with
  | nil => rfl
  | cons c cs ih =>
    rw [String.ofList_cons, String.utf8ByteSize_append, ← ih, String.utf8ByteSize_singleton]
    rfl

theorem byteSize_append (a b : List Char) : byteSize (a ++ b) = byteSize a + byteSize b := by
  simp [byteSize_eq]

theorem byteSize_pos {cs : List Char} (h : cs ≠ []) : 0 < byteSize cs := by
  obtain ⟨c, cs, rfl⟩ := exists_cons_of_ne_nil h
  exact Nat.lt_of_lt_of_le (utf8Size_pos c) (Nat.le_add_right _ _)

theorem isValid_byteSize {src : String} {front rest : List Char} (h : src.toList = front ++ rest) :
    String.Pos.Raw.IsValid src ⟨byteSize front⟩ := by
  refine String.Pos.Raw.isValid_iff_exists_append.mpr ⟨.ofList front, .ofList rest, ?_, ?_⟩
  · rw [← String.ofList_append, ← h, String.ofList_toList]
  · rw [byteSize_eq]
    rfl

end Text

/-! ## Tiles -/

/-- **Tokens and gaps make up a text** that stands behind `before`. -/
inductive Tiles : List Char → List Char → List Token → Prop
  | last {before gap : List Char} : Trivia true gap →
      Tiles before gap [⟨.eof, .empty (Text.byteSize (before ++ gap)), ""⟩]
  | token {before gap text rest : List Char} {kind : TokenKind} {tokens : List Token} : Trivia false gap →
      text ≠ [] → kind ≠ .eof → (kind ≠ .error → Longest kind text rest) →
      Tiles (before ++ gap ++ text) rest tokens →
      Tiles before (gap ++ text ++ rest) (⟨kind, ⟨Text.byteSize (before ++ gap),
        Text.byteSize (before ++ gap ++ text)⟩, String.ofList text⟩ :: tokens)

theorem tiles_tokenizeFrom (before : List Char) {offset : Nat} (ho : offset = byteSize before)
    (cs : List Char) : Tiles before cs (tokenizeFrom offset cs) := by
  fun_induction tokenizeFrom offset cs generalizing before with
  | case1 offset cs trivia start h =>
    have hg : Trivia trivia.2.isEmpty trivia.1 := trivia_takeTrivia false cs (forall_mem_nil _)
    have hc : trivia.1 ++ trivia.2 = cs := takeTrivia_append false cs
    have hs : start = byteSize (before ++ trivia.1) := by rw [byteSize_append, ← ho]
    rw [h] at hg hc
    rw [hs, ← hc, append_nil]
    exact .last hg
  | case2 offset cs trivia start c rest h lexeme stop ih =>
    have hg : Trivia trivia.2.isEmpty trivia.1 := trivia_takeTrivia false cs (forall_mem_nil _)
    have hc : trivia.1 ++ trivia.2 = cs := takeTrivia_append false cs
    have hd : lexeme.text ++ lexeme.rest = c :: rest := Lexeme.divides_scan c rest
    have hso : lexeme.Sound := Lexeme.sound_scan c rest
    have hs : start = byteSize (before ++ trivia.1) := by rw [byteSize_append, ← ho]
    have hst : stop = byteSize (before ++ trivia.1 ++ lexeme.text) := by
      rw [byteSize_append, ← hs]
    have ht := ih _ hst
    rw [h] at hg hc
    rw [hst] at ht ⊢
    rw [hs, ← hc, ← hd, ← append_assoc]
    exact .token hg (Lexeme.text_scan_ne_nil c rest) hso.ne_eof hso.resolve_left ht

namespace Tiles

variable {before text : List Char} {toks : List Token}

/-- **The end of the text is the last token, and only the last.** -/
theorem ends (h : Tiles before text toks) : ∃ front, toks = front ++ [⟨.eof, .empty (byteSize (before ++ text)), ""⟩] ∧
      ∀ tok ∈ front, tok.kind ≠ .eof ∧ tok.span.start < tok.span.stop := by
  induction h with
  | last => exact ⟨[], rfl, forall_mem_nil _⟩
  | token _ hw hk _ _ ih =>
    obtain ⟨front, rfl, hf⟩ := ih
    rw [← append_assoc, ← append_assoc]
    refine ⟨_, rfl, forall_mem_cons.mpr ⟨⟨hk, ?_⟩, hf⟩⟩
    have hp := byteSize_pos hw
    simp only [byteSize_append]
    omega

/-- **The tokens stand one behind the other.** -/
theorem ordered (h : Tiles before text toks) : (∀ tok ∈ toks, byteSize before ≤ tok.span.start) ∧
    toks.Pairwise fun a b => a.span.start < b.span.start ∧ a.span.stop ≤ b.span.start := by
  induction h with
  | last =>
    refine ⟨forall_mem_singleton.mpr ?_, pairwise_singleton _ _⟩
    rw [byteSize_append]
    exact Nat.le_add_right _ _
  | token _ hw _ _ _ ih =>
    have hp := byteSize_pos hw
    simp only [byteSize_append] at ih ⊢
    refine ⟨forall_mem_cons.mpr ⟨Nat.le_add_right _ _, fun tok ht => ?_⟩,
      pairwise_cons.mpr ⟨fun tok ht => ⟨?_, ih.1 tok ht⟩, ih.2⟩⟩
    · exact Nat.le_trans (Nat.le_trans (Nat.le_add_right _ _) (Nat.le_add_right _ _)) (ih.1 tok ht)
    · exact Nat.lt_of_lt_of_le (Nat.lt_add_of_pos_right hp) (ih.1 tok ht)

/-- **A token stands in the text where its span says.** -/
theorem placed (h : Tiles before text toks) {tok : Token} (ht : tok ∈ toks) :
    ∃ front rest, before ++ text = front ++ tok.text.toList ++ rest ∧
      tok.span = ⟨byteSize front, byteSize (front ++ tok.text.toList)⟩ ∧
      (tok.kind ≠ .eof → tok.kind ≠ .error → Longest tok.kind tok.text.toList rest) := by
  induction h with
  | @last before gap =>
    rw [mem_singleton.mp ht]
    exact ⟨before ++ gap, [], by simp, by simp [Span.empty], fun h => absurd rfl h⟩
  | @token before gap word rest kind toks _ _ _ hl _ ih =>
    rcases mem_cons.mp ht with rfl | ht
    · exact ⟨before ++ gap, rest, by simp, by simp, fun _ h => by simpa using hl h⟩
    · obtain ⟨front, rest', he, h⟩ := ih ht
      exact ⟨front, rest', by rw [← he]; simp, h⟩

end Tiles

/-! ## Whole texts -/

theorem tiles_tokenize (src : String) : Tiles [] src.toList (tokenize src) := tiles_tokenizeFrom [] rfl _

theorem tokenize_ordered (text : String) : (tokenize text).Pairwise fun a b => a.span.start < b.span.start :=
  (tiles_tokenize text).ordered.2.imp And.left

theorem start_le_stop {text : String} {t : Token} (h : t ∈ tokenize text) : t.span.start ≤ t.span.stop := by
  obtain ⟨front, rest, -, hs, -⟩ := (tiles_tokenize text).placed h
  rw [hs, byteSize_append]
  exact Nat.le_add_right _ _

theorem tokenize_ends (text : String) : ∃ last, (tokenize text).getLast? = some last ∧ last.kind = .eof := by
  obtain ⟨front, he, -⟩ := (tiles_tokenize text).ends
  exact ⟨_, he ▸ getLast?_concat, rfl⟩

theorem tokenize_single (text : String) : (tokenize text).Pairwise fun t _ => t.kind ≠ .eof := by
  obtain ⟨front, he, hf⟩ := (tiles_tokenize text).ends
  rw [he, pairwise_append]
  refine ⟨?_, pairwise_singleton _ _, fun t ht _ _ => (hf t ht).1⟩
  exact pairwise_of_forall_mem_list fun t ht _ _ => (hf t ht).1

/-- A token that is a name has the text of a name, and the kind that goes with its text. -/
def Token.Named (token : Token) : Prop :=
  token.kind.isName → Text.isName token.text ∧ token.kind = Word.nameKind token.text

/-- **The names among the tokens of a text have the texts of names.** -/
theorem tokenize_named (text : String) : ∀ t ∈ tokenize text, t.Named := by
  intro t ht hn
  obtain ⟨front, rest, -, -, hlo⟩ := (tiles_tokenize text).placed ht
  obtain ⟨kind, span, word⟩ := t
  have ho : Longest kind word.toList rest := hlo (by rintro rfl; cases hn) (by rintro rfl; cases hn)
  have hk := ho.name hn
  have hl := ho.lexical
  rw [String.ofList_toList] at hk
  refine ⟨?_, hk⟩
  cases kind <;> first | exact String.ofList_toList (s := word) ▸ hl | cases hn

theorem text_of_mark {text : String} {t : Token} (ht : t ∈ tokenize text) {sign : Mark}
    (hk : t.kind = .mark sign) : t.text = sign.text := by
  obtain ⟨front, rest, -, -, hl⟩ := (tiles_tokenize text).placed ht
  rw [hk] at hl
  exact String.toList_inj.mp (hl nofun nofun).lexical

/-- **The tokens of a text tile it.** They end with its end, an empty token behind its last character. The
others take characters and stand one behind the other, between gaps of insignificant characters, and each
that is no error is the longest that can be read. -/
theorem tokenize_tiles (source : String) : Tiles [] source.toList (tokenize source) ∧
      (∃ front, tokenize source = front ++ [⟨.eof, .empty source.utf8ByteSize, ""⟩] ∧
        ∀ token ∈ front, token.kind ≠ .eof ∧ token.span.start < token.span.stop) ∧
      ((tokenize source).Pairwise fun a b => a.span.start < b.span.start ∧ a.span.stop ≤ b.span.start) ∧
      ∀ token ∈ tokenize source, String.Pos.Raw.IsValid source ⟨token.span.start⟩ ∧
        String.Pos.Raw.IsValid source ⟨token.span.stop⟩ := by
  have htiles := tiles_tokenize source
  refine ⟨htiles, ?_, htiles.ordered.2, fun token htoken => ?_⟩
  · obtain ⟨front, heq, hfront⟩ := htiles.ends
    rw [nil_append, Text.byteSize_eq, String.ofList_toList] at heq
    exact ⟨front, heq, hfront⟩
  · obtain ⟨front, rest, heq, hspan, -⟩ := htiles.placed htoken
    rw [nil_append] at heq
    rw [hspan]
    exact ⟨isValid_byteSize (heq.trans (append_assoc _ _ _)), isValid_byteSize heq⟩

end GraphClient
