import GraphClient.Proofs.Text.Literals
import GraphClient.Proofs.Token.Scan

/-!
# Texts and their words

What a parser reads of a text are its words: the kinds and texts of its tokens. The words of a text can
be told from those of its parts, as long as no part runs into the next one.

* **`Worded.tokenize`**: the tokens of a whole text.
-/

namespace GraphClient

open List Text Lexeme Nat Lexical

/-! ## Words -/

/-- A token without its place. -/
structure Word where
  kind : TokenKind
  text : String

def Token.word (token : Token) : Word := ⟨token.kind, token.text⟩

namespace Word

def name (text : String) : Word := ⟨nameKind text, text⟩

def int (value : Int) : Word := ⟨.int, toString value⟩

def string (value : String) : Word := ⟨.string, quote value⟩

def mark (sign : Mark) : Word := ⟨.mark sign, sign.text⟩

@[simp] theorem kind_int (v : Int) : (int v).kind = .int := rfl

@[simp] theorem kind_string (v : String) : (string v).kind = .string := rfl

@[simp] theorem kind_mark (sign : Mark) : (mark sign).kind = .mark sign := rfl

@[simp] theorem isName_name (text : String) : (name text).kind.isName := isName_nameKind text

theorem kind_name_ne (text : String) {kind : TokenKind} (h : kind.isName = false) : (name text).kind ≠ kind := by
  rintro rfl
  cases h.symm.trans (isName_name text)

theorem kind_name_ne_keyword {text : String} (keyword : Keyword) (h : text ≠ keyword.text) :
    (name text).kind ≠ .keyword keyword := by
  intro hk
  rw [name, nameKind] at hk
  split at hk
  · next word hw =>
    obtain rfl := TokenKind.keyword.inj hk
    have ht := find?_some hw
    exact h (beq_iff_eq.mp ht).symm
  · cases hk

end Word

/-! ## What may follow -/

/-- Whether `c` belongs to a token that ends in front of it, or changes what that token is. -/
def continues (c : Char) : Bool := isNamePart c || c == '.' || c == '"'

/-- A text that does not run into a name, number or string in front of it. -/
def Closed : List Char → Prop
  | [] => True
  | c :: _ => continues c = false

def Any (_ : List Char) : Prop := True

def KeepsClosed (text : String) : Prop := ∀ rest, Closed rest → Closed (text.toList ++ rest)

variable {a : String}

theorem KeepsClosed.append {b : String} (ha : KeepsClosed a) (hb : KeepsClosed b) : KeepsClosed (a ++ b) := by
  intro rest h
  rw [String.toList_append, append_assoc]
  exact ha _ (hb _ h)

/-- A text that is closed whatever follows it. -/
def Shut (text : String) : Prop := ∀ rest, Closed (text.toList ++ rest)

theorem Shut.append (h : Shut a) (b : String) : Shut (a ++ b) := by
  intro rest
  rw [String.toList_append, append_assoc]
  exact h _

variable {c : Char} {rest : List Char}

theorem Closed.bounded {kind : TokenKind} {text : List Char} (h : Closed rest)
    (hn : kind.isName → kind = Word.nameKind (String.ofList text)) : Bounded kind text rest := by
  have hh : ∀ c ∈ rest.head?, isNamePart c = false ∧ c ≠ '.' ∧ c ≠ '"' := by
    intro c hc
    obtain ⟨rest, rfl⟩ := head?_eq_some_iff.mp hc
    simpa [Closed, continues, and_assoc] using h
  refine ⟨fun h => ⟨hn h, fun c hc => (hh c hc).1⟩, fun _ c hc => ?_, fun _ _ hc => (hh _ hc).2.2 rfl⟩
  obtain ⟨hp, ho, -⟩ := hh c hc
  rintro (rfl | hd | hs)
  · exact ho rfl
  · cases hp.symm.trans (isNamePart_of_isDigit hd)
  · cases hp.symm.trans (isNamePart_of_isNameStart hs)

/-! ## Single tokens -/

theorem Lexeme.not_isIgnored_of_isNamePart (h : (c == '-' || isNamePart c)) : (isIgnored c || c == '#') = false := by
  by_contra hc
  simp only [isIgnored, Bool.not_eq_false, Bool.or_eq_true, beq_iff_eq] at hc
  rcases hc with (((((rfl | rfl) | rfl) | rfl) | rfl) | rfl) | rfl <;> exact absurd h (by decide)

namespace Lexical

theorem not_isIgnored {kind : TokenKind} {cs : List Char} (h : Lexical kind (c :: cs)) :
    (isIgnored c || c == '#') = false := by
  cases kind with
  | mark sign => cases sign <;> (obtain ⟨rfl, -⟩ := cons.inj h; rfl)
  | name | keyword =>
    have hs : isNameStart c := by
      have hn : isName (String.ofList (c :: cs)) := h
      rw [isName, String.toList_ofList, Bool.and_eq_true] at hn
      exact hn.1
    exact not_isIgnored_of_isNamePart (by rw [isNamePart_of_isNameStart hs, Bool.or_true])
  | int | float =>
    obtain ⟨whole, tail, he, hw, -⟩ := h
    have hf := (Bool.or_eq_true _ _).mp (hw.first he)
    exact not_isIgnored_of_isNamePart ((Bool.or_eq_true _ _).mpr (hf.imp_right isNamePart_of_isDigit))
  | string | blockString =>
    obtain ⟨tail, he, -⟩ := h
    obtain ⟨rfl, -⟩ := cons.inj he
    rfl
  | eof | error => exact h.elim

theorem integerPart_toDigits (n : Nat) : IntegerPart (toDigits 10 n) ∧ IntegerPart ('-' :: toDigits 10 n) := by
  have hd : Digits (toDigits 10 n) :=
    ⟨toDigits_ne_nil, fun c hc => isDigit_of_mem_toDigits (by decide) (by decide) hc⟩
  have hz : ∀ rest, toDigits 10 n = '0' :: rest → rest = [] := by
    intro rest he
    by_cases h : n = 0
    · subst h
      exact (cons.inj he).2.symm
    · obtain ⟨c, cs, ho, hc⟩ := toDigits_head_ne h
      exact absurd (cons.inj (ho.symm.trans he)).1 hc
  exact ⟨⟨[], _, rfl, .inl rfl, hd, hz⟩, ['-'], _, rfl, .inr rfl, hd, hz⟩

theorem quotedTail_encode (cs : List Char) : QuotedTail (encode cs ++ ['"']) := by
  have hp : ∀ {c : Char} {rest : List Char}, isPlain c → QuotedTail rest → QuotedTail (c :: rest) := by
    intro c rest hc
    simp only [isPlain, Bool.and_eq_true, bne_iff_ne] at hc
    exact .character (by simp [hc])
  induction cs with
  | nil => exact .close
  | cons c cs ih =>
    rw [encode, flatMap_cons, append_assoc]
    obtain ⟨he, hc⟩ | ⟨letter, he, -, -⟩ | ⟨he, -⟩ := encodeChar_cases c
    · rw [he]
      exact hp hc ih
    · rw [he]
      exact .escape letter ih
    · have hd : ∀ n, isPlain (upperHex (n % 16)) := fun n =>
        (isPlain_upperHex (mod_lt n (by decide))).1
      rw [he]
      exact .escape 'u' (hp (hd _) (hp (hd _) (hp (hd _) (hp (hd _) ih))))

end Lexical

/-! ## Texts -/

variable {offset : Nat} {cs : List Char}

theorem tokenizeFrom_end (h : (takeTrivia false cs).2 = []) : tokenizeFrom offset cs =
      [⟨.eof, .empty (offset + byteSize (takeTrivia false cs).1), ""⟩] := by
  rw [tokenizeFrom]
  split
  · rfl
  · next he => cases h.symm.trans he

theorem tokenizeFrom_token (h : (takeTrivia false cs).2 = c :: rest) : tokenizeFrom offset cs =
      let start := offset + byteSize (takeTrivia false cs).1
      let stop := start + byteSize (scan c rest).text
      ⟨(scan c rest).kind, ⟨start, stop⟩, String.ofList (scan c rest).text⟩ ::
        tokenizeFrom stop (scan c rest).rest := by
  rw [tokenizeFrom]
  split
  · next he => cases h.symm.trans he
  · next he =>
    obtain ⟨rfl, rfl⟩ := List.cons.inj (h.symm.trans he)
    rfl

theorem takeTrivia_comment {text : List Char} (h : ∀ c ∈ text, endsComment c = false) {stop : Char}
    (hs : endsComment stop) (rest : List Char) : takeTrivia true (text ++ stop :: rest) =
      (text ++ stop :: (takeTrivia false rest).1, (takeTrivia false rest).2) := by
  induction text with
  | nil => simp [takeTrivia, hs]
  | cons c text ih =>
    rw [forall_mem_cons] at h
    simp [takeTrivia, h.1, ih h.2]

theorem takeTrivia_gap {gap : List Char} (h : Trivia false gap) (rest : List Char) :
    takeTrivia false (gap ++ rest) = (gap ++ (takeTrivia false rest).1, (takeTrivia false rest).2) := by
  induction h with
  | nil => rfl
  | ignored hc _ ih => simp [takeTrivia, hc, ih]
  | comment ht hs _ ih =>
    have hi : isIgnored '#' = false := rfl
    simp [takeTrivia, takeTrivia_comment ht hs, hi, ih]
  | lastComment _ he => cases he

theorem tokenizeFrom_gap {gap : List Char} (h : Trivia false gap) (offset : Nat) (rest : List Char) :
    tokenizeFrom offset (gap ++ rest) = tokenizeFrom (offset + byteSize gap) rest := by
  have ht := takeTrivia_gap h rest
  have hs : offset + byteSize (takeTrivia false (gap ++ rest)).1 =
      offset + byteSize gap + byteSize (takeTrivia false rest).1 := by
    rw [ht, byteSize_append, Nat.add_assoc]
  cases hr : (takeTrivia false rest).2 with
  | nil => rw [tokenizeFrom_end (by rw [ht, hr]), tokenizeFrom_end hr, hs]
  | cons d tail => rw [tokenizeFrom_token (by rw [ht, hr]), tokenizeFrom_token hr, hs]

/-- **The words of `text`**, when what follows it satisfies `ends`. Some of them may belong to no token. The text
may have carriage returns or not. -/
structure Worded (returns : Bool) (ends : List Char → Prop) (text : String) (words : List Word) : Prop where
  tokens : ∀ offset rest, ends rest → ∃ tokens : List Token, tokenizeFrom offset (text.toList ++ rest) =
        tokens ++ tokenizeFrom (offset + Text.byteSize text.toList) rest ∧
      tokens.map Token.word = words
  returnless : returns = false → '\r' ∉ text.toList

/-- The words of a text. -/
abbrev Lexes := Worded true

/-- The words of a text without carriage returns. -/
abbrev Spells := Worded false

/-- A text that may stand behind every closed one. -/
structure Trails (returns : Bool) (text : String) (words : List Word) : Prop where
  worded : Worded returns Closed text words
  keepsClosed : KeepsClosed text

namespace Worded

variable {returns : Bool} {ends ends' : List Char → Prop} {text text' : String} {words words' : List Word}

theorem lexes (h : Worded returns ends text words) : Lexes ends text words := ⟨h.tokens, nofun⟩

theorem congr (h : Worded returns ends text words) (he : words = words') : Worded returns ends text words' := he ▸ h

theorem closed (h : Worded returns Any text words) : Worded returns Closed text words :=
  ⟨fun offset rest _ => h.tokens offset rest trivial, h.returnless⟩

theorem append (h : Worded returns ends text words) (h' : Worded returns ends' text' words')
    (he : ∀ rest, ends' rest → ends (text'.toList ++ rest)) :
    Worded returns ends' (text ++ text') (words ++ words') := by
  refine ⟨fun offset rest hr => ?_, fun hp => ?_⟩
  on_goal 2 => exact String.toList_append ▸ not_mem_append (h.returnless hp) (h'.returnless hp)
  obtain ⟨ts, ht, hw⟩ := h.tokens offset (text'.toList ++ rest) (he rest hr)
  obtain ⟨ts', ht', hw'⟩ := h'.tokens (offset + byteSize text.toList) rest hr
  refine ⟨ts ++ ts', ?_, by rw [map_append, hw, hw']⟩
  rw [String.toList_append, append_assoc, ht, ht', append_assoc, byteSize_append, Nat.add_assoc]

theorem before (h : Worded returns Any text words) (h' : Worded returns ends' text' words') :
    Worded returns ends' (text ++ text') (words ++ words') := h.append h' fun _ _ => trivial

theorem behind (h : Worded returns Closed text words) (h' : Trails returns text' words') :
    Worded returns Closed (text ++ text') (words ++ words') := h.append h'.worded h'.keepsClosed

/-! ### Words and blanks -/

theorem gap (h : Trivia false text.toList) (hr : returns = false → '\r' ∉ text.toList) : Worded returns Any text [] :=
  ⟨fun offset rest _ => ⟨[], tokenizeFrom_gap h offset rest, rfl⟩, hr⟩

theorem blank (h : text.toList.all fun c => isIgnored c && (returns || c != '\r')) : Worded returns Any text [] := by
  simp only [all_eq_true, Bool.and_eq_true] at h
  refine gap ?_ fun hp hm => absurd (h _ hm).2 (by simp [hp])
  generalize text.toList = cs at h
  induction cs with
  | nil => exact .nil
  | cons c cs ih =>
    rw [forall_mem_cons] at h
    exact .ignored h.1.1 (ih h.2)

theorem space : Worded returns Any " " [] := blank (by cases returns <;> rfl)

theorem line : Worded returns Any "\n" [] := blank (by cases returns <;> rfl)

theorem empty : Worded returns Any "" [] := ⟨fun _ _ _ => ⟨[], rfl, rfl⟩, fun _ => not_mem_nil⟩

theorem scanned (word : Word) {c : Char} {cs : List Char} (he : word.text.toList = c :: cs)
    (hc : (isIgnored c || c == '#') = false) (hr : returns = false → '\r' ∉ word.text.toList)
    (hs : ∀ rest, ends rest → scan c (cs ++ rest) = ⟨word.kind, c :: cs, rest⟩) :
    Worded returns ends word.text [word] := by
  refine ⟨fun offset rest hre => ?_, hr⟩
  rw [Bool.or_eq_false_iff] at hc
  have ht : takeTrivia false (c :: (cs ++ rest)) = ([], c :: (cs ++ rest)) := by
    rw [takeTrivia, if_neg Bool.false_ne_true, hc.1, if_neg Bool.false_ne_true, hc.2, if_neg Bool.false_ne_true]
  refine ⟨[⟨word.kind, ⟨offset, offset + byteSize (c :: cs)⟩, word.text⟩], ?_, rfl⟩
  rw [he, cons_append, tokenizeFrom_token (by rw [ht]), ht, hs rest hre]
  rw [← he, String.ofList_toList]
  rfl

/-- **A text of a lexical class is a word.** -/
theorem word (word : Word) (h : Lexical word.kind word.text.toList) (hr : returns = false → '\r' ∉ word.text.toList)
    (he : ∀ rest, ends rest → Bounded word.kind word.text.toList rest) : Worded returns ends word.text [word] := by
  obtain ⟨c, cs, ht⟩ := exists_cons_of_ne_nil h.ne_nil
  rw [ht] at h he
  exact scanned word ht h.not_isIgnored hr fun rest hre => h.scan_eq (he rest hre)

theorem name {text : String} (h : isName text) : Worded returns Closed text [.name text] := by
  have ht : String.ofList text.toList = text := String.ofList_toList
  have hl : Lexical _ text.toList := .of_isName (ht.symm ▸ h)
  rw [ht] at hl
  refine word (.name text) hl (fun _ => ?_) fun rest hr => hr.bounded fun _ => congrArg Word.nameKind ht.symm
  change '\r' ∉ text.toList
  rw [isName] at h
  split at h
  · next he => simp [he]
  · next c cs he =>
    rw [Bool.and_eq_true] at h
    rw [he]
    rintro (_ | ⟨_, hm⟩)
    · cases h.1
    · cases all_eq_true.mp h.2 _ hm

theorem int (v : Int) : Worded returns Closed (toString v) [.int v] := by
  have hr : ∀ n, '\r' ∉ toDigits 10 n := fun n hm => by
    cases isDigit_of_mem_toDigits (by decide) (by decide) hm
  have ht : IntegerPart (toString v).toList ∧ '\r' ∉ (toString v).toList := by
    obtain ⟨he, -⟩ | ⟨he, -⟩ := toList_toString_int v
    · exact he ▸ ⟨(integerPart_toDigits _).1, hr _⟩
    · exact he ▸ ⟨(integerPart_toDigits _).2, not_mem_cons_of_ne_of_not_mem nofun (hr _)⟩
  exact word (.int v) ⟨_, [], (append_nil _).symm, ht.1, .int⟩ (fun _ => ht.2) fun _ hre =>
    hre.bounded nofun

theorem string (v : String) : Worded returns Closed (quote v) [.string v] := by
  have ht : (Word.string v).text.toList = '"' :: (encode v.toList ++ ['"']) := String.toList_ofList
  refine word (.string v) ⟨_, ht, quotedTail_encode _⟩ (fun _ => ?_) fun _ hr => hr.bounded nofun
  rw [ht]
  simp [return_not_mem_encode]

theorem mark (sign : Mark) : Worded returns Any sign.text [.mark sign] :=
  word (.mark sign) rfl (fun _ => by cases sign <;> decide) fun _ _ => ⟨nofun, by simp, by simp⟩

theorem spaced (text : String) {word : Word} (h : Worded returns Closed text [word]) :
    Worded returns Any (" " ++ text ++ " ") [word] :=
  (space.before h).append space fun _ _ => rfl

/-! ### Several texts -/

section Several

variable {α : Type} {text : α → String} {words : α → List Word} {items : List α}

theorem join (h : ∀ item ∈ items, Worded returns Any (text item) (words item)) :
    Worded returns Any (String.join (items.map text)) (items.flatMap words) := by
  induction items with
  | nil => exact empty
  | cons item items ih =>
    rw [forall_mem_cons] at h
    rw [map_cons, String.join_cons]
    exact h.1.before (ih h.2)

theorem intercalate {sep : String} (hs : Worded returns Any sep []) (hh : Shut sep)
    (h : ∀ item ∈ items, Worded returns Closed (text item) (words item)) :
    Worded returns Closed (String.intercalate sep (items.map text)) (items.flatMap words) := by
  induction items with
  | nil => exact empty.closed
  | cons item items ih =>
    rw [forall_mem_cons] at h
    cases items with
    | nil => simpa using h.1
    | cons next items =>
      rw [map_cons, map_cons, String.intercalate_cons_cons]
      have hf := h.1.append hs fun rest _ => hh rest
      rw [append_nil] at hf
      exact hf.before (ih h.2)

theorem commas (h : ∀ item ∈ items, Worded returns Closed (text item) (words item)) :
    Worded returns Closed (String.intercalate ", " (items.map text)) (items.flatMap words) := by
  have hs : Shut ", " := fun _ => rfl
  exact intercalate (blank (by cases returns <;> rfl)) hs h

end Several

theorem tokenize (h : Worded returns Closed text words) :
    ∃ (ts : List Token) (last : Token), GraphClient.tokenize text = ts ++ [last] ∧
      ts.map Token.word = words ∧ last.kind = .eof := by
  obtain ⟨ts, ht, hw⟩ := h.tokens 0 [] trivial
  rw [append_nil] at ht
  exact ⟨ts, _, ht.trans (congrArg _ (tokenizeFrom_end rfl)), hw, rfl⟩

end Worded

namespace Trails

variable {returns : Bool}

theorem empty : Trails returns "" [] := ⟨Worded.empty.closed, fun _ h => h⟩

variable {text : String} {words : List Word}

theorem shut (h : Worded returns Closed text words) (hs : Shut text) :
    Trails returns text words := ⟨h, fun rest _ => hs rest⟩

theorem lexes (h : Trails returns text words) : Trails true text words :=
  ⟨h.worded.lexes, h.keepsClosed⟩

theorem join {α : Type} {text : α → String} {words : α → List Word} {items : List α}
    (h : ∀ item ∈ items, Trails returns (text item) (words item)) :
    Trails returns (String.join (items.map text)) (items.flatMap words) := by
  induction items with
  | nil => exact empty
  | cons item items ih =>
    rw [forall_mem_cons] at h
    rw [map_cons, String.join_cons]
    exact ⟨h.1.worded.behind (ih h.2), h.1.keepsClosed.append (ih h.2).keepsClosed⟩

end Trails

end GraphClient
