import GraphClient.Proofs.Text.Literals
import GraphClient.Proofs.Token.Scan

/-!
# Escapes in string literals

* **`Text.stringValue_exact_iff`**: the value of a string token.
-/

namespace GraphClient.Text

open List Char Option

/-- The letters behind a backslash, each with the character that it stands for. -/
def letterEscapes : List (Char × Char) :=
  [('"', '"'), ('\\', '\\'), ('/', '/'), ('b', '\x08'), ('f', '\x0c'), ('n', '\n'), ('r', '\r'), ('t', '\t')]

/-- The hexadecimal digits with their values. -/
def hexDigits : List (Char × Nat) := "0123456789ABCDEF".toList.zipIdx ++ "abcdef".toList.zipIdx 10

/-- **What the body of a string literal stands for.** A backslash starts an escape; all else stands for itself. -/
inductive Unescapes : List Char → List Char → Prop
  | nil : Unescapes [] []
  | character {c : Char} {rest out : List Char} : c ≠ '\\' → Unescapes rest out → Unescapes (c :: rest) (c :: out)
  | letter {c d : Char} {rest out : List Char} : (c, d) ∈ letterEscapes → Unescapes rest out →
      Unescapes ('\\' :: c :: rest) (d :: out)
  | code {a b c d e : Char} {i j k l : Nat} {rest out : List Char} : (a, i) ∈ hexDigits →
      (b, j) ∈ hexDigits → (c, k) ∈ hexDigits → (d, l) ∈ hexDigits →
      e.toNat = ((i * 16 + j) * 16 + k) * 16 + l → Unescapes rest out →
      Unescapes ('\\' :: 'u' :: a :: b :: c :: d :: rest) (e :: out)

/-- The code escapes of a body, each with the characters in the places of its digits. -/
def codes : List Char → List (List Char)
  | [] => []
  | '\\' :: 'u' :: a :: b :: c :: d :: rest => [a, b, c, d] :: codes rest
  | '\\' :: _ :: rest => codes rest
  | _ :: rest => codes rest

variable {c d : Char} {n : Nat} {body out : List Char}

theorem letterChar?_eq_some_iff : letterChar? c = some d ↔ (c, d) ∈ letterEscapes := by
  constructor
  · intro h
    unfold letterChar? at h
    split at h <;> cases h <;> decide
  · have ha : letterEscapes.all fun escape => letterChar? escape.1 == some escape.2 := by decide
    exact fun h => beq_iff_eq.mp (all_eq_true.mp ha _ h)

theorem hexDigit?_eq_some_iff : hexDigit? c = some n ↔ (c, n) ∈ hexDigits := by
  constructor
  · intro h
    have ha : ∀ k : Fin 128, ∀ n ∈ hexDigit? (ofNat k), (ofNat k, n) ∈ hexDigits := by decide
    have hs : c.toNat < 128 := by
      by_contra hl
      have hg : ∀ d : Char, d.toNat < 128 → ¬c ≤ d := fun d hd he =>
        hl (Nat.lt_of_le_of_lt (le_def.mp he) hd)
      simp [hexDigit?, hg] at h
    have hi := ha ⟨c.toNat, hs⟩ n
    rw [ofNat_toNat] at hi
    exact hi h
  · have ha : hexDigits.all fun digit => hexDigit? digit.1 == some digit.2 := by decide
    exact fun h => beq_iff_eq.mp (all_eq_true.mp ha _ h)

theorem scalar?_eq_some_iff : scalar? n = some c ↔ c.toNat = n := by
  constructor
  · intro h
    rw [scalar?] at h
    split_ifs at h with hn
    obtain rfl := some.inj h
    simp only [Bool.or_eq_true, Bool.and_eq_true, decide_eq_true_eq] at hn
    have hv : n.isValidChar := by simp only [Nat.isValidChar]; omega
    exact congrArg toNat (dif_pos hv : ofNat n = ofNatAux n hv)
  · rintro rfl
    exact scalar?_toNat c

theorem hexValue?_eq_some_iff {a b : Char} : hexValue? [a, b, c, d] = some n ↔
    ∃ i j k l, (a, i) ∈ hexDigits ∧ (b, j) ∈ hexDigits ∧ (c, k) ∈ hexDigits ∧ (d, l) ∈ hexDigits ∧
      n = ((i * 16 + j) * 16 + k) * 16 + l := by
  simp only [hexValue?, ← hexDigit?_eq_some_iff, foldl_cons, foldl_nil]
  cases hexDigit? a <;> cases hexDigit? b <;> cases hexDigit? c <;> cases hexDigit? d <;> simp [eq_comm]

/-- What a body stands for is read of it, and no code escape of it has a sign. -/
theorem decode_of_unescapes (h : Unescapes body out) :
    decode body = .ok out ∧ ∀ code ∈ codes body, code.head? ≠ some '+' := by
  induction h with
  | nil => exact ⟨rfl, forall_mem_nil _⟩
  | character hc _ ih =>
    rw [decode, codes, ih.1]
    · exact ⟨rfl, ih.2⟩
    all_goals simp_all
  | @letter c d rest out hl _ ih =>
    have hu : c ≠ 'u' := by
      rintro rfl
      cases letterChar?_eq_some_iff.mpr hl
    rw [decode, codes, letterChar?_eq_some_iff.mpr hl, ih.1]
    · exact ⟨rfl, ih.2⟩
    all_goals simp_all
  | @code a b c d e i j k l rest out ha hb hc hd he _ ih =>
    have hs : a ≠ '+' := by
      rintro rfl
      cases hexDigit?_eq_some_iff.mpr ha
    have hv := hexValue?_eq_some_iff.mpr ⟨i, j, k, l, ha, hb, hc, hd, rfl⟩
    rw [decode, codes, codeChar?, if_neg hs, hv, bind_some, scalar?_eq_some_iff.mpr he, ih.1]
    exact ⟨rfl, forall_mem_cons.mpr ⟨by simpa using hs, ih.2⟩⟩

/-- **What is read of a body without signs is what it stands for.** -/
theorem unescapes_of_decode (h : decode body = .ok out)
    (hs : ∀ code ∈ codes body, code.head? ≠ some '+') : Unescapes body out := by
  have hm : ∀ {rest : List Char} {c : Char} {out : List Char}, (decode rest).map (c :: ·) = .ok out →
      ∃ tail, decode rest = .ok tail ∧ c :: tail = out := by
    intro rest c out h
    cases ht : decode rest with
    | ok tail => exact ⟨tail, rfl, Except.ok.inj (ht ▸ h)⟩
    | error => rw [ht] at h; cases h
  fun_induction decode body generalizing out with
  | case1 =>
    obtain rfl := Except.ok.inj h
    exact .nil
  | case2 a b c d rest ch ho ih =>
    rw [codes, forall_mem_cons] at hs
    obtain ⟨tail, ht, rfl⟩ := hm h
    rw [codeChar?, if_neg (by simpa using hs.1), bind_eq_some_iff] at ho
    obtain ⟨n, hv, hsc⟩ := ho
    obtain ⟨i, j, k, l, ha, hb, hc, hd, rfl⟩ := hexValue?_eq_some_iff.mp hv
    exact .code ha hb hc hd (scalar?_eq_some_iff.mp hsc) (ih ht hs.2)
  | case5 c rest _ hu ch hl ih =>
    obtain ⟨tail, ht, rfl⟩ := hm h
    rw [codes] at hs
    · exact .letter (letterChar?_eq_some_iff.mp hl) (ih ht hs)
    · exact fun _ _ _ _ _ h => absurd h hu
  | case8 c rest _ _ he hal ih =>
    obtain ⟨tail, ht, rfl⟩ := hm h
    have hc : c ≠ '\\' := by
      rintro rfl
      cases rest with
      | nil => exact hal rfl rfl
      | cons d rest => exact he d rest rfl rfl
    rw [codes] at hs
    · exact .character hc (ih ht hs)
    all_goals simp_all
  | _ => cases h

theorem quotedTail_eq {tail : List Char} (h : Lexical.QuotedTail tail) : ∃ body, tail = body ++ ['"'] := by
  induction h with
  | close => exact ⟨[], rfl⟩
  | escape c _ ih =>
    obtain ⟨body, rfl⟩ := ih
    exact ⟨'\\' :: c :: body, rfl⟩
  | @character c _ _ _ ih =>
    obtain ⟨body, rfl⟩ := ih
    exact ⟨c :: body, rfl⟩

/-- **The value of a string token is what its body stands for** just if, should the literal be accepted, none of its
code escapes has a sign in the place of its first digit. -/
theorem stringValue_exact_iff {source : String} {token : Token} (htoken : token ∈ tokenize source)
    (hkind : token.kind = .string) : ∃ body, token.text.toList = '"' :: (body ++ ['"']) ∧
      ((∀ text, stringValue token.text = .ok text ↔ Unescapes body text.toList) ↔
        ((∃ text, stringValue token.text = .ok text) → ∀ code ∈ codes body, code.head? ≠ some '+')) := by
  obtain ⟨front, rest, -, -, hlongest⟩ := (tiles_tokenize source).placed htoken
  rw [hkind] at hlongest
  obtain ⟨tail, htext, htail⟩ := (hlongest nofun nofun).lexical
  obtain ⟨body, rfl⟩ := quotedTail_eq htail
  have hvalue : ∀ text : String, stringValue token.text = .ok text ↔ decode body = .ok text.toList := by
    intro text
    have hbody : quotedBody token.text.toList = body := by simp [htext, quotedBody]
    rw [stringValue, hbody]
    cases decode body with
    | ok out => simp [Except.map, ← String.toList_inj]
    | error => simp [Except.map]
  refine ⟨body, htext, fun hall => ?_, fun hsign text => ?_⟩
  · rintro ⟨text, htext⟩
    exact (decode_of_unescapes ((hall text).mp htext)).2
  · refine ⟨fun h => unescapes_of_decode ((hvalue text).mp h) (hsign ⟨text, h⟩), fun h => ?_⟩
    exact (hvalue text).mpr (decode_of_unescapes h).1

/-- Escapes of both forms, with a plus sign that is no digit. -/
theorem stringValue_exact_escapes : let token : Token := ⟨.string, ⟨0, 14⟩, "\"\\u00e9\\\\u+\\n\""⟩
    token ∈ tokenize token.text ∧ ∃ body, token.text.toList = '"' :: (body ++ ['"']) ∧
      ((∀ text, stringValue token.text = .ok text ↔ Unescapes body text.toList) ↔
        ((∃ text, stringValue token.text = .ok text) → ∀ code ∈ codes body, code.head? ≠ some '+')) :=
  have htoken : (⟨.string, ⟨0, 14⟩, "\"\\u00e9\\\\u+\\n\""⟩ : Token) ∈ tokenize "\"\\u00e9\\\\u+\\n\"" := by
    decide +kernel
  ⟨htoken, stringValue_exact_iff htoken rfl⟩

/-- A plus sign is taken for a digit. -/
theorem stringValue_signed_code : (⟨.string, ⟨0, 8⟩, "\"\\u+041\""⟩ : Token) ∈ tokenize "\"\\u+041\"" ∧
    stringValue "\"\\u+041\"" = .ok "A" ∧ ¬∃ out, Unescapes "\\u+041".toList out := by
  refine ⟨by decide +kernel, by decide +kernel, ?_⟩
  rintro ⟨out, h⟩
  exact (decode_of_unescapes h).2 ['+', '0', '4', '1'] mem_cons_self rfl

end GraphClient.Text
