import Mathlib.Data.List.Basic
import GraphClient.Syntax.Literals

/-!
# Written literals

The literals of strings and integers read back as what they were written for.

* **`Text.stringValue_quote`**: the value of a quoted text is the text.
* **`Syntax.Parser.intValue?_toString`**: the value of a written 64-bit integer is the integer.
-/

namespace GraphClient

open List Nat Binary64

namespace Text

/-- A character that stands for itself in a string literal. -/
def isPlain (c : Char) : Bool := c != '"' && c != '\\' && c != '\n' && c != '\r'

/-- **The ways to write a character of a string**: as it is, behind a backslash, or as a code. -/
theorem encodeChar_cases (c : Char) : (encodeChar c = [c] ∧ isPlain c) ∨
      (∃ letter, encodeChar c = ['\\', letter] ∧ letter ≠ 'u' ∧ letterChar? letter = some c) ∨
      (encodeChar c = codeEscape upperHex c ∧ c.toNat < 256) := by
  by_cases hq : c = '"'
  · subst hq
    exact .inr (.inl ⟨'"', rfl, by decide, rfl⟩)
  by_cases hs : c = '\\'
  · subst hs
    exact .inr (.inl ⟨'\\', rfl, by decide, rfl⟩)
  by_cases hl : c = '\n'
  · subst hl
    exact .inr (.inl ⟨'n', rfl, by decide, rfl⟩)
  by_cases hr : c = '\r'
  · subst hr
    exact .inr (.inl ⟨'r', rfl, by decide, rfl⟩)
  by_cases ht : c = '\t'
  · subst ht
    exact .inr (.inl ⟨'t', rfl, by decide, rfl⟩)
  have ho : encodeChar c = if isControl c then codeEscape upperHex c else [c] := by
    rw [encodeChar] <;> assumption
  by_cases hc : isControl c
  · refine .inr (.inr ⟨by rw [ho, if_pos hc], ?_⟩)
    simp only [isControl, Bool.or_eq_true, Bool.and_eq_true, decide_eq_true_eq] at hc
    omega
  · refine .inl ⟨by rw [ho, if_neg hc], ?_⟩
    simp [isPlain, hq, hs, hl, hr]

theorem hexDigit?_upperHex {d : Nat} (h : d < 16) : hexDigit? (upperHex d) = some d :=
  (by decide : ∀ d : Fin 16, hexDigit? (upperHex d) = some d.val) ⟨d, h⟩

theorem isPlain_upperHex {d : Nat} (h : d < 16) : isPlain (upperHex d) ∧ upperHex d ≠ '+' :=
  (by decide : ∀ d : Fin 16, isPlain (upperHex d) ∧ upperHex d ≠ '+') ⟨d, h⟩

theorem return_not_mem_encode (cs : List Char) : '\r' ∉ encode cs := by
  intro hm
  obtain ⟨c, -, hm⟩ := mem_flatMap.mp hm
  obtain ⟨he, hp⟩ | ⟨letter, he, -, hl⟩ | ⟨he, -⟩ := encodeChar_cases c
  · obtain rfl := mem_singleton.mp (he ▸ hm)
    cases hp
  · obtain rfl : '\r' = letter := by simpa [he] using hm
    cases hl
  · have hd : ∀ n, '\r' ≠ upperHex (n % 16) := fun n h => by
      cases h ▸ (isPlain_upperHex (mod_lt n (by decide))).1
    simp [he, codeEscape, hd] at hm

theorem hexValue?_digits {digit : Nat → Char} (hd : ∀ d < 16, hexDigit? (digit d) = some d) {n : Nat} (h : n < 65536) :
    hexValue? [digit (n / 4096 % 16), digit (n / 256 % 16), digit (n / 16 % 16), digit (n % 16)] = some n := by
  have hp : ∀ n, hexDigit? (digit (n % 16)) = some (n % 16) := fun n => hd _ (mod_lt n (by decide))
  have hs : (((0 * 16 + n / 4096 % 16) * 16 + n / 256 % 16) * 16 + n / 16 % 16) * 16 + n % 16 = n := by omega
  simp only [hexValue?, List.foldl, hp, Option.bind_eq_bind, Option.bind_some]
  exact congrArg some hs

theorem scalar?_toNat (c : Char) : scalar? c.toNat = some c := by
  have hv : c.toNat < 0xd800 ∨ 0xdfff < c.toNat ∧ c.toNat < 0x110000 := c.valid
  rw [scalar?, if_neg, Char.ofNat_toNat]
  simp only [Bool.or_eq_true, Bool.and_eq_true, decide_eq_true_eq]
  omega

theorem codeChar?_upperHex {c : Char} (h : c.toNat < 256) :
    codeChar? (upperHex (c.toNat / 4096 % 16)) (upperHex (c.toNat / 256 % 16))
      (upperHex (c.toNat / 16 % 16)) (upperHex (c.toNat % 16)) = some c := by
  rw [codeChar?, if_neg (isPlain_upperHex (mod_lt _ (by decide))).2,
    hexValue?_digits (fun _ => hexDigit?_upperHex) (by omega), Option.bind_some, scalar?_toNat]

/-- **A written character reads back as itself.** -/
theorem decode_encodeChar (c : Char) (rest : List Char) :
    decode (encodeChar c ++ rest) = (decode rest).map (c :: ·) := by
  obtain ⟨he, hp⟩ | ⟨letter, he, hl, hv⟩ | ⟨he, hm⟩ := encodeChar_cases c
  · have hs : c ≠ '\\' := by rintro rfl; cases hp
    rw [he, singleton_append, decode] <;> simp [hs]
  · rw [he]
    simp only [cons_append, nil_append]
    rw [decode, hv]
    · exact fun _ _ _ _ _ h => absurd h hl
    · exact fun h => absurd h hl
  · rw [he, codeEscape]
    simp only [cons_append, nil_append]
    rw [decode, codeChar?_upperHex hm]

theorem decode_encode (cs : List Char) : decode (encode cs) = .ok cs := by
  induction cs with
  | nil => rfl
  | cons c cs ih =>
    rw [encode, flatMap_cons, decode_encodeChar]
    change (decode (encode cs)).map (c :: ·) = _
    rw [ih]
    rfl

theorem stringValue_quote (text : String) : stringValue (quote text) = .ok text := by
  have hb : quotedBody ('"' :: encode text.toList ++ ['"']) = encode text.toList := by
    simp [quotedBody]
  rw [stringValue, quote, String.toList_ofList, hb, decode_encode]
  exact congrArg Except.ok String.ofList_toList

end Text

theorem Binary64.digitsValue_toDigits (n : Nat) : digitsValue (toDigits 10 n) = n := by
  have h : digitsValue (toDigits 10 n) = ofDigitChars 10 (toDigits 10 n) 0 := by
    simp only [digitsValue, ofDigitChars, Nat.mul_comm 10]
    rfl
  rw [h, ofDigitChars_toDigits (by decide) (by decide)]

theorem toDigits_head_ne {n : Nat} (h : n ≠ 0) : ∃ c rest, toDigits 10 n = c :: rest ∧ c ≠ '0' := by
  induction n using Nat.strongRecOn with
  | ind n ih =>
    by_cases hs : n < 10
    · refine ⟨n.digitChar, [], toDigits_of_lt_base hs, ?_⟩
      exact (by decide : ∀ n : Fin 10, n.val ≠ 0 → n.val.digitChar ≠ '0') ⟨n, hs⟩ h
    · obtain ⟨c, rest, he, hn⟩ := ih (n / 10) (by omega) (by omega)
      refine ⟨c, rest ++ [(n % 10).digitChar], ?_, hn⟩
      rw [toDigits_of_base_le (by decide) (by omega), he, cons_append]

theorem toList_toString_int (v : Int) : ((toString v).toList = toDigits 10 v.toNat ∧ (v.toNat : Int) = v) ∨
      ((toString v).toList = '-' :: toDigits 10 (-v).toNat ∧ -((-v).toNat : Int) = v) := by
  rw [Int.toString_eq_repr, Int.repr_eq_if]
  by_cases h : 0 ≤ v
  · refine .inl ⟨?_, by omega⟩
    rw [if_pos h, toList_repr]
  · refine .inr ⟨?_, by omega⟩
    rw [if_neg h, String.toList_append, toList_repr]
    rfl

theorem Binary64.signedValue_toString (value : Int) : signedValue (toString value).toList = value := by
  obtain ⟨he, hv⟩ | ⟨he, hv⟩ := toList_toString_int value
  · have hd : ∀ c rest, toDigits 10 value.toNat = c :: rest → c.isDigit :=
      fun c rest h => isDigit_of_mem_toDigits (by decide) (by decide)
        (h ▸ mem_cons_self : c ∈ toDigits 10 value.toNat)
    rw [he, signedValue, digitsValue_toDigits, hv]
    · intro rest h
      cases hd _ _ h
    · intro rest h
      cases hd _ _ h
  · rw [he, signedValue, digitsValue_toDigits, hv]

/-- An integer of 64 bits. -/
def isInt64 (value : Int) : Bool :=
  decide (-9223372036854775808 ≤ value ∧ value ≤ 9223372036854775807)

theorem Syntax.Parser.intValue?_toString {value : Int} (h : isInt64 value) :
    intValue? (toString value) = some value := by
  simp only [intValue?, signedValue_toString]
  exact if_pos (of_decide_eq_true h)

end GraphClient
