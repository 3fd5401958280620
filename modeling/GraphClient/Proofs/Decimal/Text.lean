import GraphClient.Decimal.Text
import GraphClient.Proofs.Token.Words

/-!
# Decimal text of doubles

The text of a finite double always has a point with digits on both sides, so it is a single word.

* **`Binary64.pointed_magnitudeText`**: the text of a finite double without its sign.
-/

namespace GraphClient

open List Nat

/-- Digits, a point and digits. -/
def Pointed (text : List Char) : Prop :=
  ∃ whole fraction, text = whole ++ '.' :: fraction ∧ (∀ rest, whole = '0' :: rest → rest = []) ∧ whole ≠ [] ∧
    fraction ≠ [] ∧ ∀ c ∈ whole ++ fraction, c.isDigit

namespace Binary64

theorem pointed_withPoint (digits : Nat) (last : Int) : Pointed (withPoint digits last).toList := by
  obtain ⟨places, hpl⟩ : ∃ places, max 1 (-last).toNat = places := ⟨_, rfl⟩
  obtain ⟨num, hnu⟩ : ∃ num, digits * tenTo (last + places).toNat = num := ⟨_, rfl⟩
  have hd : ∀ c ∈ toDigits 10 num, c.isDigit := fun c hc =>
    isDigit_of_mem_toDigits (by decide) (by decide) hc
  obtain ⟨padded, hp⟩ : ∃ padded,
      List.replicate (places + 1 - (toDigits 10 num).length) '0' ++ toDigits 10 num = padded :=
    ⟨_, rfl⟩
  have hl : padded.length = max (toDigits 10 num).length (places + 1) := by
    rw [← hp, length_append, length_replicate]
    omega
  have ht : (withPoint digits last).toList =
      padded.take (padded.length - places) ++ '.' :: padded.drop (padded.length - places) := by
    simp only [withPoint, hpl, hnu, hp, String.toList_ofList]
  refine ⟨_, _, ht, fun rest hr => ?_, ?_, ?_, ?_⟩
  · by_cases hm : places + 1 < (toDigits 10 num).length
    · have hpla : padded = toDigits 10 num := by
        rw [← hp, Nat.sub_eq_zero_of_le (Nat.le_of_lt hm), replicate_zero, nil_append]
      have hne : num ≠ 0 := by
        rintro rfl
        exact absurd hm (Nat.not_lt.mpr (Nat.le_add_left 1 places))
      obtain ⟨c, cs, hcon, hc⟩ := toDigits_head_ne hne
      obtain ⟨count, hco⟩ : ∃ count, padded.length - places = count + 1 :=
        ⟨padded.length - places - 1, by omega⟩
      rw [hco, hpla, hcon, take_succ_cons] at hr
      exact absurd (List.cons.inj hr).1 hc
    · have hs := congrArg List.length hr
      rw [length_take, length_cons] at hs
      exact length_eq_zero_iff.mp (by omega)
  · intro hn
    rcases take_eq_nil_iff.mp hn with hz | hz
    · omega
    · rw [hz, length_nil] at hl
      omega
  · intro hn
    have := drop_eq_nil_iff.mp hn
    omega
  · rw [take_append_drop, ← hp]
    intro c hc
    rcases mem_append.mp hc with hc | hc
    · rw [eq_of_mem_replicate hc]
      rfl
    · exact hd c hc

theorem pointed_magnitudeText (mantissa : Nat) (exp : Int) : Pointed (magnitudeText mantissa exp).toList := by
  cases exp with
  | ofNat e =>
    exact pointed_withPoint _ _
  | negSucc e =>
    rw [magnitudeText]
    split_ifs <;> exact pointed_withPoint _ _

end Binary64

/-- **The words of a double.** An infinity is no number: a name is all that can be read of it. -/
def Binary64.words : Binary64 → List Word
  | .infinite true => [⟨.error, "-"⟩, .name "inf"]
  | .infinite false => [.name "inf"]
  | value => [⟨.float, value.text⟩]

theorem Worded.float {returns : Bool} (v : Binary64) : Worded returns Closed v.text v.words := by
  have hi : Worded returns Closed "inf" [.name "inf"] := .name rfl
  cases v with
  | infinite negative =>
    cases negative with
    | false => exact hi
    | true =>
      have hs : Worded returns (fun rest => ∃ tail, rest = 'i' :: tail) "-" [⟨.error, "-"⟩] := by
        refine .scanned ⟨.error, "-"⟩ rfl rfl (fun _ => by decide) ?_
        rintro _ ⟨tail, rfl⟩
        rfl
      exact hs.append hi fun rest _ => ⟨'n' :: 'f' :: rest, rfl⟩
  | finite negative mantissa exp =>
    obtain ⟨whole, digits, ht, hz, hh, hd, ha⟩ := Binary64.pointed_magnitudeText mantissa exp
    have hr : '\r' ∉ whole ++ digits := fun hm => by cases ha _ hm
    rw [forall_mem_append] at ha
    have hp : Lexical.FractionalPart ('.' :: digits) := ⟨_, rfl, hd, ha.2⟩
    have hw : ∀ sign, sign = [] ∨ sign = ['-'] →
        (Binary64.finite negative mantissa exp).text.toList = sign ++ whole ++ '.' :: digits →
        Worded returns Closed (Binary64.finite negative mantissa exp).text
          [⟨.float, (Binary64.finite negative mantissa exp).text⟩] := by
      intro sign hs he
      refine .word ⟨.float, _⟩ ⟨sign ++ whole, _, he, ⟨sign, whole, rfl, hs, ⟨hh, ha.1⟩, hz⟩,
        .fraction hp⟩ (fun _ => ?_) fun _ hre => hre.bounded nofun
      change '\r' ∉ (Binary64.finite negative mantissa exp).text.toList
      rw [he]
      rcases hs with rfl | rfl <;> simpa using hr
    cases negative with
    | true => exact hw ['-'] (.inr rfl) (by rw [Binary64.text, String.toList_append, ht]; rfl)
    | false => exact hw [] (.inl rfl) (by rw [Binary64.text, String.toList_append, ht]; rfl)

end GraphClient
