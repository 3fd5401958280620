import Mathlib
import GraphClient.Proofs.Client.Names
import GraphClient.Proofs.Spelling.Blocks
import GraphClient.Proofs.WrittenNames
import GraphClient.Text.Case

/-!
# Letters of generated names

* `Text.isWord`: texts of letters, digits and underscores.
* `TakenNames.ClaimsWords`: claims of words.
* `NamedFields`: fields with names at every depth.
-/

namespace GraphClient

open List Char Bool Nat String

namespace Text

/-- Whether a text has only letters, digits and underscores. -/
def isWord (text : String) : Bool := text.toList.all isNamePart

variable {text other : String} {c : Char}

theorem isWord_append : isWord (text ++ other) = (isWord text && isWord other) := by
  rw [isWord, toList_append, all_append]
  rfl

theorem isWord_of_isName (h : isName text) : isWord text := by
  rw [isName] at h
  rw [isWord]
  cases ht : text.toList with
  | nil => rfl
  | cons c rest =>
    rw [ht] at h
    obtain ⟨hs, hr⟩ := and_eq_true_iff.mp h
    have hp : isNamePart c := by
      rw [isNameStart, or_eq_true] at hs
      rw [isNamePart, isAlphanum, or_eq_true, or_eq_true]
      exact hs.imp_left .inl
    rw [all_cons, hp, hr]
    rfl

theorem isWord_toString (n : Nat) : isWord (toString n) := by
  rw [isWord, toString_eq_repr, toList_repr, all_eq_true]
  exact fun c hc => Lexeme.isNamePart_of_isDigit (isDigit_of_mem_toDigits (by decide) (by decide) hc)

theorem isNamePart_toUpper (h : isNamePart c) : isNamePart c.toUpper := by
  cases hl : c.isLower with
  | true => simp [isNamePart, isAlphanum, isAlpha, hl]
  | false => rwa [toUpper_eq_of_not_isLower (by simp [hl])]

theorem isNamePart_toLower (h : isNamePart c) : isNamePart c.toLower := by
  cases hu : c.isUpper with
  | true => simp [isNamePart, isAlphanum, isAlpha, hu]
  | false => rwa [toLower_eq_of_not_isUpper (by simp [hu])]

variable {cs : List Char}

theorem all_capitalize {lowerRest : Bool} (h : cs.all isNamePart) : (capitalize lowerRest cs).all isNamePart := by
  cases cs with
  | nil => rfl
  | cons c rest =>
    obtain ⟨hc, hr⟩ := and_eq_true_iff.mp h
    rw [capitalize, all_cons, isNamePart_toUpper hc]
    cases lowerRest with
    | true => exact all_eq_true.mpr (forall_mem_map.mpr fun d hd =>
        isNamePart_toLower (all_eq_true.mp hr d hd))
    | false => exact hr

theorem all_pascalChars (h : cs.all isNamePart) : (pascalChars cs).all isNamePart := by
  rw [pascalChars, all_flatMap, all_eq_true]
  intro piece hp
  refine all_capitalize (all_eq_true.mpr fun c hc => ?_)
  exact all_eq_true.mp h c (mem_of_mem_splitOn hp hc).1

theorem isWord_pascalCase (h : isWord text) : isWord (pascalCase text) := by
  rw [isWord, pascalCase, toList_ofList]
  exact all_pascalChars h

theorem isWord_camelCase (h : isWord text) : isWord (camelCase text) := by
  have ha := all_pascalChars h
  rw [camelCase]
  cases hh : pascalChars text.toList with
  | nil => rfl
  | cons c rest =>
    rw [hh] at ha
    obtain ⟨hc, hr⟩ := and_eq_true_iff.mp ha
    rw [isWord, toList_ofList, all_cons, isNamePart_toLower hc, hr]
    rfl

end Text

open Text (isWord isWord_append isWord_of_isName)

theorem TakenNames.isWord_fresh (taken : TakenNames) {base : String} (h : isWord base) : isWord (taken.fresh base) := by
  have hn : ∀ n, isWord (numbered base n) := fun n => by
    rw [numbered, isWord_append, h, Text.isWord_toString]
    rfl
  have hf : ∀ tries n, isWord (taken.firstFree base tries n) := by
    intro tries
    induction tries with
    | zero => exact hn
    | succ tries ih =>
      intro n
      rw [firstFree]
      split_ifs
      · exact ih _
      · exact hn n
  rw [fresh]
  split_ifs
  · exact hf _ _
  · exact h

namespace TakenNames

/-- **A run of claims whose names are words**, if what they stand for is named. -/
structure ClaimsWords (named : Prop) (before after : TakenNames) (names : List String) : Prop
    extends Claims before after names where
  words : named → ∀ name ∈ names, isWord name

variable {named named' : Prop} {before between after : TakenNames} {names more : List String}

theorem ClaimsWords.none (taken : TakenNames) : ClaimsWords named taken taken [] :=
  ⟨.none taken, fun _ _ h => absurd h not_mem_nil⟩

theorem ClaimsWords.mono (h : ClaimsWords named before after names) (hi : named' → named) :
    ClaimsWords named' before after names := ⟨h.toClaims, fun hn => h.words (hi hn)⟩

theorem ClaimsWords.trans (h : ClaimsWords named before between names) (h' : ClaimsWords named' between after more) :
    ClaimsWords (named ∧ named') before after (names ++ more) :=
  ⟨h.toClaims.trans h'.toClaims, fun hn => forall_mem_append.mpr ⟨h.words hn.1, h'.words hn.2⟩⟩

theorem claimsWords_claim (taken : TakenNames) (base : String) :
    ClaimsWords (isWord base) taken (taken.claim base).2 [(taken.claim base).1] :=
  ⟨taken.claims_claim base, fun h => forall_mem_singleton.mpr (taken.isWord_fresh h)⟩

end TakenNames

def ResultShape.AllNamed (shape : ResultShape) : Prop := ∀ inner, shape.Contains inner → inner.Named

variable {shape : ResultShape}

theorem ResultShape.AllNamed.below {inner : ResultShape} {f : ShapeField} (h : shape.AllNamed)
    (obj : String) (hf : shape.Describes obj f) (hi : f.shape = some inner) :
    inner.AllNamed := fun _ hb => h _ (.trans (.field .self hf hi) hb)

/-- Fields with names, and with names at every depth below. -/
def NamedFields (fields : List ShapeField) : Prop :=
  ∀ field ∈ fields, Text.isName field.key ∧ ∀ inner, field.shape = some inner → inner.AllNamed

theorem ResultShape.AllNamed.fields (h : shape.AllNamed) : NamedFields shape.fields :=
  fun f hf => ⟨(h _ .self).keys shape.type f (.inl hf), fun _ => h.below shape.type (.inl hf)⟩

theorem ResultShape.AllNamed.variant (h : shape.AllNamed) {v : ShapeVariant}
    (hv : v ∈ shape.variants) : NamedFields v.fields := fun field hf =>
  have hd : shape.Describes v.type field := .inr ⟨v, hv, rfl, hf⟩
  ⟨(h _ .self).keys v.type field hd, fun _ => h.below v.type hd⟩

end GraphClient
