import GraphClient.Client.Kotlin
import GraphClient.Client.Rust
import GraphClient.Client.TypeScript
import Mathlib.Order.Basic

/-!
# Lists and nulls in target types

* **`wrap_mirrors_reference`**: written types and decoders mirror lists and nulls.
-/

namespace GraphClient

namespace TypeRef

section Wrap

variable {α β : Type} {list nullable : α → α} {list' nullable' : β → β}

/-- Lists of lists around a value. The flags say whether elements are never null, outermost list first. -/
def nest (list nullable : α → α) (inner : α) : List Bool → α
  | [] => inner
  | flag :: flags => list (wrapLevel nullable flag (nest list nullable inner flags))

theorem wrapLists_append (flags flags' : List Bool) (inner : α) : wrapLists list nullable (flags ++ flags') inner =
    wrapLists list nullable flags' (wrapLists list nullable flags inner) := by
  induction flags generalizing inner with
  | nil => rfl
  | cons flag flags ih => exact ih _

theorem wrap_eq_nest (type : TypeRef) (inner : α) : type.wrap list nullable inner =
    wrapLevel nullable type.isNonNull (nest list nullable inner type.elements) := by
  obtain ⟨name, flag, elems⟩ := type
  induction elems generalizing flag with
  | nil => rfl
  | cons first rest ih =>
    rw [nest, ← ih first]
    simp only [wrap, List.reverse_cons (a := flag)]
    cases h : (first :: rest).reverse with
    | nil => cases List.reverse_eq_nil_iff.mp h
    | cons innermost flags => exact wrapLists_append flags [flag] _

theorem map_wrapLevel {f : α → β} (hn : ∀ a, f (nullable a) = nullable' (f a)) (flag : Bool) (a : α) :
    f (wrapLevel nullable flag a) = wrapLevel nullable' flag (f a) := by
  cases flag
  · exact hn a
  · rfl

theorem map_wrap {f : α → β} (hl : ∀ a, f (list a) = list' (f a)) (hn : ∀ a, f (nullable a) = nullable' (f a))
    (type : TypeRef) (inner : α) : f (type.wrap list nullable inner) = type.wrap list' nullable' (f inner) := by
  have he (flags : List Bool) : f (nest list nullable inner flags) = nest list' nullable' (f inner) flags := by
    induction flags with
    | nil => rfl
    | cons flag flags ih => rw [nest, nest, hl, map_wrapLevel hn, ih]
  rw [wrap_eq_nest, wrap_eq_nest, map_wrapLevel hn, he]

end Wrap

/-- **It can be seen which wrapper was put around last**, and each makes the text longer. -/
structure Distinguishes (list nullable : String → String) : Prop where
  length_list (text : String) : text.length < (list text).length
  length_nullable (text : String) : text.length < (nullable text).length
  list_injective : list.Injective
  nullable_injective : nullable.Injective
  list_ne_nullable (text other : String) : list text ≠ nullable other

namespace Distinguishes

variable {list nullable : String → String} (h : Distinguishes list nullable) {inner : String} {a b : Bool}
  {as bs : List Bool}

include h

theorem length_wrapLevel (flag : Bool) (text : String) : text.length ≤ (wrapLevel nullable flag text).length := by
  cases flag
  · exact Nat.le_of_lt (h.length_nullable text)
  · exact Nat.le_refl _

theorem length_nest (inner : String) (flags : List Bool) :
    inner.length + flags.length ≤ (nest list nullable inner flags).length := by
  induction flags with
  | nil => exact Nat.le_refl _
  | cons flag flags ih =>
    have hl := h.length_list (wrapLevel nullable flag (nest list nullable inner flags))
    have hw := h.length_wrapLevel flag (nest list nullable inner flags)
    rw [nest, List.length_cons]
    omega

theorem nest_ne_nullable : nest list nullable inner as ≠ nullable (nest list nullable inner bs) := by
  intro he
  cases as with
  | nil =>
    have hl := h.length_nest inner bs
    have hn := h.length_nullable (nest list nullable inner bs)
    rw [← he, nest] at hn
    omega
  | cons a as => exact h.list_ne_nullable _ _ he

theorem wrapLevel_inj (he : wrapLevel nullable a (nest list nullable inner as) =
    wrapLevel nullable b (nest list nullable inner bs)) :
    a = b ∧ nest list nullable inner as = nest list nullable inner bs := by
  cases a <;> cases b
  · exact ⟨rfl, h.nullable_injective he⟩
  · exact absurd he.symm h.nest_ne_nullable
  · exact absurd he h.nest_ne_nullable
  · exact ⟨rfl, he⟩

theorem nest_injective : (nest list nullable inner).Injective := by
  intro as bs he
  have hl {flag : Bool} {flags : List Bool} : inner ≠ nest list nullable inner (flag :: flags) := by
    intro hi
    have := h.length_nest inner (flag :: flags)
    rw [← hi, List.length_cons] at this
    omega
  induction as generalizing bs with
  | nil =>
    cases bs with
    | nil => rfl
    | cons b bs => exact absurd he hl
  | cons a as ih =>
    cases bs with
    | nil => exact absurd he.symm hl
    | cons b bs =>
      obtain ⟨rfl, hn⟩ := h.wrapLevel_inj (h.list_injective he)
      rw [ih hn]

theorem wrap_injective (name : String) :
    Function.Injective fun levels : Bool × List Bool => wrap list nullable ⟨name, levels.1, levels.2⟩ inner := by
  intro ⟨a, as⟩ ⟨b, bs⟩ he
  simp only [wrap_eq_nest] at he
  obtain ⟨rfl, hn⟩ := h.wrapLevel_inj he
  rw [h.nest_injective hn]

end Distinguishes

end TypeRef

open TypeRef String

theorem length_lt_append {text back : String} (h : 0 < back.length) : text.length < (text ++ back).length := by
  rw [length_append]
  omega

theorem length_lt_enclose {text back : String} (front : String) (h : 0 < back.length) :
    text.length < (front ++ text ++ back).length := by
  rw [length_append, length_append]
  omega

theorem append_ne_append {a b s t : String} {c d : Char} (hs : s.toList.getLast? = some c)
    (ht : t.toList.getLast? = some d) (h : c ≠ d) : a ++ s ≠ b ++ t := by
  intro he
  have hl := congrArg (fun text => text.toList.getLast?) he
  simp only [toList_append, List.getLast?_append, hs, ht, Option.some_or, Option.some.injEq] at hl
  exact h hl

namespace TypeScript

/-- The decoder that goes with a type: one call for each list and each null. -/
def TypeExpr.decoder (leaf : String) : TypeExpr → Call
  | .named _ => .name leaf
  | .literal _ => .name leaf
  | .array element => .apply "list" (element.decoder leaf)
  | .orNull inner => .apply "nullable" (inner.decoder leaf)

def listText (inner : String) : String :=
  if inner.toList.contains ' ' then "Array<" ++ inner ++ ">" else inner ++ "[]"

theorem distinguishes : Distinguishes listText (· ++ " | null") where
  length_list text := by
    rw [listText]
    split
    · exact length_lt_enclose _ (by decide)
    · exact length_lt_append (by decide)
  length_nullable text := length_lt_append (by decide)
  list_injective a b h := by
    simp only [listText] at h
    split_ifs at h
    · simpa using h
    · exact absurd h (append_ne_append (c := '>') (d := ']') rfl rfl (by decide))
    · exact absurd h (append_ne_append (c := ']') (d := '>') rfl rfl (by decide))
    · simpa using h
  nullable_injective a b h := by simpa using h
  list_ne_nullable a b := by
    rw [listText]
    split
    · exact append_ne_append (c := '>') (d := 'l') rfl rfl (by decide)
    · exact append_ne_append (c := ']') (d := 'l') rfl rfl (by decide)

end TypeScript

theorem Rust.distinguishes : Distinguishes ("Vec<" ++ · ++ ">") ("Option<" ++ · ++ ">") where
  length_list text := length_lt_enclose _ (by decide)
  length_nullable text := length_lt_enclose _ (by decide)
  list_injective a b h := by simpa using h
  nullable_injective a b h := by simpa using h
  list_ne_nullable a b h := by simpa using congrArg (fun text => text.toList.head?) h

theorem Kotlin.distinguishes : Distinguishes ("List<" ++ · ++ ">") (· ++ "?") where
  length_list text := length_lt_enclose _ (by decide)
  length_nullable text := length_lt_append (by decide)
  list_injective a b h := by simpa using h
  nullable_injective a b h := by simpa using h
  list_ne_nullable a b := append_ne_append (c := '>') (d := '?') rfl rfl (by decide)

/-- **Target types mirror references.** A representation puts a list around that of the elements, and a null
around just the levels that can be null; in all three languages the written type of a name tells lists and nulls
apart; and a decoder makes the calls that the type asks for, in the same order. -/
theorem wrap_mirrors_reference (target : Target) (name : String) :
    (∀ {α : Type} (list nullable : α → α) (type : TypeRef) (inner : α), type.wrap list nullable inner =
      wrapLevel nullable type.isNonNull
        (type.element.elim inner fun element => list (element.wrap list nullable inner))) ∧
    (Function.Injective fun levels : Bool × List Bool =>
      (TypeScript.typeOf target ⟨name, levels.1, levels.2⟩).text) ∧
    (Function.Injective fun levels : Bool × List Bool => (Rust.typeOf target ⟨name, levels.1, levels.2⟩).text) ∧
    (Function.Injective fun levels : Bool × List Bool => (Kotlin.typeOf target ⟨name, levels.1, levels.2⟩).text) ∧
    ∀ (type : TypeRef) (leaf : String),
      TypeScript.decoder type leaf = (TypeScript.typeOf target type).decoder leaf := by
  refine ⟨fun list nullable type inner => ?_, ?_, ?_, ?_, fun type leaf => ?_⟩
  · obtain ⟨name, flag, _ | ⟨first, rest⟩⟩ := type
    · rfl
    · rw [wrap_eq_nest]
      exact congrArg (fun a => wrapLevel nullable flag (list a)) (wrap_eq_nest ⟨name, first, rest⟩ inner).symm
  · have ht (type : TypeRef) (inner : String) : (TypeScript.TypeExpr.wrap type inner).text =
        type.wrap TypeScript.listText (· ++ " | null") inner :=
      map_wrap (f := TypeScript.TypeExpr.text) (fun _ => rfl) (fun _ => rfl) type (.named inner)
    simp only [TypeScript.typeOf, ht]
    exact TypeScript.distinguishes.wrap_injective name
  · have ht (type : TypeRef) (inner : Rust.TypeExpr) : (Rust.TypeExpr.wrap type inner).text =
        type.wrap ("Vec<" ++ · ++ ">") ("Option<" ++ · ++ ">") inner.text :=
      map_wrap (f := Rust.TypeExpr.text) (fun _ => rfl) (fun _ => rfl) type inner
    simp only [Rust.typeOf, ht]
    exact Rust.distinguishes.wrap_injective name
  · have ht (type : TypeRef) (inner : String) : (Kotlin.TypeExpr.wrap type inner).text =
        type.wrap ("List<" ++ · ++ ">") (· ++ "?") inner :=
      map_wrap (f := Kotlin.TypeExpr.text) (fun _ => rfl) (fun _ => rfl) type (.named inner)
    simp only [Kotlin.typeOf, ht]
    exact Kotlin.distinguishes.wrap_injective name
  · symm
    exact map_wrap (f := TypeScript.TypeExpr.decoder leaf) (fun _ => rfl) (fun _ => rfl) type _

end GraphClient
