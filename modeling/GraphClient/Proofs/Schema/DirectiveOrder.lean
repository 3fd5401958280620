import GraphClient.Proofs.Order
import GraphClient.Proofs.Relocate
import GraphClient.Schema.Printer
import Mathlib.Algebra.GroupWithZero.Nat

/-!
# The order of directives

Directives that extensions add are sorted by name and arguments. Uses that agree in both keep the order
in which they come, and their texts can differ in the order of their arguments.

* **`DirectiveUse.directives_sorted_iff`**: when two orders of the same uses are printed alike.
-/

namespace GraphClient

open List Std

instance : TransCmp compareNames := by
  have h : compareNames = List.compareLex compare := by
    funext xs ys
    induction xs generalizing ys with
    | nil => cases ys <;> rfl
    | cons x xs ih =>
      cases ys with
      | nil => rfl
      | cons y ys =>
        rw [compareNames, ih, List.compareLex]
        cases compare x y <;> rfl
  rw [h]
  infer_instance

variable {xs ys : List String} {uses' : List DirectiveUse} (uses : List DirectiveUse)

theorem eq_of_compareNames (h : compareNames xs ys = .eq) : xs = ys := by
  induction xs generalizing ys with
  | nil =>
    cases ys with
    | nil => rfl
    | cons => cases h
  | cons x xs ih =>
    cases ys with
    | nil => cases h
    | cons y ys =>
      rw [compareNames, Ordering.then_eq_eq] at h
      rw [LawfulEqOrd.eq_of_compare h.1, ih h.2]

namespace DirectiveUse

/-- What uses are sorted by: the name and the arguments in order. -/
def key (use : DirectiveUse) : String × List String := (use.name, use.argumentKey)

def compareKeys (a b : String × List String) : Ordering := (compare a.1 b.1).then (compareNames a.2 b.2)

instance : TransCmp compareKeys := by
  have : TransCmp fun a b : String × List String => compareNames a.2 b.2 := transCmp_of_key Prod.snd
  exact inferInstanceAs (TransCmp (compareLex (compareOn Prod.fst) fun a b => compareNames a.2 b.2))

theorem eq_of_compareKeys {a b : String × List String} (h : compareKeys a b = .eq) : a = b := by
  rw [compareKeys, Ordering.then_eq_eq] at h
  exact Prod.ext (LawfulEqOrd.eq_of_compare h.1) (eq_of_compareNames h.2)

/-- The uses of one key, in their order. -/
def ofKey (uses : List DirectiveUse) (key : String × List String) : List DirectiveUse :=
  uses.filter fun use => use.key == key

theorem ofKey_sorted (key : String × List String) : ofKey (sorted uses) key = ofKey uses key := by
  refine filter_sortBy (fun a b ha hb => ?_) uses
  have he : compareKeys a.key b.key = .eq := by
    rw [eq_of_beq ha, eq_of_beq hb]
    exact ReflCmp.compare_self
  change compareKeys a.key b.key ≠ .lt
  rw [he]
  exact Ordering.noConfusion

variable {uses : List DirectiveUse} {β : Type}

theorem keys_sorted (h : (uses.map key).Perm (uses'.map key)) : (sorted uses).map key = (sorted uses').map key := by
  have hs : ∀ us : List DirectiveUse, (sorted us).map key = sortBy compareKeys (us.map key) :=
    map_sortBy order compareKeys key fun _ _ => rfl
  rw [hs, hs]
  exact sortBy_eq_of_perm h fun _ _ _ _ ht => eq_of_compareKeys ht

theorem map_eq_of_keys {f : DirectiveUse → β} (h : ∀ a b, key a = key b → f a = f b)
    (hk : uses.map key = uses'.map key) : uses.map f = uses'.map f := by
  induction uses generalizing uses' with
  | nil =>
    cases uses' with
    | nil => rfl
    | cons => cases hk
  | cons use rest ih =>
    cases uses' with
    | nil => cases hk
    | cons use' rest' =>
      obtain ⟨he, hr⟩ := cons.inj hk
      rw [map_cons, map_cons, h _ _ he, ih hr]

theorem map_eq_iff_ofKey (f : DirectiveUse → β) (he : uses.map key = uses'.map key) :
    uses.map f = uses'.map f ↔ ∀ key, (ofKey uses key).map f = (ofKey uses' key).map f := by
  induction uses generalizing uses' with
  | nil =>
    cases uses' with
    | nil => simp
    | cons => cases he
  | cons use rest ih =>
    cases uses' with
    | nil => cases he
    | cons use' rest' =>
      obtain ⟨hy, hr⟩ := cons.inj he
      have ha : ∀ k, ofKey (use :: rest) k = if use.key = k then use :: ofKey rest k else ofKey rest k := by
        intro k
        simp [ofKey, filter_cons]
      have ha' : ∀ k, ofKey (use' :: rest') k =
          if use.key = k then use' :: ofKey rest' k else ofKey rest' k := by
        intro k
        simp only [ofKey, filter_cons, beq_iff_eq]
        rw [← hy]
      rw [map_cons, map_cons, cons.injEq, ih hr]
      constructor
      · rintro ⟨hf, hc⟩ k
        rw [ha, ha']
        split_ifs
        · rw [map_cons, map_cons, hf, hc]
        · exact hc k
      · intro hc
        have ho := hc use.key
        rw [ha, ha', if_pos rfl, if_pos rfl, map_cons, map_cons, cons.injEq] at ho
        refine ⟨ho.1, fun k => ?_⟩
        by_cases hk : use.key = k
        · rw [← hk]
          exact ho.2
        · have h := hc k
          rwa [ha, ha', if_neg hk, if_neg hk] at h

end DirectiveUse

theorem Text.append_inj_of_length {a b c d : String} (h : a ++ b = c ++ d) (he : a.length = c.length) :
    a = c ∧ b = d := by
  have hl := congrArg String.toList h
  rw [String.toList_append, String.toList_append] at hl
  obtain ⟨hf, hb⟩ := append_inj hl he
  exact ⟨String.toList_inj.mp hf, String.toList_inj.mp hb⟩

theorem Text.join_inj_of_length (hl : xs.map String.length = ys.map String.length)
    (h : String.join xs = String.join ys) : xs = ys := by
  induction xs generalizing ys with
  | nil =>
    cases ys with
    | nil => rfl
    | cons => cases hl
  | cons x xs ih =>
    cases ys with
    | nil => cases hl
    | cons y ys =>
      obtain ⟨hf, hr⟩ := cons.inj hl
      rw [String.join_cons, String.join_cons] at h
      obtain ⟨rfl, ht⟩ := append_inj_of_length h hf
      rw [ih hr ht]

theorem Text.length_intercalate {s : String} : (xs : List String) → xs ≠ [] →
    (s.intercalate xs).length + s.length = (xs.map fun x => x.length + s.length).sum
  | [], h => absurd rfl h
  | [x], _ => by simp
  | x :: y :: rest, _ => by
    have ih := length_intercalate (s := s) (y :: rest) (by simp)
    rw [String.intercalate_cons_cons, map_cons, sum_cons, String.length_append, String.length_append]
    omega

namespace Printer

theorem length_parenthesized (h : xs.Perm ys) : (parenthesized xs).length = (parenthesized ys).length := by
  cases xs with
  | nil => rw [h.nil_eq]
  | cons x xs =>
    cases ys with
    | nil => cases h.symm.nil_eq
    | cons y ys =>
      have hx := Text.length_intercalate (s := ", ") (x :: xs) (cons_ne_nil _ _)
      have hy := Text.length_intercalate (s := ", ") (y :: ys) (cons_ne_nil _ _)
      have hs := (h.map fun x : String => x.length + (", " : String).length).sum_nat
      simp only [parenthesized, isEmpty_cons, Bool.false_eq_true, if_false, String.length_append]
      omega

/-- The text of one use, behind a blank. -/
def useText (use : DirectiveUse) : String := " @" ++ use.name ++ arguments use.arguments

theorem directives_eq : directives uses = String.join (uses.map useText) := rfl

@[simp] theorem directives_append (more : List DirectiveUse) :
    directives (uses ++ more) = directives uses ++ directives more := by
  rw [directives_eq, map_append, String.join_append, directives_eq, directives_eq]

variable (move : Location → Location)

@[simp] theorem arguments_relocate (es : List Argument) :
    arguments (es.map (.relocate move)) = arguments es := by
  rw [arguments, arguments, map_map]
  rfl

@[simp] theorem useText_relocate (use : DirectiveUse) : useText (use.relocate move) = useText use := by
  rw [useText, DirectiveUse.relocate, arguments_relocate, useText]

@[simp] theorem directives_relocate (uses : List DirectiveUse) :
    directives (uses.map (.relocate move)) = directives uses := by
  simp only [directives_eq, map_map, Function.comp_def, useText_relocate]

/-- **Uses of one key have texts of one length.** -/
theorem length_useText {use use' : DirectiveUse} (h : use.key = use'.key) :
    (useText use).length = (useText use').length := by
  obtain ⟨hn, ha⟩ := Prod.mk.inj h
  have hp : (use.arguments.map Argument.text).Perm (use'.arguments.map Argument.text) := by
    refine (sortBy_perm compare _).symm.trans (?_ : use.argumentKey.Perm _)
    rw [ha]
    exact sortBy_perm compare _
  simp only [useText, String.length_append, hn, arguments, length_parenthesized hp]

end Printer

namespace DirectiveUse

open Printer

theorem directives_sorted_iff {uses : List DirectiveUse} (h : (uses.map key).Perm (uses'.map key)) :
    directives (sorted uses) = directives (sorted uses') ↔
      ∀ key, (ofKey uses key).map useText = (ofKey uses' key).map useText := by
  have hk := keys_sorted h
  have hl : ((sorted uses).map useText).map String.length = ((sorted uses').map useText).map String.length := by
    rw [map_map, map_map]
    exact map_eq_of_keys (fun _ _ he => length_useText he) hk
  have ht : directives (sorted uses) = directives (sorted uses') ↔
      (sorted uses).map useText = (sorted uses').map useText :=
    ⟨Text.join_inj_of_length hl, fun h => congrArg String.join h⟩
  rw [ht, map_eq_iff_ofKey useText hk]
  simp only [ofKey_sorted]

end DirectiveUse

end GraphClient
