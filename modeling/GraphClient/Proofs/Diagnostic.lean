import GraphClient.Proofs.Order
import GraphClient.Schema.Problem

/-!
# Errors in reports

* `Diagnostics.hasErrors_sorted`: the order of a report does not matter.
* `Diagnostics.Fatal`: reports without warnings.
-/

namespace GraphClient

open List

namespace Diagnostics

@[simp] theorem hasErrors_nil : hasErrors [] = false := rfl

@[simp] theorem hasErrors_cons (d : Diagnostic) (ds : Diagnostics) :
    hasErrors (d :: ds) = (d.isFatal || hasErrors ds) := rfl

@[simp] theorem hasErrors_append (as bs : Diagnostics) :
    hasErrors (as ++ bs) = (hasErrors as || hasErrors bs) := any_append

variable {as bs ds : Diagnostics}

theorem append_clean : hasErrors (as ++ bs) = false ↔ hasErrors as = false ∧ hasErrors bs = false := by
  rw [hasErrors_append, Bool.or_eq_false_iff]

theorem hasErrors_eq_false : hasErrors ds = false ↔ ∀ d ∈ ds, d.isFatal = false := by
  simp [hasErrors]

variable {α : Type} {d : Diagnostic}

theorem hasErrors_flatMap (f : α → Diagnostics) (xs : List α) :
    hasErrors (xs.flatMap f) = false ↔ ∀ x ∈ xs, hasErrors (f x) = false := by
  induction xs with
  | nil => simp
  | cons x xs ih => simp [ih]

theorem hasErrors_filter_map {p : α → Bool} {f : α → Diagnostic} (hf : ∀ x, (f x).isFatal)
    (xs : List α) : hasErrors ((xs.filter p).map f) = false ↔ ∀ x ∈ xs, p x = false := by
  rw [hasErrors_eq_false, forall_mem_map]
  simp [hf]

theorem hasErrors_perm (h : as.Perm bs) : hasErrors as = hasErrors bs := by
  rw [Bool.eq_iff_iff, hasErrors, hasErrors, any_eq_true, any_eq_true]
  exact exists_congr fun d => and_congr_left' h.mem_iff

@[simp] theorem hasErrors_sorted (ds : Diagnostics) : hasErrors ds.sorted = hasErrors ds :=
  hasErrors_perm (sortBy_perm _ ds)

/-- Reports of errors, without warnings. -/
def Fatal (ds : Diagnostics) : Prop := ∀ d ∈ ds, d.isFatal

theorem Fatal.eq_nil (h : Fatal ds) (hc : hasErrors ds = false) : ds = [] := by
  cases ds with
  | nil => rfl
  | cons d ds =>
    rw [hasErrors_cons, h d mem_cons_self] at hc
    cases hc

theorem Fatal.eq_nil_iff (h : Fatal ds) : ds = [] ↔ hasErrors ds = false := ⟨fun hn => by rw [hn]; rfl, h.eq_nil⟩

theorem Fatal.nil : Fatal [] := fun _ h => absurd h not_mem_nil

theorem Fatal.singleton (h : d.isFatal) : Fatal [d] := fun _ hm =>
  mem_singleton.mp hm ▸ h

theorem Fatal.error {code : Code} {title : String} {loc : Location} {msg : String} :
    Fatal [.error code title loc msg] := .singleton rfl

theorem Fatal.append (ha : Fatal as) (hb : Fatal bs) : Fatal (as ++ bs) := fun d h =>
  (mem_append.mp h).elim (ha d) (hb d)

theorem Fatal.flatMap {f : α → Diagnostics} {xs : List α} (h : ∀ x ∈ xs, Fatal (f x)) :
    Fatal (xs.flatMap f) := fun d hm => by
  obtain ⟨x, hx, hd⟩ := mem_flatMap.mp hm
  exact h x hx d hd

theorem Fatal.map {f : α → Diagnostic} {xs : List α} (h : ∀ x, (f x).isFatal) : Fatal (xs.map f) := fun d hm => by
  obtain ⟨x, -, rfl⟩ := mem_map.mp hm
  exact h x

theorem Fatal.ite {c : Prop} [Decidable c] (ha : Fatal as) (hb : Fatal bs) : Fatal (if c then as else bs) := by
  split_ifs
  · exact ha
  · exact hb

theorem mem_sorted : d ∈ ds.sorted ↔ d ∈ ds := mem_sortBy _

end Diagnostics

@[simp] theorem Diagnostic.isFatal_error (code : Code) (title : String) (loc : Location)
    (msg : String) : (error code title loc msg).isFatal := rfl

@[simp] theorem Problem.isFatal_diagnostic (problem : Problem) : problem.diagnostic.isFatal := rfl

end GraphClient
