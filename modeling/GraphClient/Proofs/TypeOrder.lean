import Mathlib.Order.Defs.Unbundled
import GraphClient.Proofs.Schema.Conformance

/-!
# The order of types

A type is below another one if it names the same type in as many lists and allows null at no other level.
-/

namespace GraphClient.TypeRef

variable {as es fs : List Bool}

theorem refines_trans (h : refines as es) (h' : refines es fs) : refines as fs := by
  induction as generalizing es fs with
  | nil => cases es <;> simp_all [refines]
  | cons a as ih =>
    cases es with
    | nil => cases h
    | cons e es =>
      cases fs with
      | nil => cases h'
      | cons f fs =>
        simp only [refines, Bool.and_eq_true] at h h' ⊢
        refine ⟨?_, ih h.2 h'.2⟩
        cases a <;> simp_all

theorem refines_antisymm (h : refines as es) (h' : refines es as) : as = es := by
  induction as generalizing es with
  | nil => cases es <;> simp_all [refines]
  | cons a as ih =>
    cases es with
    | nil => cases h
    | cons e es =>
      simp only [refines, Bool.and_eq_true] at h h'
      rw [ih h.2 h'.2]
      cases a <;> simp_all

/-- **To compare from the outside in is to compare level by level.** -/
theorem fits_eq_isCovariant (given exp : TypeRef) : given.fits exp = given.isCovariant exp := by
  fun_induction fits given exp with
  | case1 given exp hr ih =>
    rw [ih]
    simp [isCovariant, refines, nullable, hr, Bool.and_left_comm]
  | case2 given exp hr hg ih =>
    rw [ih]
    simp [isCovariant, refines, nullable, hr]
  | case3 given exp hr hg inner inner' he hi ih =>
    obtain ⟨name, isNonNull, levels⟩ := given
    obtain ⟨name', isNonNull', levels'⟩ := exp
    cases levels <;> cases he
    cases levels' <;> cases hi
    rw [ih]
    simp_all [isCovariant, refines]
  | case4 given exp | case5 given exp =>
    obtain ⟨name, isNonNull, levels⟩ := given
    obtain ⟨name', isNonNull', levels'⟩ := exp
    cases levels <;> cases levels' <;> simp_all [element, isCovariant, refines]

theorem inner_of_isCovariant {given want : TypeRef} (h : given.isCovariant want) :
    (want.isNonNull → given.isNonNull) ∧ given.isList = want.isList ∧ (given.element = none ∧ want.element = none ∨
        ∃ inner inner', given.element = some inner ∧ want.element = some inner' ∧ inner.isCovariant inner') := by
  obtain ⟨name, isNonNull, levels⟩ := given
  obtain ⟨name', isNonNull', levels'⟩ := want
  simp only [isCovariant, refines, Bool.and_eq_true, beq_iff_eq] at h
  obtain ⟨rfl, hn, hl⟩ := h
  refine ⟨fun he => by simpa [show isNonNull' = true from he] using hn, ?_⟩
  cases levels with
  | nil => cases levels' <;> simp_all [refines, element, isList]
  | cons level rest =>
    cases levels' with
    | nil => cases hl
    | cons level' rest' => exact ⟨rfl, .inr ⟨_, _, rfl, rfl, by simpa [isCovariant] using hl⟩⟩

/-- **The two comparisons of types are one partial order.** A default makes up for a null that the place does not
allow. -/
theorem allowsUse_eq_isCovariant : (∀ (given expected : TypeRef) (hasDefault positionHasDefault : Bool),
      given.allowsUse hasDefault expected positionHasDefault =
        given.isCovariant (if expected.isNonNull && !given.isNonNull && (hasDefault || positionHasDefault)
          then expected.nullable else expected)) ∧
      IsPartialOrder TypeRef fun given expected => given.isCovariant expected := by
  refine ⟨fun given expected hasDefault positionHasDefault => ?_, { refl := ?_, trans := ?_, antisymm := ?_ }⟩
  · simp only [allowsUse, fits_eq_isCovariant]
    by_cases hnull : expected.isNonNull && !given.isNonNull
    · cases hdefault : hasDefault || positionHasDefault with
      | true => simp [hnull]
      | false =>
        simp only [Bool.and_eq_true, Bool.not_eq_true'] at hnull
        simp [isCovariant, refines, hnull]
    · simp [hnull]
  · exact isCovariant_refl
  · intro a e f hae hef
    simp only [isCovariant, Bool.and_eq_true, beq_iff_eq] at hae hef ⊢
    exact ⟨hae.1.trans hef.1, refines_trans hae.2 hef.2⟩
  · intro a e hae hea
    simp only [isCovariant, Bool.and_eq_true, beq_iff_eq] at hae hea
    obtain ⟨hnull, helements⟩ := List.cons.inj (refines_antisymm hae.2 hea.2)
    cases a
    cases e
    simp_all

end GraphClient.TypeRef
