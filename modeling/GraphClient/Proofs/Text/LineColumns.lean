import GraphClient.Text.Lines
import Mathlib.Data.List.Count
import Mathlib.Data.Nat.SuccPred
import Mathlib.Data.Prod.Lex
import Mathlib.Order.Interval.Set.Monotone

/-!
# Lines and columns

* **`lineColumn_exact`**: they identify an offset.
-/

namespace GraphClient.Text

open List Nat

/-- The offsets at which the lines of a text start: its start, and each place behind a newline. -/
def lineStarts (text : String) : List Nat := 0 :: ((bytes text).idxsOf 10).map (· + 1)

variable {text : String} {o : Nat}

theorem lineColumn_succ (h : o < (bytes text).length) :
    lineColumn text (o + 1) = if (bytes text)[o] = 10 then ((lineColumn text o).1 + 1, 1)
      else ((lineColumn text o).1, (lineColumn text o).2 + 1) := by
  have hb : lineColumn text (o + 1) = (((bytes text).take o ++ [(bytes text)[o]]).count 10 + 1,
      (((bytes text).take o ++ [(bytes text)[o]]).reverse.takeWhile (· != 10)).length + 1) := by
    rw [lineColumn, take_add_one, getElem?_eq_getElem h]
    rfl
  rw [hb, count_append, count_singleton, reverse_append, reverse_singleton, singleton_append, takeWhile_cons]
  split_ifs with hn <;> simp_all [lineColumn]

theorem lineColumn_lt_succ (h : o < (bytes text).length) :
    toLex (lineColumn text o) < toLex (lineColumn text (o + 1)) := by
  rw [lineColumn_succ h, Prod.Lex.toLex_lt_toLex]
  split_ifs
  · exact .inl (lt_succ_self _)
  · exact .inr ⟨rfl, lt_succ_self _⟩

/-- The newlines in front of an offset. -/
theorem length_filter_idxsOf (bs : List UInt8) (o : Nat) :
    ((bs.idxsOf 10).filter (· < o)).length = (bs.take o).count 10 := by
  induction o generalizing bs with
  | zero => simp
  | succ o ih =>
    cases bs with
    | nil => simp [idxsOf]
    | cons b bs =>
      have hs : bs.idxsOf 10 1 = (bs.idxsOf 10).map (· + 1) := idxsOf_start
      rw [idxsOf_cons, take_succ_cons, count_cons, ← ih bs, zero_add, hs]
      split_ifs <;> simp [filter_map, Function.comp_def]

/-- The newline at an offset has as many newlines in front of it as the list of newlines has places. -/
theorem getElem?_idxsOf {bs : List UInt8} (h : o < bs.length) (hn : bs[o] = 10) :
    (bs.idxsOf 10)[(bs.take o).count 10]? = some o := by
  have hs : bs = bs.take o ++ 10 :: bs.drop (o + 1) := by rw [← hn, ← drop_eq_getElem_cons h, take_append_drop]
  have hi : bs.idxsOf 10 = (bs.take o).idxsOf 10 ++ o :: (bs.drop (o + 1)).idxsOf 10 (o + 1) := by
    nth_rw 1 [hs]
    rw [idxsOf_append, idxsOf_cons, length_take_of_le h.le]
    simp
  rw [hi, ← length_idxsOf, getElem?_append_right (Nat.le_refl _), Nat.sub_self]
  rfl

/-- **Line and column identify an offset.** They grow with it in lexicographic order up to the end of the text, the
line is one more than the newlines in front of it, and the offset is the start of the line with the columns in
front of it added. Behind the end, they are those of the end. -/
theorem lineColumn_exact (text : String) :
    StrictMonoOn (fun offset => toLex (lineColumn text offset)) (Set.Iic (bytes text).length) ∧
      (∀ offset ≤ (bytes text).length,
        (lineColumn text offset).1 = (((bytes text).idxsOf 10).filter (· < offset)).length + 1 ∧
          ∃ start, (lineStarts text)[(lineColumn text offset).1 - 1]? = some start ∧
            start + ((lineColumn text offset).2 - 1) = offset) ∧
      ∀ offset ≥ (bytes text).length, lineColumn text offset = lineColumn text (bytes text).length := by
  refine ⟨strictMonoOn_Iic_of_lt_succ fun o h => lineColumn_lt_succ h, fun o h => ⟨?_, ?_⟩, fun o h => ?_⟩
  · rw [length_filter_idxsOf]
    rfl
  · induction o with
    | zero => exact ⟨0, rfl, rfl⟩
    | succ o ih =>
      obtain ⟨start, hs, ho⟩ := ih (le_of_succ_le h)
      rw [lineColumn_succ h]
      split_ifs with hn
      · refine ⟨o + 1, ?_, rfl⟩
        exact (getElem?_cons_succ.trans getElem?_map).trans (congrArg (Option.map (· + 1)) (getElem?_idxsOf h hn))
      · have hc : (lineColumn text o).2 ≠ 0 := succ_ne_zero _
        exact ⟨start, hs, by dsimp only; omega⟩
  · rw [lineColumn, lineColumn, take_of_length_le h, take_length]

end GraphClient.Text
