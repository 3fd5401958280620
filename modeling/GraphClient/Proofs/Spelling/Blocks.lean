import GraphClient.Proofs.Spelling.Descriptions
import GraphClient.Proofs.Text.BlockStrings

/-!
# Descriptions of several lines

A description of several lines is printed as a block string, indented like what it describes. The value of the
block string is the description just if nothing in it looks like layout.

* **`Text.reread_eq_self_iff`**: the descriptions that survive printing, at every depth.
-/

namespace GraphClient

open List Printer

namespace Text

/-! ## Pieces -/

theorem splitOn_eq (sep : Char) (cs : List Char) : splitOn sep cs = cs.splitOn sep := by
  induction cs with
  | nil => rfl
  | cons c cs ih =>
    rw [splitOn, ih, splitOn_cons_eq_if_modifyHead]
    simp only [beq_iff_eq]
    cases hp : cs.splitOn sep with
    | nil => exact absurd hp (splitOn_ne_nil _ _)
    | cons first rest => rfl

variable {cs : List Char} {lines : List (List Char)}

theorem mem_of_mem_splitOn {sep c : Char} {piece : List Char} (h : piece ∈ splitOn sep cs)
    (hc : c ∈ piece) : c ∈ cs ∧ c ≠ sep := by
  induction cs generalizing piece with
  | nil =>
    obtain rfl := mem_singleton.mp h
    exact absurd hc not_mem_nil
  | cons first cs ih =>
    have hr : ∀ piece ∈ splitOn sep cs, c ∈ piece → c ∈ first :: cs ∧ c ≠ sep :=
      fun piece hi hc => (ih hi hc).imp_left (mem_cons_of_mem _)
    rw [splitOn] at h
    split_ifs at h with hf
    · rcases mem_cons.mp h with rfl | h
      · exact absurd hc not_mem_nil
      · exact hr piece h hc
    · cases hp : splitOn sep cs with
      | nil =>
        rw [hp] at h
        obtain rfl := mem_singleton.mp h
        obtain rfl := mem_singleton.mp hc
        exact ⟨mem_cons_self, hf⟩
      | cons he tail =>
        rw [hp] at h hr
        rcases mem_cons.mp h with rfl | h
        · rcases mem_cons.mp hc with rfl | hc
          · exact ⟨mem_cons_self, hf⟩
          · exact hr he mem_cons_self hc
        · exact hr piece (mem_cons_of_mem _ h) hc

theorem splitOn_line {line : List Char} (h : '\n' ∉ line) (rest : List Char) :
    splitOn '\n' (line ++ '\n' :: rest) = line :: splitOn '\n' rest := by
  rw [splitOn_eq, splitOn_eq, splitOn_append_cons_self_of_not_mem h]

/-! ## Lines -/

theorem splitLines_eq (h : '\r' ∉ cs) : splitLines cs = splitOn '\n' cs := by
  induction cs with
  | nil => rfl
  | cons c cs ih =>
    rw [mem_cons, not_or] at h
    rw [splitLines, splitOn, ih h.2]
    · simp [Ne.symm h.1]
    · exact fun _ hc => absurd hc.symm h.1

theorem unescapeTriple_line (line rest : List Char) :
    unescapeTriple (escapeTriple line ++ '\n' :: rest) = line ++ '\n' :: unescapeTriple rest := by
  induction line using escapeTriple.induct with
  | case1 more ih =>
    rw [escapeTriple]
    simp [unescapeTriple, ih]
  | case2 c more hs ih =>
    rw [escapeTriple.eq_2 _ _ hs, cons_append, unescapeTriple, ih, cons_append]
    rintro tail rfl he
    exact Lexeme.escapeTriple_ne more rest tail he
  | case3 => rfl

/-! ## Lines without content -/

theorem trimBlankLines_of_blank (h : ∀ line ∈ lines, isIndentOnly line) : trimBlankLines lines = [] :=
  trims_iff.mp ⟨lines, [], by simp, h, nofun, nofun, nofun⟩

theorem trimBlankLines_enclosed (lines : List (List Char)) :
    trimBlankLines ([] :: (lines ++ [[]])) = trimBlankLines lines := by
  obtain ⟨front, back, hl, hf, hb, hk⟩ := trims_trimBlankLines lines
  refine trims_iff.mp ⟨[] :: front, back ++ [[]], ?_, forall_mem_cons.mpr ⟨rfl, hf⟩,
    forall_mem_append.mpr ⟨hb, by simp [isIndentOnly]⟩, hk⟩
  conv_lhs => rw [hl]
  simp

/-- **Lines are kept just if there is content in the first and in the last.** -/
theorem trimBlankLines_eq_self_iff (hn : lines ≠ []) : trimBlankLines lines = lines ↔
      isIndentOnly (lines.head hn) = false ∧ isIndentOnly (lines.getLast hn) = false := by
  constructor
  · intro h
    obtain ⟨-, -, -, -, -, hf, hl⟩ := trims_iff.mpr h
    exact ⟨hf _ (head?_eq_some_head hn), hl _ (getLast?_eq_some_getLast hn)⟩
  · rintro ⟨hf, hl⟩
    refine trims_iff.mp ⟨[], [], by simp, nofun, nofun, ?_, ?_⟩
    · simpa [head?_eq_some_head hn] using hf
    · simpa [getLast?_eq_some_getLast hn] using hl

theorem trimBlankLines_sublist (lines : List (List Char)) : (trimBlankLines lines).Sublist lines := by
  obtain ⟨front, back, hl, -⟩ := trims_trimBlankLines lines
  conv_rhs => rw [hl]
  exact (sublist_append_left _ back).trans (sublist_append_right front _)

/-- Lines share no indentation just if one of them starts with its content. -/
theorem commonIndent_eq_zero_iff (lines : List (List Char)) :
    commonIndent lines = some 0 ↔ (lines.any fun line => line.head?.any fun c => !isIndent c) := by
  induction lines with
  | nil => simp [commonIndent]
  | cons line lines ih =>
    rw [commonIndent, any_cons, Bool.or_eq_true, ← ih]
    cases line with
    | nil => simp [isIndentOnly]
    | cons c line =>
      by_cases hc : isIndent c
      · by_cases hb : isIndentOnly (c :: line)
        · simp [hb, hc]
        · cases commonIndent lines <;> simp [hb]
      · cases commonIndent lines <;> simp [isIndentOnly, hc]

/-! ## Indentation -/

section Indentation

variable {pad : List Char} (hpad : ∀ c ∈ pad, c = ' ')

/-- A line behind its indentation. Empty lines get none. -/
def shift (pad line : List Char) : List Char := if line = [] then [] else pad ++ line

include hpad

theorem isIndentOnly_pad : isIndentOnly pad := all_eq_true.mpr fun c hc => by rw [hpad c hc]; rfl

theorem isIndentOnly_shift (line : List Char) : isIndentOnly (shift pad line) = isIndentOnly line := by
  rw [shift]
  split_ifs with hl
  · rw [hl]
  · exact isIndentOnly_append_pad hpad line

/-- **Shifted lines share more indentation.** -/
theorem commonIndent_shift (lines : List (List Char)) :
    commonIndent (lines.map (shift pad) ++ [pad]) = (commonIndent lines).map (pad.length + ·) := by
  have hl : commonIndent (lines.map (shift pad) ++ [pad]) = commonIndent (lines.map (shift pad)) := by
    simp [commonIndent_eq, isIndentOnly_pad hpad]
  rw [hl, commonIndent_map (isIndentOnly_shift hpad)]
  intro line hi
  have hn : line ≠ [] := by rintro rfl; cases hi
  rw [shift, if_neg hn, indentWidth_append_pad hpad]

omit hpad in
theorem drop_shift (line : List Char) (indent : Nat) :
    (shift pad line).drop (pad.length + indent) = line.drop indent := by
  rw [shift]
  split_ifs with hl
  · simp [hl]
  · rw [drop_append, Nat.add_sub_cancel_left, drop_eq_nil_of_le (Nat.le_add_right _ _), nil_append]

/-- **What is left of shifted lines.** -/
theorem trim_cut_shift (lines : List (List Char)) :
    trimBlankLines (cutIndent ([] :: (lines.map (shift pad) ++ [pad]))) =
      ((commonIndent lines).map fun indent => trimBlankLines (lines.map (·.drop indent))).getD [] := by
  rw [cutIndent, commonIndent_shift hpad]
  cases hc : commonIndent lines with
  | none =>
    change trimBlankLines ([] :: (lines.map (shift pad) ++ [pad])) = []
    refine trimBlankLines_of_blank fun line hl => ?_
    rw [mem_cons, mem_append, mem_singleton] at hl
    rcases hl with rfl | hl | rfl
    · rfl
    · obtain ⟨own, ho, rfl⟩ := mem_map.mp hl
      have hb : ∀ line ∈ lines, isIndentOnly line := by simpa [commonIndent_eq] using hc
      rw [isIndentOnly_shift hpad]
      exact hb own ho
    · exact isIndentOnly_pad hpad
  | some indent =>
    simp only [Option.map_some, map_append, map_map, map_cons, Function.comp_def, drop_shift]
    rw [drop_eq_nil_of_le (Nat.le_add_right _ _)]
    exact trimBlankLines_enclosed _

/-! ## Printed lines -/

theorem splitOn_shifted {lines : List (List Char)} (h : ∀ line ∈ lines, '\n' ∉ line) :
    splitOn '\n' (lines.flatMap (fun line => shift pad line ++ ['\n']) ++ pad) = lines.map (shift pad) ++ [pad] := by
  have hp' : '\n' ∉ pad := fun hm => absurd (hpad _ hm) (by decide)
  induction lines with
  | nil =>
    rw [flatMap_nil, nil_append, splitOn_eq, splitOn_eq_singleton hp']
    rfl
  | cons line lines ih =>
    rw [forall_mem_cons] at h
    have hl : '\n' ∉ shift pad line := by
      rw [shift]
      split_ifs
      · exact not_mem_nil
      · rw [mem_append, not_or]
        exact ⟨hp', h.1⟩
    rw [flatMap_cons, append_assoc, append_assoc, singleton_append, splitOn_line hl, ih h.2]
    rfl

theorem unescapeTriple_shifted (lines : List (List Char)) : unescapeTriple (lines.flatMap (fun line =>
        (if line = [] then [] else pad ++ escapeTriple line) ++ ['\n']) ++ pad) =
      lines.flatMap (fun line => shift pad line ++ ['\n']) ++ pad := by
  have hn : ∀ rest, unescapeTriple ('\n' :: rest) = '\n' :: unescapeTriple rest :=
    unescapeTriple_append (by decide : '\\' ∉ ['\n'])
  have hp : '\\' ∉ pad := fun hm => absurd (hpad _ hm) (by decide)
  induction lines with
  | nil =>
    have he := unescapeTriple_append hp []
    rw [unescapeTriple, append_nil] at he
    exact he
  | cons line lines ih =>
    rw [flatMap_cons, flatMap_cons, append_assoc, append_assoc, append_assoc,
      append_assoc, singleton_append, singleton_append, shift]
    split_ifs with hl
    · rw [nil_append, nil_append, hn, ih]
    · rw [append_assoc, append_assoc, unescapeTriple_append hp, unescapeTriple_line, ih]

end Indentation

/-! ## Printed descriptions -/

def printedLines (text : String) : List (List Char) := endLines (splitOn '\n' text.toList)

/-- Without carriage returns, these are the lines between newlines; an empty last one is not printed. -/
theorem endLines_of_not_mem {pieces : List (List Char)} (h : ∀ piece ∈ pieces, '\r' ∉ piece) :
    endLines pieces = if pieces.getLast? = some [] then pieces.dropLast else pieces := by
  induction pieces with
  | nil => rfl
  | cons piece pieces ih =>
    rw [forall_mem_cons] at h
    cases pieces with
    | nil =>
      rw [endLines]
      by_cases hp : piece = [] <;> simp
    | cons next rest =>
      have hk : dropReturn piece = piece := by
        rw [dropReturn, if_neg fun hl => h.1 (mem_of_getLast? hl)]
      rw [endLines, hk, ih h.2, getLast?_cons_cons]
      · split_ifs <;> rfl
      · simp

variable {text : String}

theorem printedLines_eq (h : '\r' ∉ text.toList) :
    printedLines text = if (splitOn '\n' text.toList).getLast? = some [] then (splitOn '\n' text.toList).dropLast
      else splitOn '\n' text.toList :=
  endLines_of_not_mem fun _ hp hc => h (mem_of_mem_splitOn hp hc).1

theorem mem_of_mem_printedLines (h : '\r' ∉ text.toList) {line : List Char}
    (hl : line ∈ printedLines text) : line ∈ splitOn '\n' text.toList := by
  rw [printedLines_eq h] at hl
  split_ifs at hl
  · exact dropLast_subset _ hl
  · exact hl

theorem unescape_blockText (depth : Nat) (text : String) : unescapeTriple (blockBody (blockText depth text).toList) =
      '\n' :: ((printedLines text).flatMap (fun line => shift (indent depth).toList line ++ ['\n']) ++
        (indent depth).toList) := by
  have hl : ∀ line : List Char, (descriptionLine depth (String.ofList line)).toList =
      (if line = [] then [] else (indent depth).toList ++ escapeTriple line) ++ ['\n'] := by
    intro line
    by_cases hn : line = [] <;> simp [descriptionLine, hn]
  have ht : (blockText depth text).toList = '"' :: '"' :: '"' ::
      ('\n' :: ((printedLines text).flatMap (fun line =>
        (if line = [] then [] else (Printer.indent depth).toList ++ Printer.escapeTriple line) ++ ['\n']) ++
          (Printer.indent depth).toList) ++ ['"', '"', '"']) := by
    simp [blockText, textLines, printedLines, flatMap_map, hl]
  have hb : ∀ body : List Char, blockBody ('"' :: '"' :: '"' :: (body ++ ['"', '"', '"'])) = body := blockBody_quoted
  rw [ht, hb, unescapeTriple, unescapeTriple_shifted (toList_indent depth)]
  exact fun _ hc => absurd hc (by decide)

/-- **The lines between the quotes of a printed description**, if it has no carriage returns. -/
theorem splitLines_blockText (depth : Nat) (h : '\r' ∉ text.toList) :
    splitLines (unescapeTriple (blockBody (blockText depth text).toList)) =
      [] :: ((printedLines text).map (shift (indent depth).toList) ++ [(indent depth).toList]) := by
  have hi : ∀ line ∈ printedLines text, '\n' ∉ line ∧ '\r' ∉ line := fun line hl =>
    ⟨fun hc => (mem_of_mem_splitOn (mem_of_mem_printedLines h hl) hc).2 rfl,
      fun hc => h (mem_of_mem_splitOn (mem_of_mem_printedLines h hl) hc).1⟩
  have hpad : '\r' ∉ (indent depth).toList := fun hc => absurd (toList_indent depth _ hc) (by decide)
  have hr : '\r' ∉ (printedLines text).flatMap (fun line => shift (indent depth).toList line ++ ['\n']) ++
      (indent depth).toList := by
    rw [mem_append, mem_flatMap, not_or]
    refine ⟨?_, hpad⟩
    rintro ⟨line, hl, hc⟩
    rw [shift] at hc
    split_ifs at hc
    · simp at hc
    · simp [hpad, (hi line hl).2] at hc
  have hn : ∀ rest, splitLines ('\n' :: rest) = [] :: splitLines rest := fun rest => by
    rw [splitLines]
    · rfl
    · exact fun _ hc => absurd hc (by decide)
  rw [unescape_blockText, hn, splitLines_eq hr, splitOn_shifted (toList_indent depth) fun line hl => (hi line hl).1]

theorem blockValue_blockText (depth : Nat) (h : '\r' ∉ text.toList) :
    blockValue (blockText depth text) = String.ofList (List.intercalate ['\n']
      (((commonIndent (printedLines text)).map fun indent =>
        trimBlankLines ((printedLines text).map (·.drop indent))).getD [])) := by
  rw [blockValue, splitLines_blockText depth h, trim_cut_shift (toList_indent depth)]

/-! ## Stable descriptions -/

/-- **Whether a description is read as it was**: it is one line, or it has no carriage returns, its first and last
line have content, and some line starts with it. -/
def isStable (text : String) : Bool :=
  let lines := splitOn '\n' text.toList
  !text.toList.contains '\n' || !text.toList.contains '\r' && !lines.head?.any isIndentOnly &&
    !lines.getLast?.any isIndentOnly && lines.any fun line => line.head?.any fun c => !isIndent c

theorem isStable_iff_of_newline (h : '\n' ∈ text.toList) (hn : splitOn '\n' text.toList ≠ []) :
    isStable text ↔ '\r' ∉ text.toList ∧ (isIndentOnly ((splitOn '\n' text.toList).head hn) = false ∧
        isIndentOnly ((splitOn '\n' text.toList).getLast hn) = false) ∧
      commonIndent (splitOn '\n' text.toList) = some 0 := by
  rw [commonIndent_eq_zero_iff, isStable, head?_eq_some_head hn, getLast?_eq_some_getLast hn]
  simp [h, and_assoc]

theorem blockValue_of_isStable (depth : Nat) (hn : '\n' ∈ text.toList)
    (h : isStable text) : blockValue (blockText depth text) = text := by
  have hne : splitOn '\n' text.toList ≠ [] := by rw [splitOn_eq]; exact List.splitOn_ne_nil _ _
  obtain ⟨hr, he, hc⟩ := (isStable_iff_of_newline hn hne).mp h
  have hl : (splitOn '\n' text.toList).getLast? ≠ some [] := by
    rw [getLast?_eq_some_getLast hne]
    intro hq
    rw [Option.some_inj.mp hq] at he
    exact absurd he.2 (by decide)
  have hp : printedLines text = splitOn '\n' text.toList := by rw [printedLines_eq hr, if_neg hl]
  have ht := (trimBlankLines_eq_self_iff hne).mpr he
  rw [blockValue_blockText depth hr, hp, hc]
  simp only [Option.map_some, Option.getD_some, drop_zero, map_id_fun', id_eq, ht]
  rw [splitOn_eq, intercalate_splitOn, String.ofList_toList]

theorem not_mem_intercalate {c : Char} {lines : List (List Char)} (hc : c ≠ '\n') (h : ∀ line ∈ lines, c ∉ line) :
    c ∉ intercalate ['\n'] lines := by
  induction lines with
  | nil => simp
  | cons line lines ih =>
    rw [forall_mem_cons] at h
    cases lines with
    | nil => simpa using h.1
    | cons next rest =>
      rw [intercalate_cons_cons, mem_append, mem_append, mem_singleton, not_or, not_or]
      exact ⟨⟨h.1, hc⟩, ih h.2⟩

theorem not_mem_blockValue (raw : String) : '\r' ∉ (blockValue raw).toList := by
  obtain ⟨plain, first, rest, cut, kept, -, hl, hu, hk, ht⟩ := blockText_iff.mpr (rfl :
    intercalate ['\n'] (trimBlankLines (cutIndent (splitLines (unescapeTriple (blockBody raw.toList))))) = _)
  rw [blockValue, String.toList_ofList, ht]
  exact not_mem_intercalate (by decide) fun line hi hc =>
    absurd (hk.isBreak_eq_false hl hu line hi _ hc) (by decide)

theorem isStable_of_blockValue {depth : Nat} (hn : '\n' ∈ text.toList)
    (h : blockValue (blockText depth text) = text) : isStable text := by
  have hne : splitOn '\n' text.toList ≠ [] := by rw [splitOn_eq]; exact splitOn_ne_nil _ _
  have hr : '\r' ∉ text.toList := h ▸ not_mem_blockValue _
  rw [blockValue_blockText depth hr] at h
  cases hco : commonIndent (printedLines text) with
  | none =>
    rw [hco] at h
    rw [← h] at hn
    exact absurd hn (by simp)
  | some indent =>
    rw [hco, Option.map_some, Option.getD_some] at h
    have ht : text.toList = intercalate ['\n'] (trimBlankLines ((printedLines text).map (·.drop indent))) := by
      conv_lhs => rw [← h, String.toList_ofList]
    have hp : splitOn '\n' text.toList = trimBlankLines ((printedLines text).map (·.drop indent)) := by
      rw [splitOn_eq]
      conv_lhs => rw [ht]
      refine splitOn_intercalate '\n' (fun line hl hc => ?_) fun hni => ?_
      · obtain ⟨own, ho, rfl⟩ := mem_map.mp ((trimBlankLines_sublist _).subset hl)
        exact (mem_of_mem_splitOn (mem_of_mem_printedLines hr ho) (mem_of_mem_drop hc)).2 rfl
      · rw [ht, hni] at hn
        exact absurd hn not_mem_nil
    have hre : (splitOn '\n' text.toList).length ≤ (printedLines text).length := by
      have hle := (trimBlankLines_sublist ((printedLines text).map (·.drop indent))).length_le
      rwa [← hp, length_map] at hle
    have hpr : printedLines text = splitOn '\n' text.toList := by
      rw [printedLines_eq hr] at hre ⊢
      split_ifs at hre ⊢
      · rw [length_dropLast] at hre
        have := length_pos_iff.mpr hne
        omega
      · rfl
    rw [hpr] at hp hco
    have hd : (splitOn '\n' text.toList).map (·.drop indent) = splitOn '\n' text.toList := by
      conv_rhs => rw [hp]
      refine ((trimBlankLines_sublist _).eq_of_length ?_).symm
      rw [← hp, length_map]
    rw [hd] at hp
    have he := (trimBlankLines_eq_self_iff hne).mp hp.symm
    have hi : indent = 0 := by
      have hf : ((splitOn '\n' text.toList).head hne).drop indent = (splitOn '\n' text.toList).head hne :=
        map_inj_left.mp (hd.trans (map_id _).symm) _ (head_mem hne)
      have hlen := congrArg length hf
      rw [length_drop] at hlen
      have hpo : 0 < ((splitOn '\n' text.toList).head hne).length := by
        refine length_pos_iff.mpr fun hni => ?_
        rw [hni] at he
        exact absurd he.1 (by decide)
      omega
    rw [hi] at hco
    exact (isStable_iff_of_newline hn hne).mpr ⟨hr, he, hco⟩

theorem reread_eq_self_iff (depth : Nat) (text : String) : reread depth text = text ↔ isStable text := by
  by_cases hn : '\n' ∈ text.toList
  · rw [reread, isBlock, contains_eq_mem, decide_eq_true hn]
    exact ⟨isStable_of_blockValue hn, blockValue_of_isStable depth hn⟩
  · simp [reread, isBlock, isStable, hn]

end Text

end GraphClient
