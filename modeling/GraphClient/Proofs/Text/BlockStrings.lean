import Mathlib.Data.List.DropRight
import GraphClient.Text.Block
import GraphClient.Proofs.Token.Scan

/-!
# The text of block strings

* **`Text.blockValue_exact`**: the value of a block string token.
-/

namespace GraphClient.Text

open List
open Lexical (tripleQuote)

/-! ## What a body stands for -/

/-- A body with plain triple quotes in place of its escaped ones. -/
def Plain (body plain : List Char) : Prop :=
  ∃ pieces ≠ [], body = intercalate ('\\' :: tripleQuote) pieces ∧ plain = intercalate tripleQuote pieces ∧
    ∀ piece ∈ pieces, ¬ '\\' :: tripleQuote <:+: piece

def isBreak (c : Char) : Bool := c == '\n' || c == '\r'

/-- **The lines of a text**: a newline ends one, or a carriage return, or both in the other order. -/
inductive Lines : List Char → List (List Char) → Prop
  | last {line : List Char} : (∀ c ∈ line, isBreak c = false) → Lines line [line]
  | next (line ending : List Char) {rest : List Char} {lines : List (List Char)} : (∀ c ∈ line, isBreak c = false) →
      ending ∈ [['\r', '\n'], ['\n'], ['\r']] → (ending = ['\r'] → rest.head? ≠ some '\n') → Lines rest lines →
      Lines (line ++ (ending ++ rest)) (line :: lines)

def indentWidth (line : List Char) : Nat := (line.takeWhile isIndent).length

/-- The least indentation of a line with content is cut from all lines. -/
def Dedents (lines cut : List (List Char)) : Prop :=
  (∀ line ∈ lines, isIndentOnly line) ∧ cut = lines ∨ ∃ line ∈ lines, isIndentOnly line = false ∧
      (∀ other ∈ lines, isIndentOnly other = false → indentWidth line ≤ indentWidth other) ∧
      cut = lines.map (·.drop (indentWidth line))

/-- Lines without content are dropped at both ends. -/
def Trims (lines kept : List (List Char)) : Prop :=
  ∃ front back, lines = front ++ (kept ++ back) ∧ (∀ line ∈ front, isIndentOnly line) ∧
    (∀ line ∈ back, isIndentOnly line) ∧ (∀ line ∈ kept.head?, isIndentOnly line = false) ∧
    ∀ line ∈ kept.getLast?, isIndentOnly line = false

/-- **What the body of a block string stands for.** -/
def BlockText (body text : List Char) : Prop :=
  ∃ plain first rest cut kept, Plain body plain ∧ Lines plain (first :: rest) ∧ Dedents rest cut ∧
    Trims (first :: cut) kept ∧ text = intercalate ['\n'] kept

/-! ## Escaped quotes -/

theorem unescapeTriple_cons {c : Char} {cs : List Char} (h : ¬ '\\' :: tripleQuote <+: c :: cs) :
    unescapeTriple (c :: cs) = c :: unescapeTriple cs := by
  rw [unescapeTriple]
  rintro rest rfl rfl
  exact h ⟨rest, rfl⟩

variable {front rest text line : List Char} {lines : List (List Char)}

theorem unescapeTriple_append (h : '\\' ∉ front) (rest : List Char) :
    unescapeTriple (front ++ rest) = front ++ unescapeTriple rest := by
  induction front with
  | nil => rfl
  | cons c front ih =>
    rw [mem_cons, not_or] at h
    rw [cons_append, unescapeTriple_cons (fun hs => h.1 (cons_prefix_cons.mp hs).1), ih h.2, cons_append]

/-- An escape cannot start in one piece and end behind it. -/
theorem unescapeTriple_piece {piece : List Char} (hp : ¬ '\\' :: tripleQuote <:+: piece)
    (hr : rest.head? ≠ some '"') : unescapeTriple (piece ++ rest) = piece ++ unescapeTriple rest := by
  induction piece with
  | nil => rfl
  | cons c piece ih =>
    rw [infix_cons_iff, not_or] at hp
    have hs : ¬ '\\' :: tripleQuote <+: c :: (piece ++ rest) := by
      rintro ⟨tail, ht⟩
      rcases piece with _ | ⟨a, _ | ⟨b, _ | ⟨d, piece⟩⟩⟩
      all_goals cases ht
      iterate 3 · exact hr rfl
      · exact hp.1 ⟨piece, rfl⟩
    rw [cons_append, unescapeTriple_cons hs, ih hp.2, cons_append]

theorem plain_iff {body plain : List Char} : Plain body plain ↔ unescapeTriple body = plain := by
  constructor
  · rintro ⟨pieces, hn, rfl, rfl, hp⟩
    induction pieces with
    | nil => exact absurd rfl hn
    | cons piece pieces ih =>
      rw [forall_mem_cons] at hp
      cases pieces with
      | nil =>
        have hl := unescapeTriple_piece hp.1 (by simp : [].head? ≠ some '"')
        rw [append_nil, unescapeTriple, append_nil] at hl
        rw [intercalate_singleton, intercalate_singleton, hl]
      | cons next pieces =>
        rw [intercalate_cons_cons, intercalate_cons_cons, append_assoc,
          unescapeTriple_piece hp.1 (by simp), ← ih (cons_ne_nil _ _) hp.2, append_assoc]
        rfl
  · rintro rfl
    fun_induction unescapeTriple body with
    | case1 => exact ⟨[[]], cons_ne_nil _ _, rfl, rfl, by simp [tripleQuote]⟩
    | case2 rest ih =>
      obtain ⟨pieces, hn, hb, hpl, hp⟩ := ih
      obtain ⟨piece, pieces, rfl⟩ := exists_cons_of_ne_nil hn
      refine ⟨[] :: piece :: pieces, cons_ne_nil _ _, ?_, ?_, forall_mem_cons.mpr ⟨by simp [tripleQuote], hp⟩⟩
      · rw [intercalate_cons_cons, ← hb]
        rfl
      · rw [intercalate_cons_cons, ← hpl]
        rfl
    | case3 c rest hs ih =>
      obtain ⟨pieces, hn, hb, hpl, hp⟩ := ih
      obtain ⟨piece, pieces, rfl⟩ := exists_cons_of_ne_nil hn
      have hc : ∀ sep : List Char, intercalate sep ((c :: piece) :: pieces) =
          c :: intercalate sep (piece :: pieces) := fun sep => by cases pieces <;> simp
      rw [forall_mem_cons] at hp
      refine ⟨(c :: piece) :: pieces, cons_ne_nil _ _, by rw [hc, ← hb], by rw [hc, ← hpl],
        forall_mem_cons.mpr ⟨?_, hp.2⟩⟩
      rw [infix_cons_iff, not_or]
      refine ⟨fun hf => ?_, hp.1⟩
      have hi : piece <+: rest := by
        rw [hb]
        cases pieces with
        | nil => simp
        | cons next pieces =>
          rw [intercalate_cons_cons, append_assoc]
          exact prefix_append _ _
      obtain ⟨tail, ht⟩ := hf.trans (prefix_cons_inj c |>.mpr hi)
      obtain ⟨rfl, rfl⟩ := cons.inj ht
      exact hs tail rfl rfl

/-! ## Lines -/

theorem Lines.ne_nil (h : Lines text lines) : lines ≠ [] := by
  cases h <;> exact cons_ne_nil _ _

theorem Lines.append (h : Lines text (line :: lines))
    (hf : ∀ c ∈ front, isBreak c = false) : Lines (front ++ text) ((front ++ line) :: lines) := by
  cases h with
  | last hl => exact .last (forall_mem_append.mpr ⟨hf, hl⟩)
  | next _ ending hl he ha hr =>
    rw [← append_assoc]
    exact .next _ ending (forall_mem_append.mpr ⟨hf, hl⟩) he ha hr

theorem splitLines_append (h : ∀ c ∈ line, isBreak c = false) (rest : List Char) :
    splitLines (line ++ rest) = line.foldr consHead (splitLines rest) := by
  induction line with
  | nil => rfl
  | cons c line ih =>
    rw [forall_mem_cons] at h
    have hc : ¬(c = '\n' ∨ c = '\r') := by simpa [isBreak] using h.1
    rw [cons_append, splitLines, if_neg hc, ih h.2, foldr_cons]
    exact fun _ he => absurd (.inr he) hc

theorem foldr_consHead (line : List Char) (first : List Char) (lines : List (List Char)) :
    line.foldr consHead (first :: lines) = (line ++ first) :: lines := by
  induction line with
  | nil => rfl
  | cons c line ih => rw [foldr_cons, ih]; rfl

theorem lines_splitLines (text : List Char) : Lines text (splitLines text) := by
  fun_induction splitLines text with
  | case1 => exact .last (by simp)
  | case2 rest ih => exact .next [] ['\r', '\n'] (by simp) (by simp) nofun ih
  | case3 c rest hp hc ih =>
    refine .next [] [c] (by simp) (by simpa using hc) (fun he hh => ?_) ih
    obtain ⟨more, rfl⟩ := head?_eq_some_iff.mp hh
    exact hp more (cons.inj he).1 rfl
  | case4 c rest hp hc ih =>
    obtain ⟨line, lines, hl⟩ := exists_cons_of_ne_nil ih.ne_nil
    rw [hl] at ih ⊢
    have hcl : ∀ d ∈ [c], isBreak d = false := by simpa [isBreak] using hc
    exact ih.append hcl

theorem lines_iff : Lines text lines ↔ splitLines text = lines := by
  refine ⟨fun h => ?_, fun h => h ▸ lines_splitLines text⟩
  induction h with
  | @last line hl =>
    have hs := splitLines_append hl []
    rwa [append_nil, splitLines, foldr_consHead, append_nil] at hs
  | @next line ending rest lines hl he hp _ ih =>
    have hb : splitLines (ending ++ rest) = [] :: lines := by
      rw [← ih]
      simp only [mem_cons, not_mem_nil, or_false] at he
      rcases he with rfl | rfl | rfl
      · rfl
      · rfl
      · rw [singleton_append, splitLines]
        · rfl
        · rintro more - rfl
          exact hp rfl rfl
    rw [splitLines_append hl, hb, foldr_consHead, append_nil]

theorem Lines.isBreak_eq_false (h : Lines text lines) (hl : line ∈ lines) : ∀ c ∈ line, isBreak c = false := by
  induction h with
  | last hc =>
    obtain rfl := mem_singleton.mp hl
    exact hc
  | next _ _ hc _ _ _ ih =>
    rcases mem_cons.mp hl with rfl | hl
    · exact hc
    · exact ih hl

/-! ## Indentation -/

theorem commonIndent_eq (lines : List (List Char)) :
    commonIndent lines = ((lines.filter (!isIndentOnly ·)).map indentWidth).min? := by
  induction lines with
  | nil => rfl
  | cons first lines ih =>
    rw [commonIndent, ih]
    by_cases hb : isIndentOnly first
    · simp [hb]
    · rw [if_neg hb, filter_cons_of_pos (by simpa using hb), map_cons, min?_cons]
      cases ((lines.filter (!isIndentOnly ·)).map indentWidth).min? <;> rfl

theorem dedents_iff {first : List Char} {rest cut : List (List Char)} :
    Dedents rest cut ↔ cutIndent (first :: rest) = first :: cut := by
  rw [cutIndent, commonIndent_eq]
  cases he : ((rest.filter (!isIndentOnly ·)).map indentWidth).min? with
  | none =>
    have hb : ∀ line ∈ rest, isIndentOnly line := by simpa using he
    have hc : ¬∃ line ∈ rest, isIndentOnly line = false := by simpa using hb
    simp only [cons.injEq, true_and, eq_comm (a := rest)]
    constructor
    · rintro (h | ⟨line, hl, hn, -⟩)
      · exact h.2
      · exact absurd ⟨line, hl, hn⟩ hc
    · exact fun h => .inl ⟨hb, h⟩
  | some width =>
    rw [min?_eq_some_iff] at he
    obtain ⟨hm, hle⟩ := he
    obtain ⟨line, hl, rfl⟩ := mem_map.mp hm
    rw [mem_filter, Bool.not_eq_true'] at hl
    have he : ∀ other ∈ rest, isIndentOnly other = false → indentWidth line ≤ indentWidth other :=
      fun other ho hc => hle _ (mem_map.mpr ⟨other, by simp [ho, hc], rfl⟩)
    simp only [cons.injEq, true_and]
    constructor
    · rintro (⟨hb, -⟩ | ⟨other, ho, hc, hother_le, rfl⟩)
      · rw [hb line hl.1] at hl
        exact absurd hl.2 (by decide)
      · rw [le_antisymm (hother_le line hl.1 hl.2) (he other ho hc)]
    · rintro rfl
      exact .inr ⟨line, hl.1, hl.2, he, rfl⟩

/-- Shared indentation grows with the lines. -/
theorem commonIndent_map {grow : List Char → List Char} {width : Nat}
    (hb : ∀ line, isIndentOnly (grow line) = isIndentOnly line)
    (hw : ∀ line, isIndentOnly line = false → indentWidth (grow line) = width + indentWidth line)
    (lines : List (List Char)) : commonIndent (lines.map grow) = (commonIndent lines).map (width + ·) := by
  induction lines with
  | nil => rfl
  | cons line lines ih =>
    rw [map_cons, commonIndent, commonIndent, hb, ih]
    by_cases h : isIndentOnly line
    · rw [if_pos h, if_pos h]
    · have ho := hw line (eq_false_of_ne_true h)
      rw [indentWidth, indentWidth] at ho
      rw [if_neg h, if_neg h, ho]
      cases commonIndent lines with
      | none => rfl
      | some other => simp

/-! ## Lines without content -/

theorem trims_trimBlankLines (lines : List (List Char)) : Trims lines (trimBlankLines lines) := by
  obtain ⟨rest, hr⟩ : ∃ rest, lines.dropWhile isIndentOnly = rest := ⟨_, rfl⟩
  have ht : trimBlankLines lines = rest.rdropWhile isIndentOnly := by rw [← hr]; rfl
  have hb : rest.rdropWhile isIndentOnly ++ rest.rtakeWhile isIndentOnly = rest :=
    rdropWhile_append_rtakeWhile ..
  rw [ht]
  refine ⟨lines.takeWhile isIndentOnly, rest.rtakeWhile isIndentOnly, ?_, fun line h => mem_takeWhile_imp h,
    fun line h => mem_rtakeWhile_imp h, fun line h => ?_, fun line h => ?_⟩
  · rw [hb, ← hr, takeWhile_append_dropWhile]
  · obtain ⟨more, hm⟩ := head?_eq_some_iff.mp h
    have hh := head?_dropWhile_not isIndentOnly lines
    rw [hr, ← hb, hm] at hh
    exact hh
  · have hn : rest.rdropWhile isIndentOnly ≠ [] := fun hi => by rw [hi] at h; cases h
    rw [getLast?_eq_some_getLast hn] at h
    obtain rfl := Option.some.inj h
    exact eq_false_of_ne_true (rdropWhile_last_not isIndentOnly rest hn)

theorem trims_iff {kept : List (List Char)} : Trims lines kept ↔ trimBlankLines lines = kept := by
  refine ⟨?_, fun h => h ▸ trims_trimBlankLines lines⟩
  rintro ⟨front, back, rfl, hfr, hb, hf, hl⟩
  rw [trimBlankLines, dropWhile_append_of_pos hfr]
  cases kept with
  | nil =>
    rw [nil_append, dropWhile_eq_nil_iff.mpr hb]
    rfl
  | cons first kept =>
    have hc : ¬isIndentOnly first := by simpa using hf
    have he : ((first :: kept).reverse.dropWhile isIndentOnly) = (first :: kept).reverse := by
      rw [← head?_reverse] at hl
      cases hr : (first :: kept).reverse with
      | nil => rfl
      | cons last rest =>
        rw [hr] at hl
        exact dropWhile_cons_of_neg (by simpa using hl)
    rw [cons_append, dropWhile_cons_of_neg hc, ← cons_append, reverse_append,
      dropWhile_append_of_pos (by simpa using hb), he, reverse_reverse]

/-! ## Indented lines -/

/-- A body with more in front of every line but the first. -/
def padLines (pad : List Char) : List Char → List Char
  | [] => []
  | '\r' :: '\n' :: rest => '\r' :: '\n' :: (pad ++ padLines pad rest)
  | c :: rest => if isBreak c then c :: (pad ++ padLines pad rest) else c :: padLines pad rest

theorem padLines_append (h : ∀ c ∈ line, isBreak c = false) (pad rest : List Char) :
    padLines pad (line ++ rest) = line ++ padLines pad rest := by
  induction line with
  | nil => rfl
  | cons c line ih =>
    rw [forall_mem_cons] at h
    rw [cons_append, padLines, h.1, ih h.2]
    · rfl
    · rintro more rfl
      exact absurd h.1 (by decide)

theorem head?_padLines (pad text : List Char) : (padLines pad text).head? = text.head? := by
  fun_cases padLines pad text <;> rfl

theorem padLines_ending {pad ending : List Char} (he : ending ∈ [['\r', '\n'], ['\n'], ['\r']])
    (ha : ending = ['\r'] → rest.head? ≠ some '\n') :
    padLines pad (ending ++ rest) = ending ++ (pad ++ padLines pad rest) := by
  simp only [mem_cons, not_mem_nil, or_false] at he
  rcases he with rfl | rfl | rfl
  · rfl
  · rfl
  · rw [singleton_append, padLines]
    · rfl
    · rintro more - rfl
      exact ha rfl rfl

section Padding

variable {pad : List Char} (hpad : ∀ c ∈ pad, c = ' ')

include hpad

variable {text : List Char}

theorem Lines.padded {first : List Char} {rest : List (List Char)} (h : Lines text (first :: rest)) :
    Lines (padLines pad text) (first :: rest.map (pad ++ ·)) := by
  have hcl : ∀ c ∈ pad, isBreak c = false := fun c hc => by rw [hpad c hc]; rfl
  generalize hi : first :: rest = lines at h
  induction h generalizing first rest with
  | @last line hl =>
    obtain ⟨rfl, rfl⟩ := cons.inj hi
    have hk := padLines_append hl pad []
    rw [append_nil, padLines, append_nil] at hk
    rw [hk]
    exact .last hl
  | @next line ending text lines hl he ha ht ih =>
    obtain ⟨rfl, rfl⟩ := cons.inj hi
    obtain ⟨second, more, rfl⟩ := exists_cons_of_ne_nil ht.ne_nil
    rw [padLines_append hl, padLines_ending he ha]
    refine .next _ ending hl he (fun hr hh => ?_) ((ih rfl).append hcl)
    cases pad with
    | nil => exact ha hr ((head?_padLines [] text).symm.trans hh)
    | cons c pad =>
      rw [cons_append, head?_cons, hpad c mem_cons_self] at hh
      exact absurd (Option.some.inj hh) (by decide)

omit hpad in
theorem padLines_front {front : List Char} (hf : ∀ c ∈ front, isBreak c = false)
    (h : front <+: padLines pad text) : front <+: text := by
  induction front generalizing text with
  | nil => exact nil_prefix
  | cons d front ih =>
    rw [forall_mem_cons] at hf
    obtain ⟨tail, ht⟩ := h
    revert ht
    fun_cases padLines pad text with
    | case1 => exact nofun
    | case2 rest =>
      intro ht
      rw [(cons.inj ht).1] at hf
      exact absurd hf.1 (by decide)
    | case3 c rest _ hb =>
      intro ht
      rw [(cons.inj ht).1, hb] at hf
      exact absurd hf.1 (by decide)
    | case4 c rest =>
      intro ht
      obtain ⟨rfl, hr⟩ := cons.inj ht
      exact (prefix_cons_inj d).mpr (ih hf.2 ⟨tail, hr⟩)

theorem unescapeTriple_padLines (body : List Char) :
    unescapeTriple (padLines pad body) = padLines pad (unescapeTriple body) := by
  have hi : '\\' ∉ pad := fun hme => absurd (hpad _ hme) (by decide)
  fun_induction padLines pad body with
  | case1 => rfl
  | case2 rest ih =>
    have he : ∀ rest, unescapeTriple ('\r' :: '\n' :: rest) = '\r' :: '\n' :: unescapeTriple rest :=
      unescapeTriple_append (by decide : '\\' ∉ ['\r', '\n'])
    rw [he, he, padLines, unescapeTriple_append hi, ih]
  | case3 c rest ha hb ih =>
    have hc : '\\' ∉ [c] := fun hme => by
      obtain rfl := mem_singleton.mp hme
      exact absurd hb (by decide)
    have he : ∀ rest, unescapeTriple (c :: rest) = c :: unescapeTriple rest := unescapeTriple_append hc
    rw [he, he, padLines, if_pos hb, unescapeTriple_append hi, ih]
    rintro more rfl hm
    rcases rest with _ | ⟨d, rest⟩
    · cases hm
    by_cases hs : '\\' :: tripleQuote <+: d :: rest
    · obtain ⟨rfl, tail, rfl⟩ := cons_prefix_cons.mp hs
      cases hm
    · rw [unescapeTriple_cons hs] at hm
      exact ha rest rfl (by rw [(cons.inj hm).1])
  | case4 c rest _ hb ih =>
    have hl : ∀ d ∈ [c], isBreak d = false := by simpa using hb
    have hu : ∀ d ∈ tripleQuote, isBreak d = false := by simp [tripleQuote, isBreak]
    have hk : ∀ rest, padLines pad (c :: rest) = c :: padLines pad rest := padLines_append hl pad
    by_cases hs : '\\' :: tripleQuote <+: c :: rest
    · obtain ⟨rfl, tail, rfl⟩ := cons_prefix_cons.mp hs
      have hq : ∀ rest, unescapeTriple ('\\' :: (tripleQuote ++ rest)) = unescapeTriple (tripleQuote ++ rest) :=
        fun rest => rfl
      rw [padLines_append hu] at ih
      rw [padLines_append hu, hq, ih, hq]
    · have hp : ¬ '\\' :: tripleQuote <+: c :: padLines pad rest := fun hf => by
        obtain ⟨hc, hq⟩ := cons_prefix_cons.mp hf
        exact hs (cons_prefix_cons.mpr ⟨hc, padLines_front hu hq⟩)
      rw [unescapeTriple_cons hs, unescapeTriple_cons hp, hk, ih]

theorem isIndentOnly_append_pad (line : List Char) : isIndentOnly (pad ++ line) = isIndentOnly line := by
  have hb : isIndentOnly pad := all_eq_true.mpr fun c hc => by rw [hpad c hc]; rfl
  rw [isIndentOnly, all_append, ← isIndentOnly, hb, Bool.true_and, isIndentOnly]

theorem indentWidth_append_pad (line : List Char) : indentWidth (pad ++ line) = pad.length + indentWidth line := by
  rw [indentWidth, takeWhile_append_of_pos (fun c hc => by rw [hpad c hc]; rfl), length_append, indentWidth]

/-- **What is left of lines does not depend on how far those behind the first are indented.** -/
theorem trim_cut_pad (first : List Char) (rest : List (List Char)) :
    trimBlankLines (cutIndent (first :: rest.map (pad ++ ·))) = trimBlankLines (cutIndent (first :: rest)) := by
  have hb : ∀ back : List (List Char), (∀ line ∈ back, isIndentOnly line) →
      trimBlankLines (first :: back) = trimBlankLines [first] := fun back ha => by
    obtain ⟨front, last, hl, hf, hla, hk⟩ := trims_trimBlankLines [first]
    refine trims_iff.mp ⟨front, last ++ back, ?_, hf, forall_mem_append.mpr ⟨hla, ha⟩, hk⟩
    rw [← append_assoc _ last, ← append_assoc front, ← hl, singleton_append]
  rw [cutIndent, cutIndent,
    commonIndent_map (isIndentOnly_append_pad hpad) fun line _ => indentWidth_append_pad hpad line]
  cases hc : commonIndent rest with
  | none =>
    have hr : ∀ line ∈ rest, isIndentOnly line := by simpa [commonIndent_eq] using hc
    refine (hb _ fun line hi => ?_).trans (hb rest hr).symm
    obtain ⟨own, ho, rfl⟩ := mem_map.mp hi
    rw [isIndentOnly_append_pad hpad]
    exact hr own ho
  | some indent => simp [Function.comp_def, drop_append, drop_eq_nil_of_le (Nat.le_add_right _ indent)]

end Padding

/-! ## Tokens -/

theorem blockTail_eq {tail : List Char} (h : Lexical.BlockTail tail) : ∃ body, tail = body ++ tripleQuote := by
  induction h with
  | close => exact ⟨[], rfl⟩
  | escape _ ih =>
    obtain ⟨body, rfl⟩ := ih
    exact ⟨'\\' :: tripleQuote ++ body, (append_assoc ..).symm⟩
  | @character c _ _ _ _ ih =>
    obtain ⟨body, rfl⟩ := ih
    exact ⟨c :: body, rfl⟩

theorem blockBody_quoted (body : List Char) : blockBody (tripleQuote ++ (body ++ tripleQuote)) = body := by
  simp [blockBody, tripleQuote]

variable {body text : List Char}

theorem blockText_iff : BlockText body text ↔
    intercalate ['\n'] (trimBlankLines (cutIndent (splitLines (unescapeTriple body)))) = text := by
  constructor
  · rintro ⟨plain, first, rest, cut, kept, hp, hl, hc, hk, rfl⟩
    rw [plain_iff.mp hp, lines_iff.mp hl, dedents_iff.mp hc, trims_iff.mp hk]
  · rintro rfl
    obtain ⟨first, rest, hl⟩ := exists_cons_of_ne_nil (lines_splitLines (unescapeTriple body)).ne_nil
    obtain ⟨cut, hc⟩ : ∃ cut, cutIndent (first :: rest) = first :: cut := by
      rw [cutIndent]
      cases commonIndent rest <;> exact ⟨_, rfl⟩
    exact ⟨_, first, rest, cut, _, plain_iff.mpr rfl, lines_iff.mpr hl, dedents_iff.mpr hc, trims_trimBlankLines _,
      by rw [hl, hc]⟩

theorem Trims.isBreak_eq_false {plain first : List Char} {rest cut kept : List (List Char)}
    (hi : Lines plain (first :: rest)) (hu : Dedents rest cut) (hk : Trims (first :: cut) kept) :
    ∀ line ∈ kept, ∀ c ∈ line, isBreak c = false := by
  intro line hm
  obtain ⟨front, back, hk, -⟩ := hk
  have hl : line ∈ first :: cut := hk ▸ mem_append_right _ (mem_append_left _ hm)
  rcases mem_cons.mp hl with rfl | hl
  · exact hi.isBreak_eq_false mem_cons_self
  · rcases hu with ⟨-, rfl⟩ | ⟨least, -, -, -, rfl⟩
    · exact hi.isBreak_eq_false (mem_cons_of_mem _ hl)
    · obtain ⟨own, ho, rfl⟩ := mem_map.mp hl
      exact fun c hc => hi.isBreak_eq_false (mem_cons_of_mem _ ho) c (mem_of_mem_drop hc)

/-- There is content in the first and in the last line of a text. -/
theorem BlockText.content (h : BlockText body text) (he : text ≠ []) {line : List Char}
    (hl : (text.splitOn '\n').head? = some line ∨ (text.splitOn '\n').getLast? = some line) :
    isIndentOnly line = false := by
  obtain ⟨plain, first, rest, cut, kept, -, hi, hu, hk, rfl⟩ := h
  have hcl : ∀ line ∈ kept, '\n' ∉ line := fun line hm hc =>
    absurd (hk.isBreak_eq_false hi hu line hm _ hc) (by decide)
  rw [splitOn_intercalate '\n' hcl fun hn => he (by rw [hn]; rfl)] at hl
  obtain ⟨front, back, -, -, -, hf, ha⟩ := hk
  exact hl.elim (hf line) (ha line)

theorem BlockText.padded (h : BlockText body text) {pad : List Char}
    (hpad : ∀ c ∈ pad, c = ' ') : BlockText (padLines pad body) text := by
  rw [blockText_iff] at h ⊢
  obtain ⟨first, rest, hl⟩ := exists_cons_of_ne_nil (lines_splitLines (unescapeTriple body)).ne_nil
  rw [unescapeTriple_padLines hpad, lines_iff.mp ((lines_iff.mpr hl).padded hpad), trim_cut_pad hpad, ← hl, h]

/-- **The value of a block string token** is what its body stands for. If there is a value, its first and last line
have content, and more spaces in front of all lines but the first do not change it. -/
theorem blockValue_exact {source : String} {token : Token} (htoken : token ∈ tokenize source)
    (hkind : token.kind = .blockString) : ∃ body, token.text.toList = tripleQuote ++ (body ++ tripleQuote) ∧
      (∀ text, blockValue token.text = text ↔ BlockText body text.toList) ∧
      (blockValue token.text ≠ "" → ∀ line, ((blockValue token.text).toList.splitOn '\n').head? = some line ∨
        ((blockValue token.text).toList.splitOn '\n').getLast? = some line → isIndentOnly line = false) ∧
      ∀ width, blockValue (String.ofList (tripleQuote ++ (padLines (List.replicate width ' ') body ++ tripleQuote))) =
        blockValue token.text := by
  obtain ⟨front, rest, -, -, hlongest⟩ := (tiles_tokenize source).placed htoken
  rw [hkind] at hlongest
  obtain ⟨tail, htext, htail⟩ := (hlongest nofun nofun).lexical
  obtain ⟨body, rfl⟩ := blockTail_eq htail
  have hvalue : ∀ {raw : String} {body : List Char}, raw.toList = tripleQuote ++ (body ++ tripleQuote) →
      ∀ text, blockValue raw = text ↔ BlockText body text.toList := by
    intro raw body hraw text
    rw [blockText_iff, blockValue, hraw, blockBody_quoted, ← String.toList_inj, String.toList_ofList]
  have hown := (hvalue htext _).mp rfl
  refine ⟨body, htext, hvalue htext, fun hne line => hown.content fun hnil => hne ?_, fun width => ?_⟩
  · rw [← String.toList_inj, hnil]
    rfl
  · exact (hvalue String.toList_ofList _).mpr (hown.padded fun c hc => eq_of_mem_replicate hc)

/-- Three kinds of line ends, an escaped triple quote and a blank line that is shorter than the indentation. -/
theorem blockValue_exact_mixed :
    let token : Token := ⟨.blockString, ⟨0, 26⟩, "\"\"\"\r\n   a\r \n\t\t  \\\"\"\"\r\n \"\"\""⟩
    token ∈ tokenize token.text ∧ blockValue token.text = "a\n\n \"\"\"" ∧
      ∃ body, token.text.toList = tripleQuote ++ (body ++ tripleQuote) ∧
        ∀ text, blockValue token.text = text ↔ BlockText body text.toList := by
  intro token
  have htoken : token ∈ tokenize token.text := by decide +kernel
  obtain ⟨body, htext, hvalue, -, -⟩ := blockValue_exact htoken rfl
  exact ⟨htoken, by decide +kernel, body, htext, hvalue⟩

end GraphClient.Text
