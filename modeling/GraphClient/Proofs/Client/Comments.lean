import GraphClient.Analysis
import GraphClient.Client.KotlinModule
import GraphClient.Proofs.Client.StarredComments

/-!
# Comments in generated code

A comment of lines with slashes is left at a newline inside a reason, as a comment between stars is left at its
end mark. All other descriptions and reasons stay inside their comments.
-/

namespace GraphClient

open List Layout
open Layout (indentation IsBlankUnit textAt)

/-- A line starts with three slashes behind its indentation. -/
def IsSlashed (line : List Char) : Prop := ['/', '/', '/'] <+: line.dropWhile (· == ' ')

/-- Every line of a text starts with three slashes; behind the last newline, there is no line. -/
def AllSlashed (text : List Char) : Prop := ∀ line ∈ (Text.splitOn '\n' text).dropLast, IsSlashed line

/-- What is read as code beside comments that start with two slashes. -/
def codeBeside : (inComment : Bool) → List Char → List Char
  | _, [] => []
  | true, c :: rest => if c = '\n' then c :: codeBeside false rest else codeBeside true rest
  | false, '/' :: '/' :: rest => codeBeside true rest
  | false, c :: rest => c :: codeBeside false rest

namespace Text

theorem splitOn_append_newline (xs ys : List Char) :
    splitOn '\n' (xs ++ '\n' :: ys) = splitOn '\n' xs ++ splitOn '\n' ys := by
  rw [splitOn_eq, splitOn_eq, splitOn_eq, splitOn_append_cons_self]

theorem newline_notMem_textLines {text line : String} (h : line ∈ textLines text) : '\n' ∉ line.toList := by
  have he : ∀ {lines : List (List Char)}, (∀ line ∈ lines, '\n' ∉ line) → ∀ line ∈ endLines lines, '\n' ∉ line := by
    intro lines hi
    fun_induction endLines lines with
    | case1 | case2 => simp
    | case3 last hla => exact hi
    | case4 line rest _ ih =>
      obtain ⟨hl, hr⟩ := forall_mem_cons.mp hi
      refine forall_mem_cons.mpr ⟨fun hm => hl ?_, ih hr⟩
      rw [dropReturn] at hm
      split_ifs at hm
      · exact dropLast_subset _ hm
      · exact hm
  obtain ⟨piece, hp, rfl⟩ := mem_map.mp h
  rw [String.toList_ofList]
  exact he (fun line hl hm => (mem_of_mem_splitOn hl hm).2 rfl) piece hp

theorem splitOn_ne_nil (sep : Char) (cs : List Char) : splitOn sep cs ≠ [] := by
  rw [splitOn_eq]
  exact List.splitOn_ne_nil _ _

theorem splitOn_append_of_notMem {first : List Char} (h : '\n' ∉ first) (rest : List Char) :
    ∃ line lines, splitOn '\n' rest = line :: lines ∧ splitOn '\n' (first ++ rest) = (first ++ line) :: lines := by
  induction first with
  | nil =>
    obtain ⟨line, lines, hl⟩ := exists_cons_of_ne_nil (splitOn_ne_nil '\n' rest)
    exact ⟨line, lines, hl, hl⟩
  | cons c first ih =>
    rw [mem_cons, not_or] at h
    obtain ⟨line, lines, hl, hf⟩ := ih h.2
    refine ⟨line, lines, hl, ?_⟩
    rw [cons_append, splitOn, if_neg (Ne.symm h.1), hf]
    rfl

end Text

section Slashed

variable {unit : String} {depth : Nat} {blanks text : List Char}

theorem isSlashed_behind (h : ∀ c ∈ blanks, c = ' ') (rest : List Char) :
    IsSlashed (blanks ++ '/' :: '/' :: '/' :: rest) := by
  rw [IsSlashed, dropWhile_append_of_pos (by simpa using h)]
  exact ⟨rest, by simp⟩

theorem codeBeside_line {line : List Char} (h : IsSlashed line) (hl : '\n' ∉ line) (rest : List Char) :
    codeBeside false (line ++ '\n' :: rest) = line.takeWhile (· == ' ') ++ '\n' :: codeBeside false rest := by
  have hi : ∀ {cs : List Char}, '\n' ∉ cs →
      codeBeside true (cs ++ '\n' :: rest) = '\n' :: codeBeside false rest := by
    intro cs hcs
    induction cs with
    | nil => simp [codeBeside]
    | cons c cs ih =>
      rw [mem_cons, not_or] at hcs
      rw [cons_append, codeBeside, if_neg (Ne.symm hcs.1), ih hcs.2]
  induction line with
  | nil => simp [IsSlashed] at h
  | cons c line ih =>
    rw [mem_cons, not_or] at hl
    by_cases hc : c = ' '
    · subst hc
      have hs : IsSlashed line := by simpa [IsSlashed] using h
      simp [codeBeside, ih hs hl.2]
    · have ha : ['/', '/', '/'] <+: c :: line := by simpa [IsSlashed, hc] using h
      obtain ⟨more, hm⟩ := ha
      obtain ⟨rfl, rfl⟩ : '/' = c ∧ '/' :: '/' :: more = line := by simpa using hm
      have hm : '\n' ∉ '/' :: more := fun he => hl.2 (mem_cons_of_mem _ he)
      simpa [codeBeside] using hi hm

theorem isLayout_codeBeside (he : text = [] ∨ text.getLast? = some '\n') (h : AllSlashed text) :
    IsLayout (codeBeside false text) := by
  induction hle : text.length using Nat.strong_induction_on generalizing text with
  | _ length ih =>
    by_cases hn : '\n' ∈ text
    · obtain ⟨line, rest, rfl, hl⟩ := eq_append_cons_of_mem hn
      rw [AllSlashed, Text.splitOn_line hl, dropLast_cons_of_ne_nil (Text.splitOn_ne_nil _ _), forall_mem_cons] at h
      have hr : rest = [] ∨ rest.getLast? = some '\n' := by
        cases rest with
        | nil => exact .inl rfl
        | cons c rest => exact .inr (by simpa using he)
      have ha := ih rest.length (by rw [← hle]; simp; omega) hr h.2 rfl
      rw [codeBeside_line h.1 hl]
      intro c hc
      rcases mem_append.mp hc with hc | hc
      · exact .inl (by simpa using mem_takeWhile_imp hc)
      · exact (mem_cons.mp hc).elim .inr (ha c)
    · rcases he with rfl | he
      · simp [codeBeside, IsLayout]
      · exact absurd (mem_of_getLast? he) hn

theorem allSlashed_lines (texts : List String) :
    AllSlashed (texts.flatMap fun text => indentation unit depth ++ (text.toList ++ ['\n'])) ↔
      ∀ text ∈ texts, ∀ line ∈ Text.splitOn '\n' (indentation unit depth ++ text.toList), IsSlashed line := by
  induction texts with
  | nil => simp [AllSlashed, Text.splitOn]
  | cons text rest ih =>
    rw [flatMap_cons, forall_mem_cons, ← ih, AllSlashed, ← append_assoc, append_assoc _ ['\n'],
      singleton_append, Text.splitOn_append_newline,
      dropLast_append_of_ne_nil (Text.splitOn_ne_nil _ _), forall_mem_append]
    rfl

/-- Behind three slashes, the lines of a text but the first have to bring their own. -/
theorem isSlashed_lines_iff (hu : IsBlankUnit unit) {mark : List Char} (hm : '\n' ∉ mark) (rest : List Char) :
    (∀ line ∈ Text.splitOn '\n' (indentation unit depth ++ ('/' :: '/' :: '/' :: mark ++ rest)), IsSlashed line) ↔
      ∀ line ∈ (Text.splitOn '\n' rest).tail, IsSlashed line := by
  have hb : ∀ c ∈ indentation unit depth, c = ' ' := fun c => eq_of_mem_indentation hu
  have hf : '\n' ∉ indentation unit depth ++ ('/' :: '/' :: '/' :: mark) := by
    simp [hm]
    exact fun hme => by cases hb _ hme
  obtain ⟨line, lines, hl, he⟩ := Text.splitOn_append_of_notMem hf rest
  rw [← append_assoc, he, hl, forall_mem_cons, tail_cons, and_iff_right]
  rw [append_assoc]
  exact isSlashed_behind hb _

end Slashed

namespace Doc

variable {unit : String} (depth : Nat) (ending : Ending)

def slashedTexts (doc : Doc) : List String :=
  doc.description.elim [] (commentTexts "///") ++ doc.deprecated.elim [] fun reason =>
      (if doc.description.isSome then ["///"] else []) ++ ["/// Deprecated: " ++ reason]

theorem slashed_eq (doc : Doc) : doc.slashed = doc.slashedTexts.map .line := by
  obtain ⟨desc, deprecated⟩ := doc
  cases desc <;> cases deprecated <;> simp [slashed, slashedTexts, commentLines_eq]

theorem slashedTexts_ne {doc : Doc} {text : String} (h : text ∈ doc.slashedTexts) : text ≠ "" := by
  have hb : "///" ≠ "" := by decide
  rcases mem_append.mp h with h | h
  · cases hd : doc.description with
    | none => simp [hd] at h
    | some desc =>
      rw [hd] at h
      exact commentTexts_ne hb h
  · cases hr : doc.deprecated with
    | none => simp [hr] at h
    | some reason =>
      rw [hr, Option.elim_some, mem_append, mem_singleton] at h
      rcases h with h | rfl
      · split_ifs at h
        · exact mem_singleton.mp h ▸ hb
        · exact absurd h not_mem_nil
      · simp

theorem isSlashed_commentTexts (hu : IsBlankUnit unit) {text line : String} (h : line ∈ commentTexts "///" text) :
    ∀ part ∈ Text.splitOn '\n' (indentation unit depth ++ line.toList), IsSlashed part := by
  obtain ⟨content, hc, rfl⟩ := mem_map.mp h
  have hm : '\n' ∉ [' '] := by decide
  split_ifs with hb
  · exact (isSlashed_lines_iff hu not_mem_nil []).mpr (by simp [Text.splitOn])
  · have ht : (Text.splitOn '\n' content.toList).tail = [] := by
      rw [Text.splitOn_eq, splitOn_eq_singleton (Text.newline_notMem_textLines hc), tail_cons]
    rw [String.toList_append]
    exact (isSlashed_lines_iff hu hm content.toList).mpr (by simp [ht])

/-- Only a reason of several lines leaves a comment with three slashes. -/
theorem allSlashed_iff (hu : IsBlankUnit unit) (doc : Doc) : AllSlashed (textAt unit depth ending doc.slashed) ↔
      ∀ reason, doc.deprecated = some reason → ∀ line ∈ (Text.splitOn '\n' reason.toList).tail, IsSlashed line := by
  have hd : ∀ line ∈ doc.description.elim [] (commentTexts "///"),
      ∀ part ∈ Text.splitOn '\n' (indentation unit depth ++ line.toList), IsSlashed part := by
    cases doc.description with
    | none => simp
    | some text => exact fun line => isSlashed_commentTexts depth hu
  have hg : ∀ line ∈ if doc.description.isSome then ["///"] else [],
      ∀ part ∈ Text.splitOn '\n' (indentation unit depth ++ line.toList), IsSlashed part := by
    intro line hl
    obtain rfl : line = "///" := by
      split_ifs at hl
      · exact mem_singleton.mp hl
      · exact absurd hl not_mem_nil
    exact (isSlashed_lines_iff hu not_mem_nil []).mpr (by simp [Text.splitOn])
  rw [slashed_eq, textAt_lines unit depth ending fun _ => slashedTexts_ne, allSlashed_lines, slashedTexts,
    forall_mem_append, and_iff_right hd]
  cases doc.deprecated with
  | none => simp
  | some reason =>
    have hm : '\n' ∉ " Deprecated: ".toList := by decide +kernel
    have ht : ("/// Deprecated: " ++ reason).toList = '/' :: '/' :: '/' :: " Deprecated: ".toList ++ reason.toList :=
      String.toList_append
    rw [Option.elim_some, forall_mem_append, and_iff_right hg, forall_mem_singleton, ht, isSlashed_lines_iff hu hm]
    simp

end Doc

/-- A comment between stars has its end mark at its end only, and nothing in it is read as code. -/
def SealedByStars (nests : Bool) (text : List Char) : Prop :=
  (text = [] ∨ ClosesAtEnd text) ∧ IsLayout (codeAround nests 0 text)

/-- Every line of a comment starts with slashes, and nothing in it is read as code. -/
def SealedBySlashes (text : List Char) : Prop := AllSlashed text ∧ IsLayout (codeBeside false text)

namespace Doc

variable {unit : String} (depth : Nat) (ending : Ending)

theorem sealed_starred_iff (hu : IsBlankUnit unit) (doc : Doc) (nests : Bool) :
    SealedByStars nests (textAt unit depth ending doc.starred) ↔ ¬ doc.HasStop := by
  rw [SealedByStars, closes_starred depth ending hu, and_iff_left_iff_imp]
  exact fun hs => isLayout_starred depth ending hu hs nests

theorem sealed_slashed_iff (hu : IsBlankUnit unit) (doc : Doc) :
    SealedBySlashes (textAt unit depth ending doc.slashed) ↔ ∀ reason, doc.deprecated = some reason →
        ∀ line ∈ (Text.splitOn '\n' reason.toList).tail, IsSlashed line := by
  have he : textAt unit depth ending doc.slashed = [] ∨
      (textAt unit depth ending doc.slashed).getLast? = some '\n' := by
    rw [slashed_eq, textAt_lines unit depth ending fun _ => slashedTexts_ne]
    rcases eq_nil_or_concat doc.slashedTexts with hn | ⟨texts, last, hl⟩
    · simp [hn]
    · exact .inr (by simp [hl])
  rw [← allSlashed_iff depth ending hu, SealedBySlashes, and_iff_left_iff_imp]
  exact isLayout_codeBeside he

end Doc

/-- **What stays inside its comment**, wherever the comment stands: texts without an end mark, and behind slashes
every description and the reasons whose later lines bring their own slashes. -/
theorem comments_sealed_iff (doc : Doc) (depth : Nat) (ending : Layout.Ending) :
    (SealedByStars false (textAt "  " depth ending doc.starred) ↔
      ¬ ((∃ text, doc.description = some text ∧ Stops text.toList) ∨
        ∃ reason, doc.deprecated = some reason ∧ Stops reason.toList)) ∧
    (SealedByStars true (textAt "    " depth ending (Kotlin.Item.comment doc)) ↔
      ¬ ∃ text, doc.description = some text ∧ Stops text.toList) ∧
    (SealedBySlashes (textAt "    " depth ending doc.slashed) ↔ ¬ ∃ reason, doc.deprecated = some reason ∧
        ∃ line ∈ (Text.splitOn '\n' reason.toList).tail, ¬ IsSlashed line) := by
  have hnarrow : IsBlankUnit "  " := by simp [IsBlankUnit]
  have hwide : IsBlankUnit "    " := by simp [IsBlankUnit]
  refine ⟨?_, ?_, ?_⟩
  · exact Doc.sealed_starred_iff depth ending hnarrow doc false
  · refine (Doc.sealed_starred_iff depth ending hwide _ true).trans (not_congr ?_)
    simp [Doc.HasStop]
  · refine (Doc.sealed_slashed_iff depth ending hwide doc).trans ?_
    push Not
    rfl

/-- A description with an end mark, and a reason of two lines. -/
def unsealedSources : List Source :=
  Source.number [("schema", "\"a */ b\"type Query\x7bx:Int@deprecated(reason:\"c\\nd\")\x7d")]

/-- **Text can leave its comment** and is read as code. -/
theorem comment_read_as_code : (analyze unsealedSources).isOk ∧
    ∃ type, (analyze unsealedSources).registry.type? "Query" = some type ∧
      codeAround false 0 (textAt "  " 0 .line (Doc.starred { description := type.description })) =
        [' ', 'b', ' ', '*', '/', '\n'] ∧
      ∃ field ∈ type.fields,
        codeBeside false (textAt "    " 1 .line (Doc.ofElement field.description field.directives).slashed) =
          [' ', ' ', ' ', ' ', '\n', 'd', '\n'] := by
  decide +kernel

end GraphClient
