import GraphClient.Client.Doc
import GraphClient.Proofs.Spelling.Blocks

/-!
# Comments between stars

Descriptions and reasons of deprecations are written into comments as they are. A comment between stars ends
early if one of them holds its end mark.

* **`Doc.closes_starred`**: the comments that end where they should.
-/

namespace GraphClient

open List Layout Text

/-! ## End marks -/

/-- The end mark of a comment between stars occurs. -/
def Stops (cs : List Char) : Prop := ['*', '/'] <:+: cs

instance : DecidablePred Stops := fun _ => inferInstanceAs (Decidable (_ <:+: _))

section Stops

variable {xs ys cs : List Char}

@[simp] theorem not_stops_nil : ¬ Stops [] := by simp [Stops]

theorem stops_append (h : xs.getLast? ≠ some '*' ∨ ys.head? ≠ some '/') : Stops (xs ++ ys) ↔ Stops xs ∨ Stops ys := by
  rw [Stops, Stops, Stops, infix_append_iff, ← or_assoc, or_iff_left_iff_imp]
  rintro ⟨first, second, hm, hf, hs⟩
  rcases append_eq_cons_iff.mp hm.symm with ⟨rfl, rfl⟩ | ⟨more, rfl, ho⟩
  · exact .inr hs.isInfix
  rcases append_eq_cons_iff.mp ho.symm with ⟨rfl, rfl⟩ | ⟨last, rfl, hl⟩
  · obtain ⟨before, rfl⟩ := hf
    obtain ⟨after, rfl⟩ := hs
    simp at h
  · obtain ⟨rfl, -⟩ := append_eq_nil_iff.mp hl.symm
    exact .inl hf.isInfix

theorem not_stops_of_notMem (h : '*' ∉ cs) : ¬ Stops cs := fun hs =>
  h (hs.subset mem_cons_self)

/-- **The end mark stands in a line.** -/
theorem stops_splitOn (cs : List Char) : Stops cs ↔ ∃ line ∈ Text.splitOn '\n' cs, Stops line := by
  induction he : cs.length using Nat.strong_induction_on generalizing cs with
  | _ length ih =>
    by_cases hn : '\n' ∈ cs
    · obtain ⟨line, rest, rfl, hl⟩ := eq_append_cons_of_mem hn
      have hr := ih rest.length (by rw [← he]; simp; omega) rest rfl
      have hj : Stops ('\n' :: rest) ↔ Stops rest := by
        rw [← singleton_append, stops_append (.inl (by simp)), or_iff_right (not_stops_of_notMem (by simp))]
      rw [splitOn_line hl, stops_append (.inr (by simp)), hj, hr]
      simp
    · rw [splitOn_eq, splitOn_eq_singleton hn]
      simp

theorem stops_dropReturn (line : List Char) : Stops (dropReturn line) ↔ Stops line := by
  rw [dropReturn]
  split_ifs with hl
  · obtain ⟨start, rfl⟩ := getLast?_eq_some_iff.mp hl
    rw [dropLast_concat, stops_append (.inr (by simp)), or_iff_left (not_stops_of_notMem (by simp))]
  · rfl

theorem stops_endLines (lines : List (List Char)) :
    (∃ line ∈ endLines lines, Stops line) ↔ ∃ line ∈ lines, Stops line := by
  fun_induction endLines lines with
  | case1 | case2 | case3 last hl => simp
  | case4 line rest _ ih => simp [stops_dropReturn, ih]

theorem stops_textLines (text : String) : (∃ line ∈ textLines text, Stops line.toList) ↔ Stops text.toList := by
  rw [stops_splitOn, ← stops_endLines]
  simp [textLines]

end Stops

/-- The end mark stands at the end of the last line and nowhere else. -/
def ClosesAtEnd (text : List Char) : Prop :=
  ∃ body, text = body ++ ['*', '/', '\n'] ∧ ¬ Stops (body ++ ['*'])

theorem closesAtEnd_iff {before : List Char} : ClosesAtEnd (before ++ [' ', '*', '/', '\n']) ↔ ¬ Stops before := by
  have hb : ¬ Stops (before ++ [' '] ++ ['*']) ↔ ¬ Stops before := by
    rw [append_assoc, stops_append (.inr (by simp)), or_iff_left (by decide)]
  rw [← hb]
  constructor
  · rintro ⟨body, he, hs⟩
    have hc : before ++ [' '] = body := append_cancel_right ((append_assoc before [' '] _).trans he)
    rwa [hc]
  · exact fun hs => ⟨before ++ [' '], by simp, hs⟩

/-! ## The text of comments -/

namespace Layout

/-- The blanks in front of a line. -/
def indentation (unit : String) (depth : Nat) : List Char := (String.join (List.replicate depth unit)).toList

/-- Whether lines are indented with blanks. -/
def IsBlankUnit (unit : String) : Prop := ∀ c ∈ unit.toList, c = ' '

variable {unit : String} {depth : Nat}

theorem eq_of_mem_indentation (hu : IsBlankUnit unit) {c : Char} (h : c ∈ indentation unit depth) : c = ' ' := by
  rw [indentation, String.toList_join, mem_flatMap] at h
  obtain ⟨part, hp, hc⟩ := h
  exact hu c (eq_of_mem_replicate hp ▸ hc)

theorem star_notMem_indentation (hu : IsBlankUnit unit) : '*' ∉ indentation unit depth := fun hm => by
  cases eq_of_mem_indentation hu hm

theorem getLast?_indentation_ne (hu : IsBlankUnit unit) : (indentation unit depth).getLast? ≠ some '*' :=
  fun hl => star_notMem_indentation hu (mem_of_getLast? hl)

theorem rowText_eq {text : String} (h : text ≠ "") :
    (rowText unit depth text).toList = indentation unit depth ++ (text.toList ++ ['\n']) := by
  rw [rowText, if_neg h, String.toList_append, String.toList_append, append_assoc]
  rfl

/-- The text of a piece of code at the given depth, behind a text that ends in the given way. -/
def textAt (unit : String) (depth : Nat) (ending : Ending) (code : List Layout) : List Char :=
  (renderRows unit ending (rowsOf depth code)).toList

theorem textAt_nil (ending : Ending) : textAt unit depth ending [] = [] := by
  cases ending <;> rfl

/-- **The text of lines without gaps**, behind any text. -/
theorem textAt_lines (unit : String) (depth : Nat) (ending : Ending) {texts : List String} (h : ∀ text ∈ texts,
  text ≠ "") : textAt unit depth ending (texts.map .line) =
      texts.flatMap fun text => indentation unit depth ++ (text.toList ++ ['\n']) := by
  induction texts generalizing ending with
  | nil => exact textAt_nil ending
  | cons text rest ih =>
    obtain ⟨ht, hr⟩ := forall_mem_cons.mp h
    rw [map_cons, textAt, rowsOf, rows, singleton_append, renderRows, String.toList_append, rowText_eq ht]
    exact congrArg (_ ++ ·) (ih _ hr)

theorem stops_lines (hu : IsBlankUnit unit) (texts : List String) :
    Stops (texts.flatMap fun text => indentation unit depth ++ (text.toList ++ ['\n'])) ↔
      ∃ text ∈ texts, Stops text.toList := by
  induction texts with
  | nil => simp
  | cons text rest ih =>
    have hl : Stops (indentation unit depth ++ (text.toList ++ ['\n'])) ↔ Stops text.toList := by
      rw [stops_append (.inl (getLast?_indentation_ne hu)), stops_append (.inr (by simp)),
        or_iff_right (not_stops_of_notMem (star_notMem_indentation hu)), or_iff_left (by decide)]
    rw [flatMap_cons, stops_append (.inl (by simp)), exists_mem_cons_iff]
    exact or_congr hl ih

end Layout

open Layout (indentation IsBlankUnit textAt)

namespace Doc

def commentTexts (bare text : String) : List String :=
  (textLines text).map fun line => if isBlankLine line then bare else bare ++ " " ++ line

theorem commentLines_eq (bare text : String) : commentLines bare text = (commentTexts bare text).map .line := by
  rw [commentTexts, map_map]
  rfl

theorem stops_commentTexts (text : String) :
    (∃ line ∈ commentTexts " *" text, Stops line.toList) ↔ Stops text.toList := by
  have hl : ∀ line : String, Stops (if isBlankLine line then " *" else " *" ++ " " ++ line).toList ↔
      Stops line.toList := by
    intro line
    split_ifs with hb
    · refine iff_of_false (by decide) (not_stops_of_notMem fun hm => ?_)
      exact absurd (all_eq_true.mp hb _ hm) (by decide)
    · rw [String.toList_append, stops_append (.inl (by decide)), or_iff_right (by decide)]
  rw [← stops_textLines]
  simp only [commentTexts, mem_map, exists_exists_and_eq_and, hl]

/-- What is said about a declaration holds end marks. -/
def HasStop (doc : Doc) : Prop :=
  (∃ text, doc.description = some text ∧ Stops text.toList) ∨
    ∃ reason, doc.deprecated = some reason ∧ Stops reason.toList

theorem commentTexts_ne {bare text line : String} (hb : bare ≠ "") (h : line ∈ commentTexts bare text) : line ≠ "" := by
  obtain ⟨part, -, rfl⟩ := mem_map.mp h
  split_ifs
  · exact hb
  · exact fun he => hb (String.append_eq_empty_iff.mp (String.append_eq_empty_iff.mp he).1).1

variable {unit : String} (depth : Nat) (ending : Ending)

theorem closes_lines (hu : IsBlankUnit unit) {texts : List String} (hn : ∀ text ∈ texts, text ≠ "") :
    ClosesAtEnd (textAt unit depth ending ((texts ++ [" */"]).map .line)) ↔ ¬ ∃ text ∈ texts, Stops text.toList := by
  have hl : (indentation unit depth).head? ≠ some '/' := fun h => by
    cases eq_of_mem_indentation hu (mem_of_mem_head? h)
  rw [textAt_lines unit depth ending (forall_mem_append.mpr ⟨hn, by simp⟩), flatMap_append,
    flatMap_singleton, ← append_assoc]
  refine closesAtEnd_iff.trans (not_congr ?_)
  rw [stops_append (.inr hl), stops_lines hu, or_iff_left (not_stops_of_notMem (star_notMem_indentation hu))]

theorem closes_line (hu : IsBlankUnit unit) (text : String) :
    ClosesAtEnd (textAt unit depth ending [.line ("/** " ++ text ++ " */")]) ↔ ¬ Stops text.toList := by
  have ht : textAt unit depth ending [.line ("/** " ++ text ++ " */")] =
      indentation unit depth ++ ("/** ".toList ++ text.toList) ++ [' ', '*', '/', '\n'] := by
    have hn : ∀ line ∈ ["/** " ++ text ++ " */"], line ≠ "" := by simp
    simpa using textAt_lines unit depth ending hn
  rw [ht]
  refine closesAtEnd_iff.trans (not_congr ?_)
  rw [stops_append (.inl (getLast?_indentation_ne hu)), stops_append (.inl (by decide)),
    or_iff_right (not_stops_of_notMem (star_notMem_indentation hu)), or_iff_right (by decide)]

/-- The lines between the ends of a comment of several lines. -/
def innerTexts (doc : Doc) : List String :=
  doc.description.elim [] (commentTexts " *") ++ (doc.deprecated.map (" * @deprecated " ++ ·)).toList

theorem innerTexts_ne {doc : Doc} {text : String} (h : text ∈ "/**" :: doc.innerTexts) : text ≠ "" := by
  rcases mem_cons.mp h with rfl | h
  · decide
  rcases mem_append.mp h with h | h
  · cases hd : doc.description with
    | none => simp [hd] at h
    | some desc =>
      have hb : " *" ≠ "" := by decide
      rw [hd] at h
      exact commentTexts_ne hb h
  · simp only [Option.mem_toList, Option.map_eq_some_iff] at h
    obtain ⟨reason, -, rfl⟩ := h
    simp

theorem stops_innerTexts (doc : Doc) : (∃ text ∈ "/**" :: doc.innerTexts, Stops text.toList) ↔ doc.HasStop := by
  have hd : (∃ text ∈ doc.description.elim [] (commentTexts " *"), Stops text.toList) ↔
      ∃ text, doc.description = some text ∧ Stops text.toList := by
    cases doc.description with
    | none => simp
    | some text => simpa using stops_commentTexts text
  have hr : (∃ text ∈ (doc.deprecated.map (" * @deprecated " ++ ·)).toList, Stops text.toList) ↔
      ∃ reason, doc.deprecated = some reason ∧ Stops reason.toList := by
    cases doc.deprecated with
    | none => simp
    | some reason =>
      have hj : Stops (" * @deprecated " ++ reason).toList ↔ Stops reason.toList := by
        rw [String.toList_append, stops_append (.inl (by decide +kernel)), or_iff_right (by decide +kernel)]
      simpa using hj
  rw [exists_mem_cons_iff, or_iff_right (by decide), innerTexts, HasStop, ← hd, ← hr]
  simp [or_and_right, exists_or]

/-- A comment between stars is empty, one line or a line for each line of what is said. -/
theorem starred_cases (doc : Doc) : (doc.starred = [] ∧ doc = {}) ∨
    (∃ text, doc.starred = [.line ("/** " ++ text ++ " */")] ∧ doc = { description := some text }) ∨
    doc.starred = (("/**" :: doc.innerTexts) ++ [" */"]).map .line := by
  obtain ⟨desc, deprecated⟩ := doc
  cases deprecated with
  | none =>
    cases desc with
    | none => exact .inl ⟨rfl, rfl⟩
    | some text =>
      by_cases hn : '\n' ∈ text.toList
      · exact .inr (.inr (by simp [starred, innerTexts, hn, commentLines_eq]))
      · exact .inr (.inl ⟨text, by simp [starred, hn], rfl⟩)
  | some reason =>
    refine .inr (.inr ?_)
    cases desc <;> simp [starred, innerTexts, commentLines_eq]

theorem opens_starred (unit : String) (depth : Nat) (ending : Ending) (doc : Doc) :
    textAt unit depth ending doc.starred = [] ∧ doc = {} ∨
      ∃ rest, textAt unit depth ending doc.starred = indentation unit depth ++ '/' :: '*' :: '*' :: rest := by
  rcases doc.starred_cases with ⟨hc, hd⟩ | ⟨text, hc, -⟩ | hc
  · exact .inl ⟨hc ▸ textAt_nil ending, hd⟩
  · have hn : ∀ line ∈ ["/** " ++ text ++ " */"], line ≠ "" := by simp
    refine .inr ⟨' ' :: (text.toList ++ " */".toList ++ ['\n']), ?_⟩
    rw [hc]
    simpa using textAt_lines unit depth ending hn
  · have hn : ∀ line ∈ ("/**" :: doc.innerTexts) ++ [" */"], line ≠ "" :=
      forall_mem_append.mpr ⟨fun _ => innerTexts_ne, by simp⟩
    rw [hc, textAt_lines unit depth ending hn, cons_append, flatMap_cons, append_assoc]
    exact .inr ⟨_, rfl⟩

theorem closes_starred (hu : IsBlankUnit unit) (doc : Doc) :
    (textAt unit depth ending doc.starred = [] ∨ ClosesAtEnd (textAt unit depth ending doc.starred)) ↔
      ¬ doc.HasStop := by
  rcases opens_starred unit depth ending doc with ⟨he, rfl⟩ | ⟨rest, ho⟩
  · exact iff_of_true (.inl he) (by simp [HasStop])
  rw [or_iff_right (by simp [ho])]
  rcases doc.starred_cases with ⟨hc, rfl⟩ | ⟨text, hc, rfl⟩ | hc
  · rw [hc, textAt_nil] at ho
    simp at ho
  · rw [hc, closes_line depth ending hu]
    simp [HasStop]
  · rw [hc, closes_lines depth ending hu fun _ => innerTexts_ne, stops_innerTexts]

end Doc

/-! ## What is read as code -/

/-- What is read as code around comments between stars. The number counts the comments that are open; comments
nest in some languages only. -/
def codeAround : (nests : Bool) → (depth : Nat) → List Char → List Char
  | _, _, [] => []
  | nests, 0, '/' :: '*' :: rest => codeAround nests 1 rest
  | nests, 0, c :: rest => c :: codeAround nests 0 rest
  | nests, depth + 1, '*' :: '/' :: rest => codeAround nests depth rest
  | true, depth + 1, '/' :: '*' :: rest => codeAround true (depth + 2) rest
  | nests, depth + 1, _ :: rest => codeAround nests (depth + 1) rest

/-- Behind its open mark, a comment that closes at its end hides all but a newline. -/
theorem codeAround_closing (nests : Bool) (depth : Nat) {body : List Char} (h : ¬ Stops (body ++ ['*'])) :
    ∀ c ∈ codeAround nests (depth + 1) (body ++ ['*', '/', '\n']), c = '\n' := by
  generalize ht : body ++ ['*', '/', '\n'] = text
  generalize ho : depth + 1 = opened
  fun_induction codeAround nests opened text generalizing body depth with
  | case1 => simp
  | case2 | case3 => cases ho
  | case4 nests opened rest ih =>
    rcases body with - | ⟨first, - | ⟨second, body⟩⟩
    · obtain rfl : ['\n'] = rest := by simpa using ht
      cases opened <;> simp [codeAround]
    · simp at ht
    · obtain ⟨rfl, rfl, -⟩ : first = '*' ∧ second = '/' ∧ _ := by simpa using ht
      exact absurd ⟨[], body ++ ['*'], rfl⟩ h
  | case5 opened rest ih =>
    rcases body with - | ⟨first, - | ⟨second, body⟩⟩
    · simp at ht
    · obtain ⟨-, rfl⟩ : first = '/' ∧ ['/', '\n'] = rest := by simpa using ht
      simp [codeAround]
    · obtain ⟨rfl, rfl, hr⟩ : first = '/' ∧ second = '*' ∧ body ++ ['*', '/', '\n'] = rest := by
        simpa using ht
      exact ih (opened + 1) (fun hs => h (hs.trans ⟨['/', '*'], [], by simp⟩)) hr rfl
  | case6 nests opened c rest hc _ ih =>
    rcases body with - | ⟨first, body⟩
    · obtain ⟨rfl, rfl⟩ : '*' = c ∧ ['/', '\n'] = rest := by simpa using ht
      exact absurd rfl (hc _ rfl)
    · obtain ⟨rfl, hr⟩ : first = c ∧ body ++ ['*', '/', '\n'] = rest := by simpa using ht
      exact ih opened (fun hs => h (hs.trans ⟨[first], [], by simp⟩)) hr rfl

theorem codeAround_blanks (nests : Bool) (rest : List Char) {blanks : List Char} (h : ∀ c ∈ blanks, c = ' ') :
    codeAround nests 0 (blanks ++ '/' :: '*' :: rest) = blanks ++ codeAround nests 1 rest := by
  induction blanks with
  | nil => simp [codeAround]
  | cons c blanks ih =>
    obtain ⟨rfl, hb⟩ := forall_mem_cons.mp h
    simp [codeAround, ih hb]

/-- Only layout is left of a text. -/
def IsLayout (code : List Char) : Prop := ∀ c ∈ code, c = ' ' ∨ c = '\n'

theorem Doc.isLayout_starred {unit : String} (depth : Nat) (ending : Ending) (hu : IsBlankUnit unit)
    {doc : Doc} (h : ¬ doc.HasStop) (nests : Bool) :
    IsLayout (codeAround nests 0 (textAt unit depth ending doc.starred)) := by
  rcases doc.opens_starred unit depth ending with ⟨he, -⟩ | ⟨rest, ho⟩
  · simp [he, codeAround, IsLayout]
  rcases (doc.closes_starred depth ending hu).mpr h with he | ⟨body, hl, hs⟩
  · simp [he, codeAround, IsLayout]
  have hb : ∀ c ∈ indentation unit depth, c = ' ' := fun c => eq_of_mem_indentation hu
  obtain ⟨inner, rfl, hr⟩ : ∃ inner, body = indentation unit depth ++ '/' :: '*' :: inner ∧
      inner ++ ['*', '/', '\n'] = '*' :: rest := by
    rcases append_eq_append_iff.mp (hl.symm.trans ho) with ⟨more, hmo, hm⟩ | ⟨more, rfl, hm⟩
    · rcases more with - | ⟨first, more⟩
      · simp at hm
      · obtain ⟨rfl, -⟩ := cons.inj hm
        cases hb '*' (by simp [hmo])
    · rcases more with - | ⟨first, - | ⟨second, inner⟩⟩
      · simp at hm
      · simp at hm
      · simp only [cons_append, cons.injEq] at hm
        obtain ⟨rfl, rfl, hr⟩ := hm
        exact ⟨inner, rfl, hr.symm⟩
  rw [ho, codeAround_blanks nests _ hb, ← hr]
  intro c hc
  rcases mem_append.mp hc with hc | hc
  · exact .inl (hb c hc)
  · refine .inr (codeAround_closing nests 0 (fun ht => hs (ht.trans ?_)) c hc)
    exact ⟨indentation unit depth ++ ['/', '*'], [], by simp⟩

end GraphClient
