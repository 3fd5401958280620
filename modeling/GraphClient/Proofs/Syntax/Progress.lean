import GraphClient.Proofs.Syntax.Clean

/-!
# Reading ends

Rounds of loops and levels of nesting are bounded by the number of tokens ahead. The bound never shows: a routine goes
on with itself only behind a token that it has taken.
-/

namespace GraphClient.Syntax

open List Nat

set_option synthInstance.maxSize 1000

namespace Parser

variable {α β : Type}

/-- **Parsers that do the same** at each of the tokens. -/
def Agree (tokens : List Token) (p q : Parser α) : Prop :=
  ∀ cursor : Cursor, cursor.Wf → cursor.tokens <:+ tokens → p cursor = q cursor

namespace Agree

variable {toks : List Token} {p q : Parser α} {f g : α → Parser β} {cur : Cursor}

theorem ahead_suffix (hs : cur.tokens <:+ toks) : cur.ahead <:+ toks.tail := by
  obtain ⟨front, rfl⟩ := hs
  cases front with
  | nil => exact suffix_refl _
  | cons t front => exact ⟨front ++ [cur.current], append_assoc _ _ _⟩

theorem refl : Agree toks p p := fun _ _ _ => rfl

theorem mono {fewer : List Token} (h : Agree toks p q) (hs : fewer <:+ toks) : Agree fewer p q :=
  fun cur hw hc => h cur hw (hc.trans hs)

theorem behind [hb : Built p] (hf : ∀ a, Agree toks (f a) (g a)) (hw : cur.Wf)
    (hs : (p cur).cursor.tokens <:+ toks) : (p >>= f) cur = (p >>= g) cur := by
  rw [bind_eq, bind_eq, hf _ _ (hb.forward hw).1 hs]

theorem bind [hb : Built p] (hp : Agree toks p q) (hf : ∀ a, Agree toks (f a) (g a)) :
    Agree toks (p >>= f) (q >>= g) := fun cur hw hs => by
  rw [behind hf hw ((hb.suffix hw).trans hs), bind_eq, bind_eq, hp cur hw hs]

theorem loop [Built p] (goes : TokenKind → Bool) (h : Agree toks p q) : Agree toks (loop goes p) (loop goes q) := by
  have hr : ∀ rounds, Agree toks (loopWithin goes p rounds) (loopWithin goes q rounds) := by
    intro rounds
    induction rounds with
    | zero => exact refl
    | succ rounds ih =>
      refine .bind refl fun kind => ?_
      split_ifs
      · exact .bind h fun first => .bind ih fun rest => refl
      · exact refl
  exact fun cur hw hs => hr _ cur hw hs

theorem repeatUntil [Built p] (stop : TokenKind) (h : Agree toks p q) :
    Agree toks (repeatUntil stop p) (repeatUntil stop q) :=
  .loop _ (.bind refl fun _ => .bind h fun _ => refl)

/-- A selection enters a selection set at a brace, or behind the dots that it has taken. -/
theorem selection {inner inner' : Parser SelectionSet} [Built inner] (hin : Agree toks.tail inner inner')
    (hb : ∀ cur : Cursor, cur.Wf → cur.tokens <:+ toks → cur.current.kind = .mark .leftBrace →
      inner cur = inner' cur) : Agree toks (selection inner) (selection inner') := by
  have ho : ∀ {f : SelectionSet → Parser Selection} {q : Parser Selection},
      Agree toks (atKind (.mark .leftBrace) >>= fun opens => if opens then inner >>= f else q)
        (atKind (.mark .leftBrace) >>= fun opens => if opens then inner' >>= f else q) := by
    intro f q cur hw hs
    rw [bind_run rfl, bind_run rfl]
    split_ifs with hk
    · rw [bind_eq, bind_eq, hb cur hw hs (beq_iff_eq.mp hk)]
    · rfl
  have hf : Agree toks (fieldSelection inner) (fieldSelection inner') := by
    refine .bind refl fun start => .bind refl fun first => .bind refl fun labelled => ?_
    dsimp only
    split_ifs
    · exact .bind refl fun second => .bind refl fun named => .bind refl fun args => .bind refl fun _ => ho
    · exact .bind refl fun named => .bind refl fun args => .bind refl fun _ => ho
  have hi : ∀ start cond, Agree toks.tail (inlineFragment inner start cond)
      (inlineFragment inner' start cond) := fun _ _ => .bind refl fun _ => .bind hin fun _ => refl
  intro cur hw hs
  refine (bind_run rfl).trans (trans ?_ (bind_run rfl).symm)
  by_cases hk : cur.current.kind = .mark .spread
  · have hn := Takes.eat (by decide) cur hw hk
    refine behind (fun taken => ?_) hw (hn.trans (ahead_suffix hs))
    split_ifs
    · refine .bind refl fun on => ?_
      split_ifs
      · exact .bind refl fun cond => hi _ _
      · refine .bind refl fun kind => ?_
        split_ifs
        · exact hi _ _
        · exact refl
    · exact hf.mono (tail_suffix _)
  · rw [bind_eq, bind_eq, eat_run, if_neg hk]
    exact congrArg
      (fun outcome : Outcome Selection => Outcome.mk outcome.value outcome.cursor ([] ++ outcome.diagnostics))
      (hf cur hw hs)

end Agree

/-- A step of a routine that goes on only behind a token: what it goes on with does not matter elsewhere. -/
def Guarded (step : Parser α → Parser α) : Prop :=
  ∀ (p q : Parser α) [Built p] [Built q] (cursor : Cursor), cursor.Wf → Agree cursor.ahead p q →
    step p cursor = step q cursor

/-- **The routine goes on with itself**, without a bound, and only behind a token. -/
structure Repeats (step : Parser α → Parser α) (routine : Parser α) : Prop where
  again : ∀ cursor : Cursor, cursor.Wf → routine cursor = step routine cursor
  guarded : Guarded step

variable {step : Parser α → Parser α}

/-- **The bound never shows** if it is the number of tokens ahead. -/
theorem Guarded.repeats (hg : Guarded step) (within : Nat → Parser α)
    [∀ n, Built (within n)] (ht : ∀ n, within (n + 1) = step (within n))
    (he : ∀ cur : Cursor, cur.Wf → cur.ahead = [] → step (within 0) cur = within 0 cur) :
    Repeats step fun cur => within cur.ahead.length cur := by
  have hu : ∀ n, ∀ cur : Cursor, cur.Wf → cur.ahead.length ≤ n →
      within (n + 1) cur = within n cur := by
    intro n
    induction n with
    | zero =>
      intro cur hw hl
      rw [ht]
      exact he cur hw (length_eq_zero_iff.mp (le_zero.mp hl))
    | succ n ih =>
      intro cur hw hl
      have ha : Agree cur.ahead (within (n + 1)) (within n) := fun next hn hs =>
        ih next hn (le_of_lt_succ (lt_of_lt_of_le hs.length_le hl))
      rw [ht (n + 1), hg _ _ cur hw ha, ← ht n]
  have hm : ∀ {cur : Cursor}, cur.Wf → ∀ n, cur.ahead.length ≤ n →
      within n cur = within cur.ahead.length cur := by
    intro cur hw n hl
    induction n, hl using le_induction with
    | base => rfl
    | succ n hl ih => rw [hu n cur hw hl, ih]
  refine ⟨fun cur hw => ?_, hg⟩
  have hb : Built (fun cur => within cur.ahead.length cur : Parser α) := .counted fun _ => inferInstance
  rw [← hu _ cur hw (le_refl _), ht]
  exact hg _ _ cur hw fun next hn hs => hm hn _ (le_of_lt hs.length_le)

/-- A routine that steps at least once does so at the last token, too. -/
theorem Guarded.repeats_succ (hg : Guarded step) (within : Nat → Parser α)
    [∀ n, Built (within n)] (ht : ∀ n, within (n + 1) = step (within n)) :
    Repeats step fun cur => within (cur.ahead.length + 1) cur := by
  refine hg.repeats (fun n => within (n + 1)) (fun n => ht (n + 1)) fun cur hw ha => ?_
  have hn : Agree cur.ahead (within 1) (within 0) := fun next _ hs =>
    absurd (suffix_nil.mp (ha ▸ hs)) (cons_ne_nil _ _)
  rw [hg _ _ cur hw hn, ht 0]

theorem Takes.repeats_loop {goes : TokenKind → Bool} {body : Parser α} [Built body] (ht : Takes (goes ·) body)
    (he : goes .eof = false) : Repeats (loopOf goes body) (loop goes body) := by
  have hg : Guarded (loopOf goes body) := by
    intro p q _ _ cur hw ha
    refine (bind_run rfl).trans (trans ?_ (bind_run rfl).symm)
    split_ifs with ho
    · exact Agree.behind (fun first => .bind ha fun rest => .refl) hw (ht cur hw ho)
    · rfl
  refine hg.repeats (loopWithin goes body) (fun _ => rfl) fun cur hw hh => (bind_run rfl).trans ?_
  rw [hw.kind_of_end hh, he]
  rfl

theorem guarded_valueOf (const : Bool) : Guarded (valueOf const) := by
  intro p q _ _ cur hw hg
  have ha : ∀ {kind}, kind ≠ .eof → Takes (· = kind) advance := fun hn => .advance hn.symm
  refine (bind_run rfl).trans (Eq.trans ?_ (bind_run rfl).symm)
  generalize hk : cur.current.kind = kind
  split
  case h_9 =>
    exact Agree.behind (fun _ => .bind (.repeatUntil _ hg) fun _ => .refl) hw (ha (by decide) cur hw hk)
  case h_10 =>
    refine Agree.behind (fun _ => .bind (.repeatUntil _ ?_) fun _ => .refl) hw (ha (by decide) cur hw hk)
    exact .bind .refl fun name => .bind .refl fun _ => .bind hg fun _ => .refl
  all_goals rfl

theorem guarded_typeOf : Guarded typeOf := by
  intro p q _ _ cur hw ha
  refine (bind_run rfl).trans (Eq.trans ?_ (bind_run rfl).symm)
  by_cases hk : cur.current.kind = .mark .leftBracket
  · refine Agree.behind (fun taken => ?_) hw (Takes.eat (by decide) cur hw hk)
    split_ifs
    · exact .bind ha fun _ => .refl
    · exact .refl
  · rw [bind_eq, bind_eq, eat_run, if_neg hk]
    rfl

theorem guarded_selectionSetOf : Guarded selectionSetOf := by
  intro p q _ _ cursor hw ha
  have hr : ∀ {tokens}, Agree tokens (selection p) (selection q) → ∀ {f : List Selection → Parser SelectionSet},
      Agree tokens (repeatUntil (.mark .rightBrace) (selection p) >>= f)
        (repeatUntil (.mark .rightBrace) (selection q) >>= f) := fun h _ => .bind (.repeatUntil _ h) fun _ => .refl
  have he : Built (expect (.mark .leftBrace)) := inferInstance
  refine (bind_run rfl).trans (Eq.trans ?_ (bind_run rfl).symm)
  by_cases hk : cursor.current.kind = .mark .leftBrace
  · refine Agree.behind (fun _ => hr (.selection (ha.mono (tail_suffix _)) ?_)) hw
      (Takes.expect (by decide) cursor hw hk)
    exact fun next hn hs _ => ha next hn hs
  · have hse : Agree cursor.tokens (selection p) (selection q) := by
      refine .selection ha fun next hn hs hb => ?_
      rcases suffix_cons_iff.mp hs with ht | hm
      · exact absurd ((List.cons.inj ht).1 ▸ hb) hk
      · exact ha next hn hm
    exact Agree.behind (fun _ => hr hse) hw (he.suffix hw)

/-- **Every routine that goes on with itself** does so behind a token: the rounds of all loops and what nests. -/
structure Progress : Prop where
  loops : ∀ {α : Type} (stop : TokenKind) (body : Parser α) [Built body],
    Repeats (loopOf (fun kind => kind != stop && kind != .eof) (round body)) (repeatUntil stop body)
  separated : ∀ {α : Type} (separator : Mark) (item : Parser α) [Built item],
    Repeats (loopOf (· == .mark separator) (do advance; item)) (whileAt (.mark separator) (do advance; item))
  directives : ∀ constant, Repeats (loopOf (· == .mark .atSign) (directive constant)) (directives constant)
  recovery : Repeats (loopOf (!startsDefinition ·) advance) (loop (!startsDefinition ·) advance)
  values : ∀ constant, Repeats (valueOf constant) (value constant)
  types : Repeats typeOf typeExpr
  selections : Repeats selectionSetOf selectionSet

theorem progress : Progress where
  loops stop body _ := (Takes.round stop body).repeats_loop (by simp)
  separated separator _ _ := Takes.repeats_loop (.first (.advance (by simp))) rfl
  directives constant := Takes.repeats_loop (.second fun _ => .first (.advance (by simp))) rfl
  recovery := Takes.repeats_loop (.advance (by simp [startsDefinition])) rfl
  values constant := (guarded_valueOf constant).repeats_succ (valueWithin constant) fun _ => rfl
  types := guarded_typeOf.repeats_succ typeWithin fun _ => rfl
  selections := guarded_selectionSetOf.repeats_succ selectionSetWithin fun _ => rfl

end Parser

/-- **Reading ends, at the end of the text.** No routine goes on with itself before a token is taken, the end of
the text is where the reading stops, and each unreadable token has a report of its own. -/
theorem parse_consumes (source : Nat) (text : String) :
    Parser.Progress ∧ (Cursor.ofTokens source (tokenize text)).1.Wf ∧
      (Parser.document (Cursor.ofTokens source (tokenize text)).1).cursor.current.kind = .eof ∧
      (Parser.document (Cursor.ofTokens source (tokenize text)).1).cursor.ahead = [] ∧
      (unreadables source (tokenize text)).Sublist (parse source text).2 :=
  ⟨Parser.progress, ofTokens_wf source text, (parse_stops source text).1, (parse_stops source text).2,
    parse_reports source text⟩

end GraphClient.Syntax
