import GraphClient.Proofs.Syntax.Places
import GraphClient.Proofs.Token.Scan

/-!
# Runs without reports

Text that belongs to no token is reported when it is passed, and every text is read to its end. So a text that is
read without a report has readable tokens only.
-/

namespace GraphClient.Syntax

open List Syntax.Parser Cursor Bool Nat

variable {α : Type} {cursor : Cursor} {β : Type} {p : Parser α}

theorem Parser.bind_eq (p : Parser α) (f : α → Parser β) (cursor : Cursor) :
    (p >>= f) cursor = ⟨(f (p cursor).value (p cursor).cursor).value, (f (p cursor).value (p cursor).cursor).cursor,
      (p cursor).diagnostics ++ (f (p cursor).value (p cursor).cursor).diagnostics⟩ := rfl

theorem Parser.bind_run {q : α → Parser β} {middle : Cursor} {a : α}
    (h : p cursor = ⟨a, middle, []⟩) : (p >>= q) cursor = q a middle := by
  rw [bind_eq, h]
  rfl

theorem Parser.eat_run (kind : TokenKind) (cursor : Cursor) : eat kind cursor = if cursor.current.kind = kind then
        ⟨true, (advance cursor).cursor, (advance cursor).diagnostics⟩
      else ⟨false, cursor, []⟩ := by
  have hr : eat kind cursor = (if (cursor.current.kind == kind) then advance >>= fun _ => pure true
        else pure false : Parser Bool) cursor := bind_run rfl
  rw [hr]
  by_cases h : cursor.current.kind = kind
  · rw [if_pos (beq_iff_eq.mpr h), if_pos h]
    exact congrArg (Outcome.mk true _) (append_nil _)
  · rw [if_neg (by simpa using h), if_neg h]
    rfl

theorem Parser.expect_run (kind : TokenKind) (cursor : Cursor) : expect kind cursor =
      if cursor.current.kind = kind then advance cursor else errorExpected kind cursor := by
  have hr : expect kind cursor = (if (cursor.current.kind == kind) then advance
        else errorExpected kind) cursor := rfl
  rw [hr]
  by_cases h : cursor.current.kind = kind <;> simp [h]

/-- **A parser reports the unreadable tokens that it passes**, and stops at none. -/
theorem Built.reports (h : Built p) (hw : cursor.Wf) (hr : cursor.current.kind ≠ .error) :
    (∃ front, cursor.tokens = front ++ (p cursor).cursor.tokens ∧
      (unreadables cursor.source front).Sublist (p cursor).diagnostics) ∧
      (p cursor).cursor.current.kind ≠ .error ∧ (p cursor).cursor.source = cursor.source := by
  induction h generalizing cursor with
  | pure | look | report => exact ⟨⟨[], rfl, nil_sublist _⟩, hr, rfl⟩
  | bind hp _ ihp ihf =>
    obtain ⟨⟨front, ht, he⟩, hr, hs⟩ := ihp hw hr
    obtain ⟨⟨front', ht', he'⟩, hr', hs'⟩ := ihf _ (hp.forward hw).1 hr
    refine ⟨⟨front ++ front', ?_, ?_⟩, hr', hs'.trans hs⟩
    · rw [ht, ht', append_assoc]
      rfl
    · rw [unreadables, filter_append, map_append]
      exact he.append (hs ▸ he')
  | advance =>
    by_cases ha : cursor.ahead = []
    · rw [advance_of_end ha]
      exact ⟨⟨[], rfl, nil_sublist _⟩, hr, rfl⟩
    · obtain ⟨front, ht, he, hr', hs⟩ := advance_eq hw ha
      refine ⟨⟨cursor.current :: front, congrArg (cursor.current :: ·) ht, ?_⟩, hr', hs⟩
      rw [he, unreadables, filter_cons_of_neg (by simpa using hr)]
      exact List.Sublist.refl _
  | counted _ ih => exact ih _ hw hr

/-- **A round takes a token**, whatever its body does. -/
theorem Built.round_suffix (h : Built p) (hw : cursor.Wf)
    (hk : cursor.current.kind ≠ .eof) : (round p cursor).cursor.tokens <:+ cursor.ahead := by
  have hr : ∀ middle, bumpIfStuck cursor.start middle =
      (if (middle.current.span.start == cursor.start && middle.current.kind != .eof) then Parser.advance
        else Pure.pure ()) middle := fun _ => Parser.bind_run rfl
  have hw' := (h.forward hw).1
  change (bumpIfStuck cursor.start (p cursor).cursor).cursor.tokens <:+ cursor.ahead
  rw [hr]
  rcases suffix_cons_iff.mp (h.suffix hw) with hs | hm
  · obtain ⟨hc, ha⟩ := cons.inj hs
    rw [hc, if_pos (by simp [start, hk]), ← ha]
    exact advance_suffix hw' (hw'.ahead_ne_nil (hc ▸ hk))
  · have hn : (p cursor).cursor.current.span.start ≠ cursor.start := ne_of_gt (hw.start_lt hm)
    rw [if_neg (by simp [hn])]
    exact hm

/-- **Parsers that take a token**, whatever they report, at one whose kind satisfies `here`. -/
def Parser.Takes (here : TokenKind → Prop) (p : Parser α) : Prop :=
  ∀ cursor : Cursor, cursor.Wf → here cursor.current.kind → (p cursor).cursor.tokens <:+ cursor.ahead

namespace Parser.Takes

variable {β : Type} {here : TokenKind → Prop} {p : Parser α} {f : α → Parser β}

theorem advance (h : ¬here .eof) : Takes here .advance := fun _ hw hh =>
  advance_suffix hw (hw.ahead_ne_nil fun he => h (he ▸ hh))

variable {kind : TokenKind}

theorem eat (h : kind ≠ .eof) : Takes (· = kind) (eat kind) := fun cursor hw hh => by
  rw [eat_run, if_pos hh]
  exact advance_suffix hw (hw.ahead_ne_nil (hh ▸ h))

theorem expect (h : kind ≠ .eof) : Takes (· = kind) (expect kind) := fun cursor hw hh => by
  rw [expect_run, if_pos hh]
  exact advance_suffix hw (hw.ahead_ne_nil (hh ▸ h))

theorem first (hp : Takes here p) [hb : Built p] [hf : ∀ a, Built (f a)] : Takes here (p >>= f) :=
  fun cursor hw hh => ((hf _).suffix (hb.forward hw).1).trans (hp cursor hw hh)

theorem second [hb : Built p] (hf : ∀ a, Takes here (f a)) [hfb : ∀ a, Built (f a)] : Takes here (p >>= f) := by
  intro cursor hw hh
  have hw' := (hb.forward hw).1
  rcases suffix_cons_iff.mp (hb.suffix hw) with hs | hm
  · obtain ⟨hc, ha⟩ := cons.inj hs
    exact ha ▸ hf _ _ hw' (hc ▸ hh)
  · exact ((hfb _).suffix hw').trans hm

theorem round (stop : TokenKind) (body : Parser α) [hb : Built body] :
    Takes (fun kind => (kind != stop && kind != .eof)) (round body) := fun _ hw hg =>
  hb.round_suffix hw (by simpa using (and_eq_true_iff.mp hg).2)

end Parser.Takes

variable (source : Nat) {body : Parser α} (text : String)

/-- **A loop goes on** as far as it can. -/
theorem Parser.loop_stops {goes : TokenKind → Bool} [hb : Built body] (ht : Takes (goes ·) body)
    (he : goes .eof = false) (hw : cursor.Wf) : goes (loop goes body cursor).cursor.current.kind = false := by
  have hr : ∀ rounds, ∀ cursor : Cursor, cursor.Wf → cursor.ahead.length ≤ rounds →
      goes (loopWithin goes body rounds cursor).cursor.current.kind = false := by
    intro rounds
    induction rounds with
    | zero =>
      intro cursor hw hl
      exact (congrArg goes (hw.kind_of_end (length_eq_zero_iff.mp (le_zero.mp hl)))).trans he
    | succ rounds ih =>
      intro cursor hw hl
      rw [loopWithin, loopOf, bind_run rfl]
      split_ifs with hg
      · exact ih _ (hb.forward hw).1
          (le_of_lt_succ (lt_of_lt_of_le (ht cursor hw hg).length_le hl))
      · exact eq_false_iff.mpr hg
  exact hr _ cursor hw (le_refl _)

theorem Parser.repeatUntil_stops {stop : TokenKind} [Built body] (hw : cursor.Wf) :
    (repeatUntil stop body cursor).cursor.current.kind = stop ∨
      (repeatUntil stop body cursor).cursor.current.kind = .eof := by
  have hs := loop_stops (.round stop body) (by simp) hw
  rwa [and_eq_false_iff, bne_eq_false_iff_eq, bne_eq_false_iff_eq] at hs

theorem Parser.round_run {middle : Cursor} {a : α} (hb : body cursor = ⟨a, middle, []⟩)
    (hs : cursor.current.span.start < middle.current.span.start) : round body cursor = ⟨a, middle, []⟩ := by
  have hu : bumpIfStuck cursor.current.span.start middle = ⟨(), middle, []⟩ := by
    rw [bumpIfStuck, bind_run rfl, if_neg]
    · rfl
    · simp [ne_of_gt hs]
  rw [round, bind_run rfl, bind_run hb, bind_run hu]
  rfl

/-- A cursor in readable tokens, of which only the last is the end of the text. -/
structure Cursor.Clear (cursor : Cursor) : Prop extends cursor.Wf where
  readable : ∀ token ∈ cursor.tokens, token.kind ≠ .error
  single : cursor.tokens.Pairwise fun token _ => token.kind ≠ .eof

theorem Cursor.Clear.ahead_eq_nil (h : cursor.Clear) (hk : cursor.current.kind = .eof) : cursor.ahead = [] :=
  eq_nil_iff_forall_not_mem.mpr fun other ho => (pairwise_cons.mp h.single).1 other ho hk

theorem Cursor.Clear.of_tokenize {text : String} (ht : cursor.tokens = tokenize text)
    (hr : ∀ t ∈ tokenize text, t.kind ≠ .error) : cursor.Clear where
  ordered := ht ▸ tokenize_ordered text
  ends := ht ▸ tokenize_ends text
  readable := ht ▸ hr
  single := ht ▸ tokenize_single text

theorem ofTokens_eq : ∃ front, tokenize text = front ++ (ofTokens source (tokenize text)).1.tokens ∧
      (ofTokens source (tokenize text)).2 = unreadables source front ∧
      (ofTokens source (tokenize text)).1.current.kind ≠ .error ∧
      (ofTokens source (tokenize text)).1.source = source := by
  obtain ⟨last, hl, hk⟩ := tokenize_ends text
  exact skip_eq source _ ⟨last, mem_of_getLast? hl, by simp [hk]⟩

theorem ofTokens_suffix : (ofTokens source (tokenize text)).1.tokens <:+ tokenize text := by
  obtain ⟨front, hf, -⟩ := ofTokens_eq source text
  exact ⟨front, hf.symm⟩

theorem wf_of_suffix {text : String} (h : cursor.tokens <:+ tokenize text) : cursor.Wf := by
  obtain ⟨last, hl, hk⟩ := tokenize_ends text
  refine ⟨(tokenize_ordered text).sublist h.sublist, last, ?_, hk⟩
  obtain ⟨front, hf⟩ := h
  rw [← hl, ← hf]
  exact (getLast?_append_cons _ _ _).symm

theorem ofTokens_wf : (ofTokens source (tokenize text)).1.Wf := wf_of_suffix (ofTokens_suffix source text)

/-- **Every text is read to its end.** -/
theorem parse_stops : (document (ofTokens source (tokenize text)).1).cursor.current.kind = .eof ∧
      (document (ofTokens source (tokenize text)).1).cursor.ahead = [] := by
  have hw := ofTokens_wf source text
  have hs : (document (ofTokens source (tokenize text)).1).cursor.current.kind = .eof :=
    (repeatUntil_stops hw).elim id id
  have hb : Built document := inferInstance
  have hi := (tokenize_single text).sublist ((hb.suffix hw).trans (ofTokens_suffix source text)).sublist
  exact ⟨hs, eq_nil_iff_forall_not_mem.mpr fun other ho =>
    (pairwise_cons.mp hi).1 other ho hs⟩

/-- **Each unreadable token of a text is reported.** -/
theorem parse_reports : (unreadables source (tokenize text)).Sublist (parse source text).2 := by
  obtain ⟨front, ht, hs, he, ho⟩ := ofTokens_eq source text
  have hb : Built document := inferInstance
  obtain ⟨⟨passed, hp, hr⟩, -⟩ := hb.reports (ofTokens_wf source text) he
  obtain ⟨hk, ha⟩ := parse_stops source text
  rw [ho] at hr
  have hsp : unreadables source (tokenize text) = unreadables source front ++ unreadables source passed := by
    rw [ht, hp, tokens]
    simp [unreadables, ha, hk]
  rw [hsp, ← hs]
  exact (List.Sublist.refl _).append hr

theorem parse_readable {source : Nat} {text : String} (h : (parse source text).2 = []) :
    (ofTokens source (tokenize text)).1.tokens = tokenize text ∧ ∀ t ∈ tokenize text, t.kind ≠ .error := by
  have hn := h ▸ parse_reports source text
  rw [unreadables] at hn
  have hr : ∀ t ∈ tokenize text, t.kind ≠ .error := by simpa using hn
  obtain ⟨last, hl, -⟩ := tokenize_ends text
  refine ⟨?_, hr⟩
  cases ht : tokenize text with
  | nil => simp [ht] at hl
  | cons t rest =>
    rw [ofTokens, skip, if_neg (hr t (by simp [ht]))]
    rfl

end GraphClient.Syntax
