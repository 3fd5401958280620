import GraphClient.Proofs.Grammar.TypeSystem

/-!
# Recognizing executable definitions

The productions of selections share their first tokens, so they are written with one alternative for each next token
before they are compared with the parser.

* **`Parser.recognizes_selectionSet`**: selection sets, by induction on the nesting that the tokens ahead allow.
-/

namespace GraphClient.Syntax

open Rule Grammar List

namespace Grammar

variable {set : Rule SelectionSet}

def fieldRest (set : Rule SelectionSet) (start : Nat) (label : Option Name) (name : Name) : Rule Selection := do
  let arguments ← arguments false
  let directives ← directives false
  let set ← optional set
  return .field ⟨label, name, arguments, directives, ← spanFrom start⟩ (set.map SelectionSet.span)
    ((set.map SelectionSet.selections).getD [])

def inlineRest (set : Rule SelectionSet) (start : Nat) (condition : Option Name) : Rule Selection := do
  let directives ← directives false
  let set ← set
  return .inline condition directives set.span set.selections (← spanFrom start)

theorem field_eq : field set = offset >>= fun start => name >>= fun first =>
    (mark .colon >>= fun _ => name >>= fun second => fieldRest set start (some first) second) ⊔
      fieldRest set start none first := by
  refine congrArg (offset >>= ·) (funext fun start => ?_)
  rw [optional_bind, bind_sup]
  simp only [bind_assoc, pure_bind]
  rfl

/-- The token behind the dots tells what is spread. -/
theorem selection_eq : selection set = offset >>= fun start => (mark .spread >>= fun _ =>
      (keyword .on >>= fun _ => name >>= fun condition => inlineRest set start (some condition)) ⊔
        (inlineRest set start none ⊔ (fragmentName >>= fun name => directives false >>= fun directives =>
          .spanFrom start >>= fun span => pure (.spread name directives span)))) ⊔ field set := by
  have hi : inlineFragment set = offset >>= fun start => mark .spread >>= fun _ =>
      (keyword .on >>= fun _ => name >>= fun condition => inlineRest set start (some condition)) ⊔
        inlineRest set start none := by
    refine congrArg (offset >>= ·) (funext fun start => congrArg (mark .spread >>= ·) (funext fun _ => ?_))
    rw [optional_bind, bind_assoc]
    rfl
  rw [bind_sup, offset_bind, sup_comm, selection, sup_assoc, hi, sup_comm spread]
  simp only [← sup_assoc, bind_sup]
  rfl

def selectionTails : List TokenKind := .mark .colon :: .mark .leftBrace :: directiveTails

theorem heads_selection : (selection set).Heads (Avoids (.eof :: .mark .rightBrace :: selectionTails)) := by
  refine .sup (.sup (field_eq ▸ ?_) ?_) ?_
  · exact .offset fun _ => heads_name.bind.mono fun _ => avoids_of_isName (by decide)
  all_goals exact .offset fun _ => (Heads.ofKind _).bind.mono fun _ => avoids_of_kind (by decide)

theorem selectionSetOf_mono : Monotone selectionSetOf := by
  intro set set' h
  have hf : field set ≤ field set' :=
    bind_mono le_rfl fun _ => bind_mono le_rfl fun _ => bind_mono le_rfl fun _ => bind_mono le_rfl fun _ =>
      bind_mono le_rfl fun _ => bind_mono (optional_mono h) fun _ => le_rfl
  have hn : inlineFragment set ≤ inlineFragment set' :=
    bind_mono le_rfl fun _ => bind_mono le_rfl fun _ => bind_mono le_rfl fun _ => bind_mono le_rfl fun _ =>
      bind_mono h fun _ => le_rfl
  have hs : selection set ≤ selection set' := sup_le_sup (sup_le_sup hf le_rfl) hn
  refine bind_mono le_rfl fun _ => bind_mono le_rfl fun _ => bind_mono ?_ fun _ => le_rfl
  exact fun tokens next items hi => ⟨many_mono hs _ _ _ hi.1, hi.2⟩

theorem selectionSet_eq : selectionSet = selectionSetOf selectionSet := least_eq selectionSetOf_mono

theorem heads_selectionSet : selectionSet.Heads fun t => t.kind = .mark .leftBrace := by
  rw [selectionSet_eq]
  exact .offset fun _ => (Heads.ofKind _).bind

end Grammar

namespace Parser

variable {n : Nat} {here follow : Token → Prop}

section Selections

variable {inner : Parser SelectionSet} [Built inner] {set : Rule SelectionSet}
  (hinner : Recognizes n AnyToken inner set AnyToken)
  (hheads : set.Heads fun t => t.kind = .mark .leftBrace)

include hinner hheads

theorem recognizes_fieldRest (start : Nat) (label : Option Name) (name : Name) :
    Recognizes n here (arguments false >>= fun arguments => directives false >>= fun directives =>
        atKind (.mark .leftBrace) >>= fun opens => if opens then inner >>= fun set => spanFrom start >>= fun span =>
          pure (.field ⟨label, name, arguments, directives, span⟩ (some set.span) set.selections)
        else spanFrom start >>= fun span => pure (.field ⟨label, name, arguments, directives, span⟩ none []))
      (fieldRest set start label name) (Avoids (.mark .leftBrace :: directiveTails)) := by
  have hs : ∀ {kinds}, .mark .leftBrace ∉ kinds → set.Heads (Avoids kinds) := fun h =>
    hheads.mono fun _ => avoids_of_kind h
  refine .bind (recognizes_arguments fun _ (h : Avoids [.mark .leftParen] _) => h.ne mem_cons_self)
    (fun arguments => ?_) fun arguments => ?_
  · refine (first_directives (by decide)).bind fun _ => (First.optional (hs (by decide))).bind fun _ => ?_
    exact .spanFrom fun _ => .pure fun _ h => h.mono (by decide)
  refine .bind (recognizes_directives fun _ h => h) (fun directives => ?_) fun directives => ?_
  · exact (First.optional (hs (by decide))).bind fun _ => .spanFrom fun _ => .pure fun _ h => h.mono (by decide)
  rw [optional_bind]
  refine .atKind ?_ ?_
  · refine .left (.bind (hinner.mono_here fun _ _ => trivial) (fun _ => .any) fun set => ?_)
      (.spanFrom fun _ => .pure fun _ h => h) fun t hh ha => ha (by rw [hh.2]; decide)
    exact .spanFrom fun _ => .pure
  · exact .right (.spanFrom fun _ => .pure) hheads.bind.first fun _ hh => hh.2

theorem recognizes_fieldSelection :
    Recognizes n here (fieldSelection inner) (field set) (Avoids Grammar.selectionTails) := by
  have hi' := hinner.mono (Nat.sub_le n 1) (fun _ h => h) fun _ h => h
  rw [field_eq]
  refine .offset fun start => .bind recognizes_name (fun _ => .any) fun first => .eat (by decide) ?_ ?_ ?_
  · refine .bind recognizes_name (fun _ => .any) fun second => ?_
    exact (recognizes_fieldRest hi' hheads start (some first) second).mono_follow fun _ h => h.mono (by decide)
  · exact (recognizes_fieldRest hinner hheads start none first).mono_follow fun _ h => h.mono (by decide)
  · have hs : set.Heads (Avoids [.mark .colon]) := hheads.mono fun _ => avoids_of_kind (by decide)
    have ha : (Grammar.arguments false).First (Avoids [.mark .colon]) (Avoids [.mark .colon]) :=
      .orEmpty ((Heads.ofKind _).bind.mono fun _ => avoids_of_kind (by decide))
    refine .mono ?_ (fun _ h => h) fun _ (h : Avoids [.mark .colon] _) => h.ne mem_cons_self
    refine ha.bind fun _ => (first_directives (by decide)).bind fun _ => ?_
    exact (First.optional hs).bind fun _ => .spanFrom fun _ => .pure fun _ h => h.mono (by decide)

theorem recognizes_inlineFragment (start : Nat) (cond : Option Name) :
    Recognizes n here (inlineFragment inner start cond) (inlineRest set start cond) follow := by
  refine .bind (recognizes_directives fun _ h => h) (fun _ => ?_) fun dirs => ?_
  · exact (hheads.bind.mono fun _ => avoids_of_kind (by decide)).first
  · exact .bind hinner (fun _ => .any) fun set => .spanFrom fun _ => .pure

/-- **Selections.** -/
theorem recognizes_selection :
    Recognizes n here (selection inner) (Grammar.selection set) (Avoids Grammar.selectionTails) := by
  have hl : ∀ {m}, m ≤ n → Recognizes m AnyToken inner set AnyToken := fun hm =>
    hinner.mono hm (fun _ h => h) fun _ h => h
  have hi : ∀ start, (inlineRest set start none).First AnyToken fun t =>
      t.kind ∈ [.mark .leftBrace, .mark .atSign] := fun start => by
    refine .bind (.many ((heads_directive false).mono fun _ h => ?_)) fun _ =>
      (hheads.bind.mono fun _ h => ?_).first
    · rw [h]; decide
    · rw [h]; decide
  have hn : fragmentName.Heads fun t => t.kind.isName ∧ t.kind ≠ .keyword .on :=
    .one fun _ _ h => ⟨h.1, by simpa using h.2.1⟩
  rw [selection_eq]
  refine .offset fun start => .eat (by decide) (.eat (by decide) ?_ ?_ ?_) ?_ ?_
  · refine .bind recognizes_name (fun _ => .any) fun condition => ?_
    exact recognizes_inlineFragment (hl (by omega)) hheads start (some condition)
  · refine .kind fun t hh => .ite (fun hk => ?_) fun hk => ?_
    · refine .left (recognizes_inlineFragment (hl (by omega)) hheads start none) hn.bind.first ?_
      rintro t rfl ⟨hin, -⟩
      have ho : t.kind ∈ [.mark .leftBrace, .mark .atSign] := by simpa using hk
      exact avoids_of_isName (by decide) hin ho
    · refine .right ?_ ((hi start).mono (fun _ _ => trivial) fun _ h => h) ?_
      · refine .bind (recognizes_nameExcept ?_) (fun _ => .any) fun name =>
          recognizes_ending fun _ h => h.mono (by decide)
        simpa using hh.2
      · rintro t rfl ho
        exact hk (by simpa using ho)
  · refine .sup ((hi start).mono (fun _ _ => trivial) fun _ h he => ?_) (hn.bind.mono fun _ h => h.2).first
    rw [he] at h
    exact absurd h (by decide)
  · exact recognizes_fieldSelection hinner hheads
  · rw [field_eq]
    exact .offset fun _ => (heads_name.bind.mono fun _ h => ne_of_isName rfl h).first

end Selections

theorem recognizes_selectionSetWithin (levels : Nat) :
    Recognizes levels AnyToken (selectionSetWithin levels) Grammar.selectionSet AnyToken := by
  induction levels with
  | zero => exact .zero
  | succ levels ih =>
    rw [selectionSet_eq]
    unfold selectionSetWithin selectionSetOf Grammar.selectionSetOf
    simp only [many1_bind]
    refine .offset fun start => .expect (by decide) ?_
    refine .bind (.repeatUntil (recognizes_selection ih heads_selectionSet) heads_selection
      (fun t ha => ?_) fun _ => avoids_of_kind (by decide)) (fun sels => ?_) fun sels => ?_
    · exact ⟨ha.ne (by decide), ha.ne (by decide), ha.mono (by decide)⟩
    · cases sels with
      | nil => exact Heads.bot.first
      | cons sel sels => exact (Heads.ofKind _).bind.first
    · cases sels with
      | nil => exact .fails (fun _ _ => cons_ne_nil _ _) Heads.bot.first fun _ _ h => h
      | cons sel sels => exact .expect (by decide) (.spanFrom fun _ => .pure)

theorem recognizes_selectionSet : Recognizes n here selectionSet Grammar.selectionSet follow :=
  (Recognizes.counted fun levels => recognizes_selectionSetWithin (levels + 1)).mono (Nat.le_refl n)
    (fun _ _ => trivial) fun _ _ => trivial

theorem recognizes_variableDefinition :
    Recognizes n here variableDefinition Grammar.variableDefinition (Avoids Grammar.inputTails) := by
  refine .offset fun start => .expect (by decide) (.bind recognizes_name (fun _ => .any) fun name => ?_)
  exact .expect (by decide) recognizes_inputType

theorem recognizes_variableDefinitions (hf : ∀ t, follow t → t.kind ≠ .mark .leftParen) :
    Recognizes n here variableDefinitions Grammar.variableDefinitions follow := by
  refine .orEmpty inputTails (fun _ => recognizes_variableDefinition) ?_ (by decide) hf
  exact .offset fun _ => (Heads.ofKind _).bind.mono fun _ => avoids_of_kind (by decide)

theorem recognizes_operationName (hf : ∀ t, follow t → t.kind.isName = false) :
    Recognizes n here operationName? (optional Grammar.name) follow := by
  refine .atName ?_ ?_
  · refine .left (.bind recognizes_name (fun _ => .any) fun _ => .pure) (.pure hf) fun t hh ho => ?_
    rw [hh.2] at ho
    cases ho
  · refine .right .pure heads_name.bind.first fun t hh hn => ?_
    rw [hh.2] at hn
    cases hn

def operationStarts : List TokenKind := .mark .leftBrace :: Grammar.operationWords.map Prod.fst

theorem recognizes_definitionBody {α : Type} {start : Nat} {make : List Directive → SelectionSet → Span → α} :
    Recognizes n here
      (directives false >>= fun directives => selectionSet >>= fun body => spanFrom start >>= fun span =>
        pure (make directives body span))
      (Grammar.directives false >>= fun directives => Grammar.selectionSet >>= fun body => .spanFrom start >>=
        fun span => pure (make directives body span)) follow := by
  refine .bind (recognizes_directives fun _ h => h) (fun _ => ?_) fun directives => ?_
  · exact (heads_selectionSet.bind.mono fun _ => avoids_of_kind (by decide)).first
  · exact .bind recognizes_selectionSet (fun _ => .any) fun body => .spanFrom fun _ => .pure

theorem recognizes_operation (he : ∀ t, here t → t.kind ∈ operationStarts) :
    Recognizes n here operation Grammar.operation follow := by
  have hb : ∀ t, here t → Avoids (Grammar.operationWords.map Prod.fst) t →
      t.kind = .mark .leftBrace := fun t hh ha => (mem_cons.mp (he t hh)).resolve_right ha
  have hn : ∀ {kind : TokenKind}, kind.isName = false → ∀ t : Token, t.kind = kind →
      t.kind.isName = false := fun hk _ h => h ▸ hk
  unfold operation Grammar.operation
  rw [← bind_sup]
  refine .offset fun start => ?_
  rw [bind_assoc]
  refine recognizes_operationKind (fun kind => ?_) ?_ ?_
  · rw [bind_assoc]
    refine .bind (recognizes_operationName fun _ h => h) (fun name => ?_) fun name => ?_
    · refine (First.orEmpty ((Heads.ofKind _).bind.mono (hn rfl))).bind fun _ => ?_
      refine (First.many ((heads_directive _).mono (hn rfl))).bind fun _ => ?_
      exact (heads_selectionSet.bind.mono (hn rfl)).first
    · refine .bind (recognizes_variableDefinitions fun _ (h : Avoids [.mark .leftParen] _) => h.ne mem_cons_self)
        (fun params => ?_) fun params => recognizes_definitionBody
      refine (first_directives (by decide)).bind fun _ => ?_
      exact (heads_selectionSet.bind.mono fun _ => avoids_of_kind (by decide)).first
  · unfold variableDefinitions
    simp only [pure_bind, bind_assoc]
    refine .eat_none ?_ ?_
    · rw [if_neg Bool.false_ne_true, Parser.pure_bind]
      refine .whileAt_none (.bind recognizes_selectionSet (fun _ => .any) fun body => .spanFrom fun _ => .pure) ?_
      rintro t ⟨⟨hh, -⟩, ha⟩
      rw [hb t hh ha]
      decide
    · rintro t ⟨⟨hh, -⟩, ha⟩
      rw [hb t hh ha]
      decide
  · exact (heads_selectionSet.bind.mono fun _ => avoids_of_kind (by decide)).first

theorem recognizes_fragment (he : ∀ t, here t → t.kind = .keyword .fragment) :
    Recognizes n here fragment Grammar.fragment follow := by
  have hn : fragmentName.Heads fun t => t.kind ≠ .keyword .on :=
    .one fun _ _ h => by simpa using h.2.1
  refine .offset fun start => .advance_kind (by decide) (fun _ h => he _ h.1) (.atKind ?_ ?_)
  · exact .fails (fun _ _ => cons_ne_nil _ _) hn.bind.first fun _ hh hne => hne hh.2
  · refine .bind (recognizes_nameExcept fun _ hh => by simpa using hh.2) (fun _ => .any) fun name => ?_
    exact .expect (by decide) (.bind recognizes_name (fun _ => .any) fun cond => recognizes_definitionBody)

end Parser

end GraphClient.Syntax
