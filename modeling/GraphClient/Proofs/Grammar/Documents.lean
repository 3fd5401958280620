import GraphClient.Proofs.Grammar.Executable

/-!
# The language of the parser

Documents that are read without a report are the ones that the grammar derives, and the tree that is read is the
derived one. Text that belongs to no token is never part of such a document.
-/

namespace GraphClient.Syntax

open List Rule Grammar Syntax.Parser Option

/-! ## Definitions -/

namespace Grammar

variable {start : Nat} {description : Option Description}

/-- What stands behind a description, or where one could stand. -/
def behindDescription (start : Nat) (description : Option Description) : Rule Definition :=
  typeSystemDefinition start description ⊔ if description.isNone then extension ⊔ executableDefinition else ⊥

theorem definition_eq : definition = described behindDescription := by
  have hp : (optional description >>= fun description =>
      if description.isNone then extension ⊔ executableDefinition else ⊥) =
        extension ⊔ executableDefinition := by
    rw [optional_bind]
    exact (congrArg (· ⊔ _) bind_bot).trans (bot_sup_eq _)
  unfold described behindDescription
  simp only [bind_sup, hp, offset_bind]
  rw [definition, sup_assoc]
  rfl

def definitionAt (start : Nat) (description : Option Description) : TokenKind → Rule Definition
  | .keyword .extend => if description.isNone then extension else ⊥
  | .keyword .schema => do return .schema (← schemaDefinition start description)
  | .keyword .directive => do return .directive (← directiveDefinition start description)
  | .keyword .fragment => if description.isNone then do return .fragment (← fragment) else ⊥
  | .keyword .query | .keyword .mutation | .keyword .subscription | .mark .leftBrace =>
    if description.isNone then do return .operation (← operation) else ⊥
  | _ => do return .type (← typeDefinition start description)

theorem heads_operation : operation.Heads fun tok => tok.kind ∈ operationStarts := by
  refine .sup (.offset fun _ => .bind (.one fun _ _ h => ?_))
    (.offset fun _ => heads_selectionSet.bind.mono fun _ h => ?_)
  · exact mem_cons_of_mem _ (mem_map_of_mem h)
  · exact h ▸ mem_cons_self

theorem heads_extension : extension.Heads fun tok => tok.kind = .keyword .extend :=
  .offset fun _ => (Heads.ofKind _).bind

variable {kind : TokenKind}

theorem definitionAt_of_typeKeyword (h : (typeKeyword? kind).isSome) : definitionAt start description kind =
      (typeDefinition start description >>= fun defn => pure (.type defn)) := by
  obtain ⟨word, hw⟩ := isSome_iff_exists.mp h
  unfold typeKeyword? at hw
  split at hw
  case h_7 => cases hw
  all_goals rfl

theorem definitionAt_of_operationStart (h : kind ∈ operationStarts) :
    definitionAt start none kind = (operation >>= fun operation => pure (.operation operation)) := by
  simp only [operationStarts, operationWords, map_cons, map_nil, mem_cons, not_mem_nil, or_false] at h
  rcases h with rfl | rfl | rfl | rfl <;> rfl

theorem behindDescription_iff {toks : List Token} {next : Token} {defn : Definition} :
    behindDescription start description toks next defn ↔
      definitionAt start description (toks.headD next).kind toks next defn := by
  have hh : ∀ {α : Type} {r : Rule α} {P : Token → Prop} {f : α → Definition}, r.Heads P →
      (r >>= fun a => pure (f a)) toks next defn → P (toks.headD next) := fun h hr => by
    obtain ⟨tok, rest, rfl, hP⟩ := h.bind _ _ _ hr
    exact hP
  constructor
  · rintro (((h | h) | h) | h)
    · rw [hh (Heads.ofKind _).bind h]
      exact h
    · rw [definitionAt_of_typeKeyword (hh (heads_typeDefinition _ _) h)]
      exact h
    · rw [hh (Heads.ofKind _).bind h]
      exact h
    · cases description with
      | some description => exact h.elim
      | none =>
        obtain (h | h | h) := h
        · obtain ⟨tok, rest, rfl, hk⟩ := heads_extension _ _ _ h
          rw [headD_cons, hk]
          exact h
        · rw [definitionAt_of_operationStart (hh heads_operation h)]
          exact h
        · rw [hh (.offset fun _ => (Heads.ofKind _).bind) h]
          exact h
  · generalize (toks.headD next).kind = kind
    intro h
    cases description with
    | some description =>
      unfold definitionAt at h
      split at h
      all_goals first
        | exact h.elim
        | exact .inl (.inl (.inl h))
        | exact .inl (.inr h)
        | exact .inl (.inl (.inr h))
    | none =>
      unfold definitionAt at h
      split at h
      · exact .inr (.inl h)
      · exact .inl (.inl (.inl h))
      · exact .inl (.inr h)
      · exact .inr (.inr (.inr h))
      iterate 4 · exact .inr (.inr (.inl h))
      · exact .inl (.inl (.inr h))

/-- Definitions go on with none of the kinds that would continue the one in front. -/
theorem heads_behindDescription : (behindDescription start none).Heads (Avoids (.eof :: strings ++ typeTails)) := by
  refine .sup (.sup (.sup ?_ ?_) ?_) (.sup ?_ (.sup ?_ ?_))
  · exact (Heads.ofKind _).bind.bind.mono fun _ => avoids_of_kind (by decide)
  · refine (heads_typeDefinition start none).bind.mono fun tok ho hm => ?_
    have hn : ∀ kind ∈ .eof :: strings ++ typeTails, (typeKeyword? kind).isSome = false := by decide
    exact absurd ho (by simp [hn _ hm])
  · exact (Heads.ofKind _).bind.bind.mono fun _ => avoids_of_kind (by decide)
  · exact heads_extension.mono fun _ => avoids_of_kind (by decide)
  · refine heads_operation.bind.mono fun tok hs hm => ?_
    have hn : ∀ kind ∈ .eof :: strings ++ typeTails, kind ∉ operationStarts := by decide
    exact hn _ hm hs
  · exact (Heads.offset fun _ => (Heads.ofKind _).bind).bind.mono fun _ => avoids_of_kind (by decide)

theorem heads_definition : definition.Heads (Avoids (.eof :: typeTails)) := by
  rw [definition_eq]
  refine .offset fun start => .optional (heads_description.mono ?_)
    (heads_behindDescription.mono fun _ h => h.mono (by decide))
  rintro tok ⟨text, ht⟩
  cases ht with
  | string hk | block hk => exact avoids_of_kind (by decide) hk

end Grammar

namespace Parser

variable {n : Nat} {here follow : Token → Prop}

theorem recognizes_presentType {p : Parser (Option TypeDefinition)} [Built p] {r : Rule TypeDefinition}
    (h : Recognizes n here p (r >>= fun defn => pure (some defn)) follow)
    (make : TypeDefinition → Definition) : Recognizes n here (p >>= fun defn => pure (defn.map make))
      (r >>= fun defn => pure (some (make defn))) follow :=
  .bind_map h (fun _ => .pure fun _ h => h) fun _ => .pure

variable (description : Option Description)

theorem recognizes_extension (he : ∀ tok, here tok → tok.kind = .keyword .extend) :
    Recognizes n here (extension? description)
      ((if description.isNone then extension else ⊥) >>= fun defn => pure (some defn)) (Avoids typeTails) := by
  unfold extension?
  cases description with
  | some description =>
    refine .fails (fun cur _ => ?_) Heads.bot.bind.first fun _ _ h => h
    simp [bind_eq, errorAt]
  | none =>
    simp only [isNone_none, if_true, extension, Rule.bind_assoc, Rule.sup_bind, Rule.pure_bind]
    refine .offset fun start => .advance_kind (by decide) (fun _ h => he _ h.1) (.atKind ?_ ?_)
    · refine .left (.map ?_) (heads_typeDefinition _ _).bind.first fun tok hh hs => ?_
      · exact (recognizes_schemaExtension start fun _ hh => hh.2).mono_follow fun _ h => h.mono (by decide)
      · rw [hh.2] at hs
        cases hs
    · refine .right ?_ (Heads.ofKind _).bind.bind.first fun _ hh => hh.2
      exact recognizes_presentType (recognizes_typeDefinition none start) _

theorem recognizes_executable {α : Type} {p : Parser α} [Built p] {r : Rule α}
    (h : Recognizes n here p r follow) (make : α → Definition) :
    Recognizes n here (rejectDescription description >>= fun _ => p >>= fun a => pure (some (make a)))
      ((if description.isNone then r >>= fun a => pure (make a) else ⊥) >>= fun defn =>
        pure (some defn)) follow := by
  cases description with
  | some description => exact .fails (fun _ _ => cons_ne_nil _ _) Heads.bot.bind.first fun _ _ h => h
  | none =>
    simp only [isNone_none, if_true, Rule.bind_assoc, Rule.pure_bind, rejectDescription, pure_bind]
    exact .map h

/-- **Definitions.** -/
theorem recognizes_definition : Recognizes n here definition? (definition >>= fun definition => pure (some definition))
      (Avoids typeTails) := by
  rw [definition_eq, described]
  simp only [Rule.bind_assoc]
  refine recognizes_described (fun n description start => .kind fun token ht => ?_) fun start => ?_
  · refine .congr (r := definitionAt start description token.kind >>= fun definition => pure (some definition))
      ?_ ?_ ?_
    · have hs : ∀ other, other = token → StartsAt description start other := fun _ he => he ▸ ht
      split
      next hk =>
        rw [hk]
        exact recognizes_extension description (by rintro token rfl; exact hk)
      next hk =>
        rw [hk, definitionAt]
        simp only [Rule.bind_assoc, Rule.pure_bind]
        exact recognizes_startOf hs (.map (recognizes_schemaDefinition _ _ (by rintro token rfl; exact hk)))
      next hk =>
        rw [hk, definitionAt]
        simp only [Rule.bind_assoc, Rule.pure_bind]
        refine .map ((recognizes_directiveDefinition description start ?_ hs).mono_follow fun _ h => h.ne (by decide))
        rintro token rfl
        exact hk
      next hk =>
        rw [hk]
        exact recognizes_executable description (recognizes_fragment (by rintro token rfl; exact hk)) _
      iterate 4
        next hk =>
          rw [hk]
          exact recognizes_executable description (recognizes_operation (by rintro token rfl; rw [hk]; decide)) _
      next =>
        have ha : definitionAt start description token.kind =
            (typeDefinition start description >>= fun definition => pure (.type definition)) := by
          unfold definitionAt
          split <;> simp_all
        rw [ha, Rule.bind_assoc]
        simp only [Rule.pure_bind]
        refine .ite (fun hso => ?_) fun hn => ?_
        · exact recognizes_startOf hs (recognizes_presentType (recognizes_typeDefinition description start) _)
        · refine .fails (fun _ _ => cons_ne_nil _ _) (heads_typeDefinition _ _).bind.first ?_
          rintro token rfl
          exact hn
    · rintro tokens next a rfl h
      obtain ⟨definition, hd, rfl⟩ := bind_pure_iff.mp h
      exact bind_pure_iff.mpr ⟨definition, behindDescription_iff.mpr hd, rfl⟩
    · rintro tokens next a rfl - h
      obtain ⟨definition, hd, rfl⟩ := bind_pure_iff.mp h
      exact bind_pure_iff.mpr ⟨definition, behindDescription_iff.mp hd, rfl⟩
  · exact (heads_behindDescription.bind.mono fun _ h => h.mono (by decide)).first

theorem recognizes_definitions : Recognizes n here (repeatUntil .eof definitionOrRecover)
      (Many definition >>= fun definitions => pure (definitions.map some)) fun token => token.kind = .eof := by
  have hd : ∀ n, Recognizes n AnyToken definitionOrRecover
      (definition >>= fun definition => pure (some definition)) (Avoids typeTails) := fun n =>
    .bind_map recognizes_definition (fun _ => .pure fun _ h => h) fun _ => .pure
  rw [← many_view]
  refine .repeatUntil (hd n) heads_definition.bind (fun token ha => ?_) fun _ =>
    avoids_of_kind (by decide)
  exact ⟨ha.ne (by decide), ha.ne (by decide), ha.mono (by decide)⟩

end Parser

/-! ## Documents -/

/-- **Documents**, from a cursor in front of readable tokens. -/
theorem Parser.document_iff {cursor : Cursor} (hc : cursor.Clear) {tree : Document} :
    (∃ last, document cursor = ⟨tree, last, []⟩) ↔ Derives cursor.tokens tree := by
  have hr : Recognizes (cursor.ahead.length + 1) AnyToken (repeatUntil .eof definitionOrRecover) _ _ :=
    recognizes_definitions
  constructor
  · rintro ⟨last, hu⟩
    rw [document, bind_run rfl] at hu
    obtain ⟨items, middle, hi, hu⟩ := bind_clean hu
    obtain ⟨rfl, rfl, -⟩ := Outcome.mk.inj hu
    obtain ⟨tokens, hp, hm⟩ := hr.sound hc (Nat.lt_succ_self _) trivial hi
    obtain ⟨definitions, hd, rfl⟩ := bind_pure_iff.mp hm
    have hs : (repeatUntil .eof definitionOrRecover cursor).cursor.current.kind = .eof :=
      (repeatUntil_stops hc.toWf).elim id id
    rw [hi] at hs
    have ht : cursor.tokens = tokens ++ [middle.current] := by
      rw [hp.tokens, Cursor.tokens, (hc.passes hp).ahead_eq_nil hs]
    rw [ht, hp.current, filterMap_map, Function.id_comp, filterMap_some]
    exact .mk hs hd
  · intro h
    generalize ht : cursor.tokens = all at h
    obtain ⟨hl, hm⟩ := h
    rename_i tokens last definitions
    have hp : cursor.Passes tokens ⟨cursor.source, last, []⟩ := ⟨rfl, ht⟩
    have hu := hr.complete hc (Nat.lt_succ_self _) trivial hp
      (bind_pure_iff.mpr ⟨definitions, hm, rfl⟩) hl
    refine ⟨⟨cursor.source, last, []⟩, ?_⟩
    rw [document, bind_run rfl, bind_run hu, hp.current, filterMap_map, Function.id_comp, filterMap_some]
    rfl

variable {text : String} {document : Document}

theorem derives_of_parse {src : Nat} (h : parse src text = (document, [])) :
    (∀ tok ∈ tokenize text, tok.kind ≠ .error) ∧ Grammar.Derives (tokenize text) document := by
  obtain ⟨ht, hr⟩ := parse_readable (congrArg Prod.snd h)
  refine ⟨hr, ?_⟩
  rw [← ht]
  refine (document_iff (.of_tokenize ht hr)).mp
    ⟨(Parser.document (Cursor.ofTokens src (tokenize text)).1).cursor, ?_⟩
  obtain ⟨rfl, hd⟩ := Prod.mk.inj h
  rw [← (append_eq_nil_iff.mp hd).2]
  rfl

theorem parse_of_derives (src : Nat)
    (hr : ∀ tok ∈ tokenize text, tok.kind ≠ .error) (hd : Derives (tokenize text) document) :
    parse src text = (document, []) := by
  obtain ⟨last, hl, -⟩ := tokenize_ends text
  cases ht : tokenize text with
  | nil => rw [ht] at hl; cases hl
  | cons tok toks =>
    have hc : (Cursor.mk src tok toks).tokens = tokenize text := ht.symm
    obtain ⟨last, hu⟩ := (document_iff (.of_tokenize hc hr)).mpr (hc ▸ hd)
    have hf : tok.kind ≠ .error := hr tok (ht ▸ mem_cons_self)
    rw [parse, ht, Cursor.ofTokens, Cursor.skip, if_neg hf]
    dsimp only
    rw [hu]
    rfl

/-- **What is read without a report is what the grammar derives**, with the tree that it derives. -/
theorem parse_eq_iff (source : Nat) (text : String) (document : Document) : parse source text = (document, []) ↔
      (∀ token ∈ tokenize text, token.kind ≠ .error) ∧ Derives (tokenize text) document :=
  ⟨derives_of_parse, fun h => parse_of_derives source h.1 h.2⟩

/-- A text without definitions is read without a report, too. -/
theorem empty_text_readable : (parse 0 "").2 = [] ∧
    ¬∃ tokens last definitions, tokenize "" = tokens ++ [last] ∧ many1 definition tokens last definitions := by
  refine ⟨by decide +kernel, ?_⟩
  rintro ⟨tokens, last, definitions, htokens, hmany, hne⟩
  have hlength : (tokenize "").length = 1 := by decide +kernel
  obtain rfl : tokens = [] := by simpa [htokens] using hlength
  generalize hnil : ([] : List Token) = front at hmany
  cases hmany with
  | nil => exact hne rfl
  | cons hdefinition _ =>
    obtain ⟨token, rest, rfl, -⟩ := heads_definition _ _ _ hdefinition
    cases hnil

end GraphClient.Syntax
