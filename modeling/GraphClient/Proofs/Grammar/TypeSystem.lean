import GraphClient.Proofs.Grammar.Literals

/-!
# Recognizing type system definitions

* **`Parser.recognizes_typeDefinition`**: types behind their descriptions.
-/

namespace GraphClient.Syntax

open List Rule Grammar Prod

/-! ## What follows -/

variable {make : List Directive → Span → α} {kinds : List TokenKind}

namespace Grammar

variable {α : Type} {kinds kinds' : List TokenKind}

theorem first_ending {constant : Bool} {start : Nat} (hs : kinds ⊆ kinds') (h : .mark .atSign ∉ kinds) :
    (directives constant >>= fun directives => spanFrom start >>= fun span => pure (make directives span)).First
      (Avoids kinds') (Avoids kinds) :=
  (first_directives h).bind fun _ => .spanFrom fun _ => .pure fun _ ht => ht.mono hs

/-- The kinds that would continue an input value. -/
def inputTails : List TokenKind := .mark .bang :: .mark .equals :: directiveTails

def fieldTails : List TokenKind := .mark .bang :: directiveTails

end Grammar

namespace Parser

variable {α : Type} {n : Nat} {here follow : Token → Prop}

/-! ## Members -/

/-- What has this description and goes on at `token` starts at `start`. -/
def StartsAt (description : Option Description) (start : Nat) (token : Token) : Prop :=
  (description.map fun description => description.span.start).getD token.span.start = start

theorem recognizes_described {f : Option Description → Parser α} {g : Nat → Option Description → Rule α}
    (h : ∀ n desc start, Recognizes n (StartsAt desc start) (f desc) (g start desc) follow)
    (hf : ∀ start, (g start none).First follow (Avoids strings)) :
    Recognizes n here (description? >>= f) (described g) follow := by
  refine .at_token fun t hh => .offset_rule t.span.start (by rintro t rfl; rfl) ?_
  rw [optional_bind]
  refine recognizes_description (fun other desc ho hs => ?_) ?_ (hf _)
  · refine (h _ (some desc) _).mono_here fun _ _ => ?_
    rw [← ho, ← hs]
    rfl
  · refine (h _ none _).mono_here fun other ho => ?_
    rw [ho.1]
    rfl

variable {start : Nat}

theorem recognizes_startOf {desc : Option Description} {f : Nat → Parser α} {r : Rule α}
    (he : ∀ t, here t → StartsAt desc start t) (h : Recognizes n here (f start) r follow) :
    Recognizes n here (startOf desc >>= f) r follow := by
  cases desc with
  | none => exact .position start he h
  | some desc =>
    refine h.run_congr fun cur hh => ?_
    obtain rfl : desc.span.start = start := he _ hh
    rfl

theorem recognizes_ending {constant : Bool}
    (hf : ∀ token, follow token → Avoids Grammar.directiveTails token) : Recognizes n here
      (directives constant >>= fun directives => spanFrom start >>= fun span => pure (make directives span))
      (Grammar.directives constant >>= fun directives => .spanFrom start >>= fun span =>
        pure (make directives span)) follow :=
  .bind (recognizes_directives hf) (fun _ => .spanFrom fun _ => .pure fun _ h => h) fun _ =>
    .spanFrom fun _ => .pure

theorem recognizes_inputType {make : TypeExpr → Option Value → List Directive → Span → α} :
    Recognizes n here (typeExpr >>= fun type => defaultValue? >>= fun value => directives true >>= fun directives =>
        spanFrom start >>= fun span => pure (make type value directives span))
      (Grammar.typeExpr >>= fun type => Grammar.defaultValue >>= fun value => Grammar.directives true >>=
        fun directives => .spanFrom start >>= fun span => pure (make type value directives span))
      (Avoids Grammar.inputTails) := by
  refine .bind (recognizes_typeExpr fun _ (h : Avoids [.mark .bang] _) => h.ne mem_cons_self)
    (fun type => ?_) fun type => ?_
  · exact (First.optional ((Heads.ofKind _).bind.mono fun _ => avoids_of_kind (by decide))).bind fun _ =>
      first_ending (by decide) (by decide)
  · refine .bind (recognizes_defaultValue fun _ (h : Avoids [.mark .equals] _) => h.ne mem_cons_self)
      (fun value => first_ending (by decide) (by decide)) fun value => ?_
    exact recognizes_ending fun _ h => h.mono (by decide)

theorem recognizes_inputValueDefinition :
    Recognizes n here inputValueDefinition Grammar.inputValueDefinition (Avoids Grammar.inputTails) := by
  refine recognizes_described (fun n desc start => recognizes_startOf (fun _ h => h) ?_) fun start => ?_
  · exact .bind recognizes_name (fun _ => .any) fun name => .expect (by decide) recognizes_inputType
  · exact heads_name.bind.first.mono (fun _ h => h) fun _ => avoids_of_isName (by decide)

end Parser

theorem Grammar.heads_described {α : Type} {name : Rule Name} {f : Nat → Option Description → Name → Rule α}
    (hn : name.Heads fun t => t.kind.isName) (hk : (kinds.all fun kind => !kind.isName))
    (hs : ∀ kind ∈ strings, kind ∉ kinds) :
    (described fun start desc => name >>= f start desc).Heads (Avoids kinds) := by
  refine .offset fun start => .optional (heads_description.mono ?_) (hn.bind.mono fun _ => avoids_of_isName hk)
  rintro t ⟨text, ht⟩
  exact hs _ ht.kind

namespace Parser

variable {α : Type} {n : Nat} {here follow : Token → Prop}

theorem recognizes_argumentDefinitions (hf : ∀ t, follow t → t.kind ≠ .mark .leftParen) :
    Recognizes n here argumentDefinitions Grammar.argumentDefinitions follow :=
  .orEmpty inputTails (fun _ => recognizes_inputValueDefinition)
    (heads_described heads_name (by decide) (by decide)) (by decide) hf

theorem recognizes_fieldDefinition :
    Recognizes n here fieldDefinition Grammar.fieldDefinition (Avoids Grammar.fieldTails) := by
  refine recognizes_described (fun n description start => recognizes_startOf (fun _ h => h) ?_) fun start => ?_
  · refine .bind recognizes_name (fun _ => .any) fun name => ?_
    refine .bind (recognizes_argumentDefinitions fun token (h : token.kind = .mark .colon) => by rw [h]; decide)
      (fun _ => (Heads.ofKind _).bind.first) fun arguments => .expect (by decide) ?_
    refine .bind (recognizes_typeExpr fun _ (h : Avoids [.mark .bang] _) => h.ne mem_cons_self)
      (fun type => first_ending (by decide) (by decide)) fun type => ?_
    exact recognizes_ending fun _ h => h.mono (by decide)
  · exact heads_name.bind.first.mono (fun _ h => h) fun _ => avoids_of_isName (by decide)

theorem recognizes_nameExcept (he : ∀ t, here t → t.kind ∉ kinds) :
    Recognizes n here name (Grammar.nameExcept kinds) follow := by
  refine recognizes_name.congr ?_ ?_
  · rintro _ next a hh ⟨t, rfl, hn, rfl⟩
    exact ⟨t, rfl, hn, he t hh, rfl⟩
  · rintro _ next a - - ⟨t, rfl, hn, -, rfl⟩
    exact ⟨t, rfl, hn, rfl⟩

theorem recognizes_enumValueDefinition :
    Recognizes n here enumValueDefinition Grammar.enumValueDefinition (Avoids Grammar.directiveTails) := by
  have hheads : (nameExcept reserved).Heads fun t =>
      t.kind.isName ∧ t.kind ∉ reserved := .one fun _ _ h => ⟨h.1, h.2.1⟩
  refine recognizes_described (fun n desc start => recognizes_startOf (fun _ h => h) ?_) fun start => ?_
  · refine .kind fun t _ => .ite (fun hr => ?_) fun hr => ?_
    · refine .fails (fun _ _ => cons_ne_nil _ _) hheads.bind.first ?_
      rintro t rfl ⟨-, hn⟩
      simp [reserved] at hn hr
      tauto
    · refine .bind (recognizes_nameExcept ?_) (fun _ => .any) fun name => recognizes_ending fun _ h => h
      simpa [reserved, and_assoc] using hr
  · exact hheads.bind.first.mono (fun _ h => h) fun _ h => avoids_of_isName (by decide) h.1

end Parser

/-! ## Types -/

namespace Grammar

variable {α : Type}

theorem first_noBody {follow : Token → Prop} :
    (notBefore (.mark .leftBrace) >>= fun _ => pure [] : Rule (List α)).First follow fun t =>
      follow t ∧ t.kind ≠ .mark .leftBrace :=
  First.notBefore.bind fun _ => .pure fun _ h => h

theorem first_body {item : Rule α} (h : .mark .leftBrace ∉ kinds) : (body item).First (Avoids kinds) (Avoids kinds) :=
  .sup ((Heads.ofKind _).bind.mono fun _ => avoids_of_kind h).first (first_noBody.mono (fun _ h => h) fun _ h => h.1)

/-- The kinds that would continue a type, apart from the brace of its body. -/
def typeTails : List TokenKind :=
  .keyword .implements :: .mark .ampersand :: .mark .equals :: .mark .pipe :: directiveTails

end Grammar

namespace Parser

variable {α β : Type} {n : Nat} {here follow : Token → Prop}

section

variable {item : Parser α} [Built item] {r : Rule α} (kinds : List TokenKind)
  (hitem : ∀ n, Recognizes n AnyToken item r (Avoids kinds))
  (hheads : r.Heads (Avoids (.eof :: .mark .rightBrace :: kinds))) (hlast : .mark .rightBrace ∉ kinds)

include hitem hheads hlast

theorem recognizes_bodyOf : Recognizes n here (bodyOf item) (Grammar.body r) follow :=
  .eat (by decide) (.untilMark (hitem _) hheads hlast fun _ => .pure) (.notBefore (fun _ h => h.2) .pure)
    (first_noBody.mono (fun _ h => h) fun _ h => h.2)

theorem recognizes_directivesBody {make : List Directive → List α → β} : Recognizes n here
      (directives true >>= fun directives => bodyOf item >>= fun items => pure (make directives items))
      (Grammar.directives true >>= fun directives => Grammar.body r >>= fun items => pure (make directives items))
      (Avoids Grammar.typeTails) := by
  refine .bind (recognizes_directives fun _ h => h) (fun directives => ?_) fun directives => ?_
  · exact (first_body (by decide)).bind fun _ => .pure fun _ h => h.mono (by decide)
  · exact .bind (recognizes_bodyOf kinds hitem hheads hlast) (fun _ => .any) fun items => .pure

end

theorem recognizes_names {first : TokenKind} {sep : Mark} (hf : first ≠ .eof) : Recognizes n here
      (eat first >>= fun taken => if taken then separatedBy (.mark sep) name else pure [])
      (orEmpty (ofKind first >>= fun _ => separated sep Grammar.name)) (Avoids [first, .mark sep]) := by
  have hheads : Grammar.name.Heads fun t => t.kind ≠ .mark sep :=
    Grammar.heads_name.mono fun _ h => Grammar.ne_of_isName rfl h
  refine .eat hf ?_ .pure (.pure fun _ h => h.ne mem_cons_self)
  exact (Recognizes.separatedBy (fun _ => recognizes_name) hheads).mono_follow fun _ h =>
    h.ne (mem_cons_of_mem _ mem_cons_self)

theorem recognizes_implements :
    Recognizes n here implements Grammar.implements (Avoids [.keyword .implements, .mark .ampersand]) :=
  recognizes_names (by decide)

theorem recognizes_unionMembers :
    Recognizes n here unionMembers Grammar.unionMembers (Avoids [.mark .equals, .mark .pipe]) :=
  recognizes_names (by decide)

theorem recognizes_fieldsType {make : List Name → List FieldDefinition → TypeBody} : Recognizes n here
      (implements >>= fun names => directives true >>= fun directives => bodyOf fieldDefinition >>= fun fields =>
        pure (directives, make names fields))
      (Grammar.implements >>= fun names => Grammar.directives true >>= fun directives =>
        Grammar.body Grammar.fieldDefinition >>= fun fields => pure (directives, make names fields))
      (Avoids Grammar.typeTails) := by
  refine .bind recognizes_implements (fun names => ?_) fun names => ?_
  · exact (first_directives (by decide)).bind fun _ => (first_body (by decide)).bind fun _ =>
      .pure fun _ h => h.mono (by decide)
  · exact recognizes_directivesBody fieldTails (fun _ => recognizes_fieldDefinition)
      (heads_described heads_name (by decide) (by decide)) (by decide)

variable {word : Keyword}

theorem recognizes_typeBody (hw : typeKeyword? (.keyword word) = some word) :
    Recognizes n here (typeBody word) (typeRest word) (Avoids Grammar.typeTails) := by
  unfold typeBody typeRest
  split
  next => exact .map (recognizes_directives fun _ h => h.mono (by decide))
  next => exact recognizes_fieldsType
  next => exact recognizes_fieldsType
  next =>
    refine .bind (recognizes_directives fun _ h => h) (fun dirs => ?_) fun dirs => ?_
    · exact (First.orEmpty ((Heads.ofKind _).bind.mono fun _ => avoids_of_kind (by decide))).bind fun _ =>
        .pure fun _ h => h.mono (by decide)
    · exact .bind recognizes_unionMembers (fun _ => .pure fun _ h => h.mono (by decide)) fun _ => .pure
  next =>
    exact recognizes_directivesBody directiveTails (fun _ => recognizes_enumValueDefinition)
      (heads_described (.one fun _ _ h => h.1) (by decide) (by decide)) (by decide)
  next hs ht hi hu he =>
    obtain rfl : word = .input := by cases word <;> simp_all [typeKeyword?]
    exact recognizes_directivesBody inputTails (fun _ => recognizes_inputValueDefinition)
      (heads_described heads_name (by decide) (by decide)) (by decide)

theorem typeKeyword?_eq_some {kind : TokenKind} (h : typeKeyword? kind = some word) : kind = .keyword word := by
  unfold typeKeyword? at h
  split at h <;> cases h <;> rfl

end Parser

theorem Grammar.heads_typeDefinition (start : Nat) (desc : Option Description) :
    (typeDefinition start desc).Heads fun t => (Parser.typeKeyword? t.kind).isSome := by
  rintro ts next a ⟨front, back, word, rfl, ⟨t, rfl, hk⟩, ⟨front', back', name, rfl, hn, hr⟩⟩
  refine ⟨t, _, rfl, ?_⟩
  obtain ⟨_, _, rest, -, hr, -⟩ := hr
  rw [hk]
  unfold typeRest at hr
  split at hr
  case h_7 => exact hr.elim
  all_goals rfl

theorem Grammar.operationWords_unique {word : TokenKind} {kind other : OperationKind}
    (h : (word, kind) ∈ operationWords) (h' : (word, other) ∈ operationWords) : other = kind := by
  simp only [operationWords, mem_cons, not_mem_nil, or_false] at h h'
  rcases h with ⟨rfl, rfl⟩ | ⟨rfl, rfl⟩ | ⟨rfl, rfl⟩ <;> simpa using h'

theorem Grammar.heads_operationType : operationType.Heads fun t => t.kind.isName := by
  refine .one fun t kind h => ?_
  simp only [operationWords, mem_cons, mk.injEq, not_mem_nil, or_false] at h
  rcases h with ⟨h, -⟩ | ⟨h, -⟩ | ⟨h, -⟩ <;> rw [h] <;> rfl

namespace Parser

variable {α β : Type} {n : Nat} {here follow : Token → Prop} (desc : Option Description)

theorem recognizes_typeDefinition (start : Nat) : Recognizes n here (typeDefinition? desc start)
      (typeDefinition start desc >>= fun defn => pure (some defn)) (Avoids Grammar.typeTails) := by
  refine .kind fun t _ => ?_
  split
  next hn =>
    refine .fails (fun _ _ => cons_ne_nil _ _) (heads_typeDefinition _ _).bind.first ?_
    rintro t rfl hs
    rw [hn] at hs
    cases hs
  next word hw =>
    have hk := typeKeyword?_eq_some hw
    simp only [typeDefinition, Rule.bind_assoc, Rule.pure_bind]
    refine .advance (c := word) ?_ (.bind recognizes_name (fun _ => .any) fun name => ?_)
    · rintro t rfl
      refine ⟨by rw [hk]; simp, fun other => ?_⟩
      rw [hk, TokenKind.keyword.injEq]
      exact eq_comm
    · exact .bind (recognizes_typeBody (hk ▸ hw)) (fun _ => .spanFrom fun _ => .pure fun _ h => h) fun rest =>
        .spanFrom fun _ => .pure

/-! ## Schemas -/

theorem recognizes_operationKind {f : Option OperationKind → Parser α} {g : OperationKind → Rule α} {r : Rule α}
    (ho : ∀ kind, Recognizes (n - 1) AnyToken (f (some kind)) (g kind) follow)
    (hn : Recognizes n (fun tok => here tok ∧ Avoids (operationWords.map Prod.fst) tok) (f none) r
      follow) (hf : r.First follow (Avoids (operationWords.map Prod.fst))) :
    Recognizes n here (operationKind? >>= f) ((operationType >>= g) ⊔ r) follow := by
  have ht : ∀ tok kind, (tok.kind, kind) ∈ operationWords →
      Recognizes n (· = tok) (advance >>= fun _ => f (some kind)) ((operationType >>= g) ⊔ r) follow := by
    intro tok kind hm
    refine .left (.advance (c := kind) ?_ (ho kind)) hf ?_
    · rintro tok rfl
      refine ⟨fun he => absurd (he ▸ hm) (by cases kind <;> decide), fun other => ?_⟩
      exact ⟨operationWords_unique hm, fun heq => heq ▸ hm⟩
    · rintro tok rfl ha
      exact ha (mem_map_of_mem hm)
  unfold operationKind?
  rw [bind_assoc]
  refine .kind fun tok hh => ?_
  split
  next hk =>
    rw [bind_assoc]
    exact ht tok _ (by rw [hk]; decide)
  next hk =>
    rw [bind_assoc]
    exact ht tok _ (by rw [hk]; decide)
  next hk =>
    rw [bind_assoc]
    exact ht tok _ (by rw [hk]; decide)
  next hq hu hs =>
    have ha : Avoids (operationWords.map fst) tok := by
      simp only [Avoids, operationWords, map_cons, map_nil, mem_cons, not_mem_nil, or_false, not_or]
      exact ⟨hq, hu, hs⟩
    have hheads : operationType.Heads fun tok => tok.kind ∈ operationWords.map fst :=
      .one fun _ _ h => mem_map_of_mem h
    refine .right (hn.mono_here ?_) hheads.bind.first ?_
    · rintro tok rfl
      exact ⟨hh, ha⟩
    · rintro tok rfl hm
      exact ha hm

theorem recognizes_rootDefinition :
    Recognizes n here rootDefinition? (rootDefinition >>= fun root => pure (some root)) follow := by
  unfold rootDefinition? rootDefinition
  simp only [Rule.bind_assoc, Rule.pure_bind]
  refine .offset fun start => ?_
  rw [← sup_bot_eq (operationType >>= _)]
  refine recognizes_operationKind (fun kind => ?_) ?_ Heads.bot.first
  · exact .expect (by decide) (.bind recognizes_name (fun _ => .any) fun type => .spanFrom fun _ => .pure)
  · exact .fails (fun _ _ => cons_ne_nil _ _) Heads.bot.first fun _ _ h => h

theorem recognizes_roots {f : List RootDefinition → Parser α} {g : List RootDefinition → Rule α}
    (hf : ∀ n roots, Recognizes n AnyToken (f roots) (g roots) follow) : Recognizes n here
      (expect (.mark .leftBrace) >>= fun _ => repeatUntil (.mark .rightBrace) rootDefinition? >>= fun roots =>
        expect (.mark .rightBrace) >>= fun _ => f (roots.filterMap id))
      (between .leftBrace .rightBrace rootDefinition >>= g) follow := by
  have hheads : (rootDefinition >>= fun root => pure (some root)).Heads (Avoids [.eof, .mark .rightBrace]) :=
    .bind (.offset fun _ => heads_operationType.bind.mono fun _ => avoids_of_isName (by decide))
  rw [between_bind, ← many_some]
  exact .expect (by decide) (.untilMark recognizes_rootDefinition hheads not_mem_nil fun _ => hf _ _)

theorem recognizes_schemaDefinition (start : Nat) (hh : ∀ t, here t → t.kind = .keyword .schema) :
    Recognizes n here (schemaDefinition desc start false) (Grammar.schemaDefinition start desc) follow := by
  refine .advance_kind (by decide) hh ?_
  refine .bind (recognizes_directives fun _ h => h) (fun _ => ?_) fun dirs => ?_
  · exact (Heads.ofKind _).bind.bind.first.mono (fun _ h => h) fun _ => avoids_of_kind (by decide)
  · exact .atKind (recognizes_roots fun _ _ => .spanFrom fun _ => .pure)
      (recognizes_roots fun _ _ => .spanFrom fun _ => .pure)

theorem recognizes_schemaExtension (start : Nat) (he : ∀ t, here t → t.kind = .keyword .schema) :
    Recognizes n here (schemaDefinition none start true) (schemaExtension start) (Avoids Grammar.directiveTails) := by
  refine .advance_kind (by decide) he ?_
  refine .bind (recognizes_directives fun _ h => h) (fun _ => ?_) fun dirs => ?_
  · exact (Grammar.first_body (by decide)).bind fun _ => .spanFrom fun _ => .pure fun _ h => h
  · rw [Grammar.body, Rule.sup_bind]
    refine .atKind ?_ ?_
    · exact .left (recognizes_roots fun _ _ => .spanFrom fun _ => .pure)
        (first_noBody.bind fun _ => .spanFrom fun _ => .pure fun _ h => h) fun _ hh hn => hn.2 hh.2
    · refine .right ?_ (Heads.ofKind _).bind.bind.first fun _ hh => hh.2
      rw [Rule.bind_assoc]
      refine .notBefore (fun _ hh => hh.2) ?_
      simp only [Rule.pure_bind, Parser.pure_bind]
      exact .spanFrom fun _ => .pure

/-! ## Directives -/

theorem recognizes_directiveLocation :
    Recognizes n here directiveLocation? (directiveLocation >>= fun loc => pure (some loc)) follow := by
  refine .current fun t _ => ?_
  dsimp only
  split
  next loc hl =>
    obtain ⟨hn, ht⟩ : t.kind.isName ∧ DirectiveLocation.ofText? t.text = some loc := by
      split_ifs at hl with hn
      exact ⟨hn, hl⟩
    refine .advance (c := (loc, t.span)) ?_ .pure
    rintro t rfl
    refine ⟨Grammar.ne_of_isName rfl hn, ?_⟩
    rintro ⟨other, span⟩
    constructor
    · rintro ⟨-, ho, rfl⟩
      rw [Option.some.inj (ho.symm.trans ht)]
    · rintro ⟨⟩
      exact ⟨hn, ht, rfl⟩
  next hno =>
    refine .fails (P := fun t => t.kind.isName ∧ (DirectiveLocation.ofText? t.text).isSome)
      (fun _ _ => cons_ne_nil _ _) (Heads.bind (.one ?_)).first ?_
    · rintro t ⟨loc, span⟩ ⟨hn, ht, -⟩
      exact ⟨hn, by rw [ht]; rfl⟩
    · rintro t rfl ⟨hn, hs⟩
      rw [if_pos hn] at hno
      rw [hno] at hs
      cases hs

theorem recognizes_directiveDefinition (desc : Option Description) (start : Nat)
    (hh : ∀ t, here t → t.kind = .keyword .directive) (hs : ∀ t, here t → StartsAt desc start t) :
    Recognizes n here (directiveDefinition desc) (Grammar.directiveDefinition start desc)
      fun t => t.kind ≠ .mark .pipe := by
  have hheads : (directiveLocation >>= fun loc => pure (some loc)).Heads
      fun t => t.kind ≠ .mark .pipe := by
    refine Heads.bind (.one ?_)
    rintro t ⟨loc, span⟩ ⟨hn, -⟩
    exact Grammar.ne_of_isName rfl hn
  have hl : ∀ n name args rep, Recognizes n AnyToken
      (expect (.keyword .on) >>= fun _ => separatedBy (.mark .pipe) directiveLocation? >>= fun locs =>
        spanFrom start >>= fun span =>
        pure (DirectiveDefinition.mk desc name args rep (locs.filterMap id) span))
      (keyword .on >>= fun _ => separated .pipe directiveLocation >>= fun locs =>
        Rule.spanFrom start >>= fun span => pure ⟨desc, name, args, rep, locs, span⟩)
      fun t => t.kind ≠ .mark .pipe := by
    intro n name args rep
    refine .expect (by decide) ?_
    rw [← separated_some]
    exact .bind (.separatedBy (fun _ => recognizes_directiveLocation) hheads)
      (fun _ => .spanFrom fun _ => .pure fun _ h => h) fun locs => .spanFrom fun _ => .pure
  refine recognizes_startOf hs (.advance_kind (by decide) hh (.expect (by decide) ?_))
  refine .bind recognizes_name (fun _ => .any) fun name => ?_
  simp only [Rule.sup_bind, Rule.bind_assoc, Rule.pure_bind]
  refine .bind (recognizes_argumentDefinitions fun _ (h : Avoids [.mark .leftParen] _) => h.ne mem_cons_self)
    (fun args => .sup ?_ ?_) fun args => ?_
  iterate 2 · exact (Heads.ofKind _).bind.first.mono (fun _ h => h) fun _ => avoids_of_kind (by decide)
  · refine .eat (by decide) (hl _ _ _ _) ?_ ?_
    · exact (hl _ _ _ _).mono_here fun _ _ => trivial
    · exact (Heads.ofKind _).bind.first.mono (fun _ h => h) fun _ h => by rw [h]; decide

end Parser

end GraphClient.Syntax
