import GraphClient.Proofs.Grammar.Productions
import GraphClient.Proofs.Grammar.Recognizes

/-!
# Recognizing names, values, types and directives

* **`Parser.recognizes_value`**, **`Parser.recognizes_typeExpr`**: values and types, by induction on the nesting
  that the tokens ahead allow.
-/

namespace GraphClient.Syntax

open List Rule Grammar Nat

/-! ## Names and descriptions -/

variable {token : Token} {v : Value} (constant : Bool)

namespace Grammar

theorem ne_of_isName {kind other : TokenKind} (ho : other.isName = false) (h : kind.isName) : kind ≠ other := by
  rintro rfl
  exact Bool.false_ne_true (ho.symm.trans h)

theorem heads_name : name.Heads fun token => token.kind.isName := .one fun _ _ h => h.1

def strings : List TokenKind := [.string, .blockString]

theorem Denotes.kind {text : String} (h : Denotes token text) : token.kind ∈ strings := by
  cases h with
  | string hk | block hk => simp [strings, hk]

theorem Denotes.unique {text other : String} (h : Denotes token text) (h' : Denotes token other) : other = text := by
  cases h with
  | string hk ht =>
    cases h' with
    | string _ ho => exact Except.ok.inj (ho.symm.trans ht)
    | block hb => cases hk.symm.trans hb
  | block hk =>
    cases h' with
    | string hs => cases hk.symm.trans hs
    | block => rfl

theorem heads_description : description.Heads fun token => ∃ text, Denotes token text :=
  .one fun _ description h => ⟨description.text, h.1⟩

end Grammar

namespace Parser

variable {n : Nat} {here follow : Token → Prop}

theorem recognizes_name : Recognizes n here name Grammar.name follow := by
  refine .current fun token _ => .ite (fun hn => ?_) fun hn => ?_
  · refine .one ?_
    rintro _ rfl
    exact ⟨ne_of_isName rfl hn, fun _ => and_iff_right hn⟩
  · refine .fails (fun _ _ => cons_ne_nil _ _) heads_name.first ?_
    rintro _ rfl
    exact hn

theorem recognizes_description {α : Type} {f : Option Description → Parser α} {g : Description → Rule α} {r : Rule α}
    (hso : ∀ token description, here token → description.span = token.span →
      Recognizes (n - 1) AnyToken (f (some description)) (g description) follow)
    (hn : Recognizes n (fun token => here token ∧ Avoids strings token) (f none) r follow)
    (hf : r.First follow (Avoids strings)) :
    Recognizes n here (description? >>= f) ((description >>= g) ⊔ r) follow := by
  have hta : ∀ token text, here token → Denotes token text →
      Recognizes n (· = token) (advance >>= fun _ => f (some ⟨text, token.span⟩)) ((description >>= g) ⊔ r)
        follow := by
    intro token text hh ht
    refine .left (.advance (c := ⟨text, token.span⟩) ?_ (hso token _ hh rfl)) hf ?_
    · rintro token rfl
      refine ⟨fun he => absurd (he ▸ ht.kind) (by decide), ?_⟩
      rintro ⟨other, span⟩
      constructor
      · rintro ⟨ho, hp⟩
        obtain rfl : span = token.span := hp
        exact congrArg (Description.mk · _) (ht.unique ho)
      · intro h
        exact h ▸ ⟨ht, rfl⟩
    · rintro token rfl ha
      exact ha ht.kind
  unfold description?
  rw [bind_assoc]
  refine .current fun token hh => ?_
  split
  next hk =>
    simp only [stringText, bind_assoc]
    refine .current ?_
    rintro token rfl
    split
    next text ht => exact hta token text hh (.string hk ht)
    next escape ht =>
      refine .fails (P := fun token => (∃ text, Denotes token text) ∨ Avoids strings token)
        (fun _ _ => cons_ne_nil _ _) ((heads_description.bind.mono fun _ h => .inl h).first.sup
          (hf.mono (fun _ h => h) fun _ h => .inr h)) ?_
      rintro token rfl (⟨text, hd⟩ | ha)
      · cases hd with
        | string _ ho => cases ho.symm.trans ht
        | block hb => cases hk.symm.trans hb
      · exact ha (by rw [hk]; decide)
  next hk =>
    rw [bind_assoc]
    exact hta token _ hh (.block hk)
  next hs hb =>
    have ha : Avoids strings token := by
      simp only [Avoids, strings, mem_cons, not_mem_nil, or_false, not_or]
      exact ⟨hs, hb⟩
    refine .right (hn.mono_here ?_) heads_description.bind.first ?_
    · rintro token rfl
      exact ⟨hh, ha⟩
    · rintro token rfl ⟨text, hd⟩
      exact ha hd.kind

end Parser

/-! ## Values -/

namespace Grammar

variable {constant : Bool} {value : Rule Value}

theorem valueOf_mono (constant : Bool) : Monotone (valueOf constant) := by
  intro value value' h
  have hf : objectField value ≤ objectField value' :=
    bind_mono le_rfl fun _ => bind_mono le_rfl fun _ => bind_mono h fun _ => le_rfl
  have hl : listValue value ≤ listValue value' :=
    bind_mono le_rfl fun _ => bind_mono (between_mono h) fun _ => le_rfl
  have ho : objectValue value ≤ objectValue value' :=
    bind_mono le_rfl fun _ => bind_mono (between_mono hf) fun _ => le_rfl
  exact sup_le_sup (sup_le_sup le_rfl hl) ho

theorem value_eq (constant : Bool) : Grammar.value constant = valueOf constant (Grammar.value constant) :=
  least_eq (valueOf_mono constant)

def valueAt (constant : Bool) (value : Rule Value) : TokenKind → Rule Value
  | .mark .dollar => variableUse constant
  | .keyword .trueWord => wordValue .trueWord (.boolean true)
  | .keyword .falseWord => wordValue .falseWord (.boolean false)
  | .keyword .nullWord => wordValue .nullWord .null
  | .mark .leftBracket => listValue value
  | .mark .leftBrace => objectValue value
  | _ => one Literal

theorem Literal.avoids (h : Literal token v) : Avoids [.eof, .mark .rightBracket] token := by
  intro hm
  cases h with
  | int hk | float hk => exact absurd (hk ▸ hm) (by decide)
  | string ht =>
    cases ht with
    | string hk | block hk => exact absurd (hk ▸ hm) (by decide)
  | enum hn => exact avoids_of_isName (by decide) hn hm

theorem Literal.unique {w : Value} (h : Literal token v) (h' : Literal token w) : w = v := by
  cases h with
  | int hk hv =>
    cases h' with
    | int _ hv' => rw [Option.some.inj (hv'.symm.trans hv)]
    | float hk' => cases hk.symm.trans hk'
    | string ht => exact absurd (hk ▸ ht.kind) (by decide)
    | enum hn => exact absurd (hk ▸ hn) (by decide)
  | float hk =>
    cases h' with
    | int hk' => cases hk.symm.trans hk'
    | float => rfl
    | string ht => exact absurd (hk ▸ ht.kind) (by decide)
    | enum hn => exact absurd (hk ▸ hn) (by decide)
  | string ht =>
    cases h' with
    | int hk' | float hk' => exact absurd (hk' ▸ ht.kind) (by decide)
    | string ht' => rw [ht.unique ht']
    | enum hn => exact absurd ht.kind (avoids_of_isName (by decide) hn)
  | enum hn =>
    cases h' with
    | int hk' | float hk' => exact absurd (hk' ▸ hn) (by decide)
    | string ht => exact absurd ht.kind (avoids_of_isName (by decide) hn)
    | enum => rfl

theorem valueAt_of_literal (h : Literal token v) : valueAt constant value token.kind = one Literal := by
  cases h with
  | int hk | float hk => rw [hk]; rfl
  | string ht =>
    cases ht with
    | string hk | block hk => rw [hk]; rfl
  | enum hk hr =>
    unfold valueAt
    split <;> simp_all [TokenKind.isName, TokenKind.isKeyword, reserved]

theorem valueOf_iff {ts : List Token} {next : Token} :
    valueOf constant value ts next v ↔ valueAt constant value (ts.headD next).kind ts next v := by
  have hh : ∀ {r : Rule Value} {kind : TokenKind}, r.Heads (fun token => token.kind = kind) → r ts next v →
      (ts.headD next).kind = kind := fun h hr => by
    obtain ⟨token, rest, rfl, hk⟩ := h _ _ _ hr
    exact hk
  have hw : ∀ {word make}, (wordValue word make).Heads fun token => token.kind = .keyword word :=
    .offset fun _ => (Heads.ofKind _).bind
  have hb : ∀ {first last : Mark} {α : Type} {item : Rule α} {f : Nat → List α → Rule Value},
      (offset >>= fun start => between first last item >>= f start).Heads fun token => token.kind = .mark first :=
    .offset fun _ => (Heads.ofKind _).bind.bind
  constructor
  · rintro ((((((h | h) | h) | h) | h) | h) | h)
    · rw [hh (Heads.ofKind _).bind h]
      exact h
    · obtain ⟨token, rfl, hl⟩ := id h
      rw [headD_cons, valueAt_of_literal hl]
      exact h
    all_goals
      first | rw [hh hw h] | rw [hh hb h]
      exact h
  · generalize (ts.headD next).kind = kind
    intro h
    unfold valueAt at h
    split at h
    · exact .inl (.inl (.inl (.inl (.inl (.inl h)))))
    · exact .inl (.inl (.inl (.inl (.inr h))))
    · exact .inl (.inl (.inl (.inr h)))
    · exact .inl (.inl (.inr h))
    · exact .inl (.inr h)
    · exact .inr h
    · exact .inl (.inl (.inl (.inl (.inl (.inr h)))))

theorem heads_value (constant : Bool) : (Grammar.value constant).Heads (Avoids [.eof, .mark .rightBracket]) := by
  have hk : ∀ {r : Rule Value} {kind : TokenKind}, r.Heads (fun token => token.kind = kind) →
      kind ∉ [TokenKind.eof, .mark .rightBracket] → r.Heads (Avoids [.eof, .mark .rightBracket]) :=
    fun h hn => h.mono fun _ he hm => hn (he ▸ hm)
  rw [value_eq]
  refine .sup (.sup (.sup (.sup (.sup (.sup ?_ (.one fun _ _ h => h.avoids)) ?_) ?_) ?_) ?_) ?_
  · exact hk (Heads.ofKind _).bind (by decide)
  all_goals first
    | exact hk (.offset fun _ => (Heads.ofKind _).bind) (by decide)
    | exact hk (.offset fun _ => (Heads.ofKind _).bind.bind) (by decide)

end Grammar

namespace Parser

variable {n : Nat} {here follow : Token → Prop}

theorem recognizes_literal (h : Literal token v) :
    Recognizes n (· = token) (advance >>= fun _ => pure v) (one Literal) follow := by
  refine .one ?_
  rintro token rfl
  exact ⟨fun he => h.avoids (by rw [he]; decide), fun w => ⟨h.unique, fun hq => hq ▸ h⟩⟩

theorem recognizes_no_literal {p : Parser Value} (hp : ∀ cur, (p cur).diagnostics ≠ [])
    (h : ∀ v, ¬Literal token v) : Recognizes n (· = token) p (one Literal) follow := by
  refine .fails (P := fun token => ∃ v, Literal token v) (fun cur _ => hp cur)
    (Heads.one fun _ v h => ⟨v, h⟩).first ?_
  rintro token rfl ⟨v, hv⟩
  exact h v hv

theorem recognizes_int (hk : token.kind = .int) : Recognizes n (· = token) int (one Literal) follow := by
  refine .current ?_
  rintro token rfl
  split
  next value hv => exact recognizes_literal (.int hk hv)
  next hv =>
    refine recognizes_no_literal (fun _ => cons_ne_nil _ _) fun v h => ?_
    cases h with
    | int _ hv' => cases hv.symm.trans hv'
    | float hk' => cases hk.symm.trans hk'
    | string ht => exact absurd (hk ▸ ht.kind) (by decide)
    | enum hn => exact absurd (hk ▸ hn) (by decide)

theorem recognizes_string (hk : token.kind = .string) :
    Recognizes n (· = token) (stringText >>= fun text => advance >>= fun _ => pure (.string text token.span))
      (one Literal) follow := by
  unfold stringText
  rw [bind_assoc]
  refine .current ?_
  rintro token rfl
  split
  next text ht => exact recognizes_literal (.string (.string hk ht))
  next escape ht =>
    refine recognizes_no_literal (fun _ => cons_ne_nil _ _) fun v h => ?_
    cases h with
    | int hk' | float hk' => cases hk.symm.trans hk'
    | string hd =>
      cases hd with
      | string _ ht' => cases ht.symm.trans ht'
      | block hk' => cases hk.symm.trans hk'
    | enum hn => exact absurd (hk ▸ hn) (by decide)

theorem recognizes_variableUse {constant : Bool} (hk : token.kind = .mark .dollar) :
    Recognizes n (· = token) (variableUse constant) (Grammar.variableUse constant) follow := by
  refine .position token.span.start (by rintro token rfl; rfl) ?_
  refine .advance_kind (by decide) (by rintro token rfl; exact hk) ?_
  refine .bind recognizes_name (fun _ => .any) fun name => ?_
  cases constant with
  | true => exact .fails (fun _ _ => cons_ne_nil _ _) Heads.bot.first fun _ _ h => h
  | false => exact .pure

theorem recognizes_wordValue {word : Keyword} {make : Span → Value} (hk : token.kind = .keyword word) :
    Recognizes n (· = token) (advance >>= fun _ => spanFrom token.span.start >>= fun span => pure (make span))
      (wordValue word make) follow := by
  refine .offset_rule token.span.start (by rintro token rfl; rfl) ?_
  refine .advance_kind (by simp) (by rintro token rfl; exact hk) ?_
  exact .spanFrom fun _ => .pure

theorem recognizes_objectField {value : Parser Value} [Built value] {r : Rule Value}
    (h : Recognizes n AnyToken value r AnyToken) :
    Recognizes n here (objectField value) (Grammar.objectField r) follow := by
  refine .bind recognizes_name (fun _ => .any) fun name => .expect (by decide) ?_
  exact .bind (h.mono (sub_le _ _) (fun _ h => h) fun _ h => h) (fun _ => .any) fun value => .pure

theorem recognizes_between {α : Type} {first last : Mark} {item : Parser α} [Built item] {r : Rule α}
    {make : List α → Span → Value} (hk : token.kind = .mark first)
    (hi : Recognizes (n - 1) AnyToken item r (Avoids [])) (hh : r.Heads (Avoids [.eof, .mark last])) :
    Recognizes n (· = token)
      (advance >>= fun _ => repeatUntil (.mark last) item >>= fun items => expect (.mark last) >>= fun _ =>
        spanFrom token.span.start >>= fun span => pure (make items span))
      (offset >>= fun start => between first last r >>= fun items => .spanFrom start >>= fun span =>
        pure (make items span)) follow := by
  refine .offset_rule token.span.start (by rintro token rfl; rfl) ?_
  rw [between_bind]
  refine .advance_kind (by simp) (by rintro token rfl; exact hk) ?_
  exact .untilMark hi hh not_mem_nil fun items => .spanFrom fun _ => .pure

theorem recognizes_valueWithin (levels : Nat) :
    Recognizes levels AnyToken (valueWithin constant levels) (Grammar.value constant) AnyToken := by
  induction levels with
  | zero => exact .zero
  | succ levels ih =>
    rw [value_eq]
    refine .current fun token _ => ?_
    refine .congr (r := valueAt constant (Grammar.value constant) token.kind) ?_ ?_ ?_
    · split
      next hk =>
        rw [hk]
        exact recognizes_variableUse hk
      next hk =>
        rw [hk]
        exact recognizes_int hk
      next hk =>
        rw [hk]
        exact recognizes_literal (.float hk)
      next hk =>
        rw [hk]
        exact recognizes_string hk
      next hk =>
        rw [hk]
        exact recognizes_literal (.string (.block hk))
      next hk =>
        rw [hk]
        exact recognizes_wordValue hk
      next hk =>
        rw [hk]
        exact recognizes_wordValue hk
      next hk =>
        rw [hk]
        exact recognizes_wordValue hk
      next hk =>
        rw [hk]
        exact recognizes_between hk (ih.mono_follow fun _ _ => trivial)
          (heads_value constant)
      next hk =>
        rw [hk]
        exact recognizes_between hk (recognizes_objectField ih)
          (heads_name.bind.mono fun _ h => avoids_of_isName (by decide) h)
      next hd hi hl hs hb hr hf hu hbr hbra =>
        have ha : valueAt constant (Grammar.value constant) token.kind = one Grammar.Literal := by
          unfold valueAt
          split <;> simp_all
        rw [ha]
        refine .ite (fun hn => ?_) fun hn => ?_
        · unfold name
          rw [bind_assoc]
          refine .current ?_
          rintro token rfl
          rw [if_pos hn, bind_assoc]
          refine recognizes_literal (.enum hn ?_)
          simp only [reserved, mem_cons, not_mem_nil, or_false, not_or]
          exact ⟨hr, hf, hu⟩
        · refine recognizes_no_literal (fun _ => cons_ne_nil _ _) fun v h => ?_
          cases h with
          | int hk => exact hi hk
          | float hk => exact hl hk
          | string ht =>
            cases ht with
            | string hk => exact hs hk
            | block hk => exact hb hk
          | enum hk => exact hn hk
    · rintro ts next v rfl h
      exact valueOf_iff.mpr h
    · rintro ts next v rfl _ h
      exact valueOf_iff.mp h

theorem recognizes_value : Recognizes n here (value constant) (Grammar.value constant) follow :=
  (Recognizes.counted fun levels => recognizes_valueWithin constant (levels + 1)).mono (le_refl n)
    (fun _ _ => trivial) fun _ _ => trivial

theorem recognizes_defaultValue (hf : ∀ token, follow token → token.kind ≠ .mark .equals) :
    Recognizes n here defaultValue? defaultValue follow := by
  unfold defaultValue? Grammar.defaultValue Rule.optional
  rw [Rule.bind_assoc]
  exact .eat (by decide) (.bind (recognizes_value true) (fun _ => .any) fun _ => .pure) .pure (.pure hf)

end Parser

/-! ## Types -/

namespace Grammar

theorem typeOf_mono : Monotone typeOf := fun _ _ h =>
  bind_mono le_rfl fun _ => bind_mono (sup_le_sup
    (bind_mono le_rfl fun _ => bind_mono h fun _ => le_rfl) le_rfl) fun _ => le_rfl

theorem typeExpr_eq : typeExpr = typeOf typeExpr := least_eq typeOf_mono

end Grammar

namespace Parser

variable {n : Nat} {here follow : Token → Prop}

theorem recognizes_bang (start : Nat) (type : TypeExpr) : Recognizes n here (eat (.mark .bang) >>= fun taken =>
        if taken then spanFrom start >>= fun span => pure (.nonNull type span) else pure type)
      ((mark .bang >>= fun _ => .spanFrom start >>= fun span => pure (.nonNull type span)) ⊔ pure type)
      fun token => token.kind ≠ .mark .bang :=
  .eat (by decide) (.spanFrom fun _ => .pure) .pure (.pure fun _ h => h)

theorem recognizes_typeWithin (levels : Nat) :
    Recognizes levels AnyToken (typeWithin levels) Grammar.typeExpr fun token => token.kind ≠ .mark .bang := by
  induction levels with
  | zero => exact .zero
  | succ levels ih =>
    rw [typeExpr_eq]
    refine .offset fun start => ?_
    simp only [Rule.sup_bind, Rule.bind_assoc, Rule.pure_bind]
    refine .eat (by decide) ?_ ?_ ?_
    · refine .bind ih (fun _ => ?_) fun inner => .expect (by decide) (.spanFrom fun _ => recognizes_bang start _)
      exact (Heads.ofKind _).bind.first.mono (fun _ h => h) fun _ h => by rw [h]; decide
    · exact .bind recognizes_name (fun _ => .any) fun _ => recognizes_bang start _
    · exact Grammar.heads_name.bind.first.mono (fun _ h => h) fun _ h => ne_of_isName rfl h

theorem recognizes_typeExpr (hf : ∀ token, follow token → token.kind ≠ .mark .bang) :
    Recognizes n here typeExpr Grammar.typeExpr follow :=
  (Recognizes.counted fun levels => recognizes_typeWithin (levels + 1)).mono (le_refl n)
    (fun _ _ => trivial) hf

/-! ## Arguments and directives -/

theorem recognizes_argument : Recognizes n here (argument constant) (Grammar.argument constant) follow := by
  refine .offset fun start => .bind recognizes_name (fun _ => .any) fun name => .expect (by decide) ?_
  exact .bind (recognizes_value constant) (fun _ => .any) fun value => .spanFrom fun _ => .pure

theorem recognizes_arguments {constant : Bool} (hf : ∀ token, follow token → token.kind ≠ .mark .leftParen) :
    Recognizes n here (arguments constant) (Grammar.arguments constant) follow := by
  have hh : (Grammar.argument constant).Heads (Avoids [.eof, .mark .rightParen]) :=
    .offset fun _ => heads_name.bind.mono fun _ h => avoids_of_isName (by decide) h
  exact .orEmpty [] (fun _ => recognizes_argument constant) hh not_mem_nil hf

end Parser

namespace Grammar

/-- The kinds that would continue the directives of an element. -/
def directiveTails : List TokenKind := [.mark .atSign, .mark .leftParen]

theorem heads_directive : (directive constant).Heads fun token => token.kind = .mark .atSign :=
  .offset fun _ => (Heads.ofKind _).bind

theorem first_directives {constant : Bool} {kinds : List TokenKind} (h : .mark .atSign ∉ kinds) :
    (directives constant).First (Avoids kinds) (Avoids kinds) :=
  .many ((heads_directive constant).mono fun _ => avoids_of_kind h)

end Grammar

namespace Parser

variable {n : Nat} {here follow : Token → Prop}

theorem recognizes_directive :
    Recognizes n (fun token => token.kind = .mark .atSign) (directive constant) (Grammar.directive constant)
      fun token => token.kind ≠ .mark .leftParen := by
  refine .offset fun start => .advance_kind (by decide) (fun _ h => h.1) ?_
  refine .bind recognizes_name (fun _ => .any) fun name => ?_
  exact .bind (recognizes_arguments fun _ h => h) (fun _ => .spanFrom fun _ => .pure fun _ h => h) fun arguments =>
    .spanFrom fun _ => .pure

/-- **Directives.** -/
theorem recognizes_directives {constant : Bool} (hf : ∀ token, follow token → Avoids directiveTails token) :
    Recognizes n here (directives constant) (Grammar.directives constant) follow := by
  refine (Recognizes.whileAt (recognizes_directive constant) (Grammar.heads_directive constant) fun token ht => ?_).mono
    (le_refl n) (fun _ h => h) fun token ht => ?_
  · rw [ht]
    decide
  · have ha := hf token ht
    simp only [Avoids, directiveTails, mem_cons, not_mem_nil, or_false, not_or] at ha
    exact ha

end Parser

end GraphClient.Syntax
