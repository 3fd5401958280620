import GraphClient.Proofs.Grammar.First
import GraphClient.Proofs.Syntax.Clean

/-!
# Parsers and rules

A parser recognizes a rule when its runs without reports are the derivations of the rule. A parser takes what it
can get, so not every derivation is found in front of every token: the token behind has to be none that the parser
would have taken, too.

* **`Recognizes.repeatUntil`**, **`Recognizes.whileAt`**: repetition.
-/

namespace GraphClient.Syntax

open List Syntax.Parser Rule Nat

/-! ## Ways -/

namespace Cursor

variable {cursor middle last : Cursor} {tokens front back : List Token}

structure Passes (cursor : Cursor) (tokens : List Token) (last : Cursor) : Prop where
  source : cursor.source = last.source
  tokens : cursor.tokens = tokens ++ last.tokens

namespace Passes

theorem refl (cursor : Cursor) : cursor.Passes [] cursor := ⟨rfl, rfl⟩

theorem trans (h : cursor.Passes front middle) (h' : middle.Passes back last) : cursor.Passes (front ++ back) last :=
  ⟨h.source.trans h'.source, by rw [h.tokens, h'.tokens, append_assoc]⟩

theorem current (h : cursor.Passes tokens last) : cursor.current = tokens.headD last.current := by
  have ht := h.tokens
  cases tokens with
  | nil | cons t rest => exact (cons.inj ht).1

theorem eq_of_nil (h : cursor.Passes [] last) : cursor = last := by
  obtain ⟨src, cur, ahead⟩ := cursor
  obtain ⟨rfl, ht⟩ := h
  obtain ⟨rfl, rfl⟩ := cons.inj ht
  rfl

theorem split (h : cursor.Passes (front ++ back) last) :
    ∃ middle, cursor.Passes front middle ∧ middle.Passes back last := by
  have hr : ∃ cur ahead, back ++ last.tokens = cur :: ahead := by
    cases back with
    | nil | cons t back => exact ⟨_, _, rfl⟩
  obtain ⟨cur, ahead, hr⟩ := hr
  refine ⟨⟨last.source, cur, ahead⟩, ⟨h.source, ?_⟩, ⟨rfl, hr.symm⟩⟩
  rw [h.tokens, append_assoc, hr]
  rfl

theorem length (h : cursor.Passes tokens last) : cursor.ahead.length = tokens.length + last.ahead.length := by
  have hl := congrArg List.length h.tokens
  simp only [Cursor.tokens, length_append, length_cons] at hl
  omega

end Passes

theorem Clear.of_suffix (h : cursor.Clear) (hs : last.tokens <:+ cursor.tokens) : last.Clear where
  ordered := h.ordered.sublist hs.sublist
  ends := by
    obtain ⟨t, ht, hk⟩ := h.ends
    obtain ⟨front, hf⟩ := hs
    refine ⟨t, ?_, hk⟩
    rw [← ht, ← hf, tokens, getLast?_append_cons]
  readable := fun t ht => h.readable t (hs.subset ht)
  single := h.single.sublist hs.sublist

theorem Clear.passes (h : cursor.Clear) (hp : cursor.Passes tokens last) : last.Clear :=
  h.of_suffix ⟨tokens, hp.tokens.symm⟩

theorem Clear.start_lt (h : cursor.Clear) {t : Token} (hp : cursor.Passes (t :: tokens) last) :
    cursor.current.span.start < last.current.span.start := by
  have ha : cursor.ahead = tokens ++ last.tokens := (cons.inj hp.tokens).2
  refine (pairwise_cons.mp h.ordered).1 _ ?_
  rw [ha]
  exact mem_append_right _ mem_cons_self

theorem Clear.advance (h : cursor.Clear) (hk : cursor.current.kind ≠ .eof) :
    ∃ next, advance cursor = ⟨(), next, []⟩ ∧ cursor.Passes [cursor.current] next := by
  cases ha : cursor.ahead with
  | nil => exact absurd ha (h.ahead_ne_nil hk)
  | cons t ahead =>
    have ht : t.kind ≠ .error := h.readable t (by simp [tokens, ha])
    refine ⟨⟨cursor.source, t, ahead⟩, ?_, rfl, by simp [tokens, ha]⟩
    simp only [Parser.advance, ha, Cursor.skip, if_neg ht]

end Cursor

variable {α β : Type} {cursor : Cursor}

theorem Built.clear {p : Parser α} (h : Built p) (hc : cursor.Clear) :
    (p cursor).cursor.Clear ∧ (p cursor).cursor.ahead.length ≤ cursor.ahead.length :=
  ⟨hc.of_suffix (h.suffix hc.toWf), le_of_succ_le_succ (h.suffix hc.toWf).length_le⟩

/-! ## Recognition -/

/-- **The parser recognizes the rule**, at tokens that satisfy `here` with less than `n` tokens ahead: what it reads
without a report is derived, and what is derived in front of a token that satisfies `follow` is read. -/
structure Recognizes {α : Type} (n : Nat) (here : Token → Prop) (p : Parser α) (r : Rule α) (follow : Token → Prop) :
    Prop where
  sound : ∀ {cursor last : Cursor} {a : α}, cursor.Clear → cursor.ahead.length < n → here cursor.current →
    p cursor = ⟨a, last, []⟩ → ∃ tokens, cursor.Passes tokens last ∧ r tokens last.current a
  complete : ∀ {cursor last : Cursor} {a : α} {tokens : List Token}, cursor.Clear → cursor.ahead.length < n →
    here cursor.current → cursor.Passes tokens last → r tokens last.current a → follow last.current →
    p cursor = ⟨a, last, []⟩

theorem Parser.bind_clean {p : Parser α} {f : α → Parser β} {last : Cursor} {b : β}
    (h : (p >>= f) cursor = ⟨b, last, []⟩) : ∃ a middle, p cursor = ⟨a, middle, []⟩ ∧ f a middle = ⟨b, last, []⟩ := by
  obtain ⟨hv, hc, hd⟩ := Outcome.mk.inj h
  obtain ⟨hf, hs⟩ := append_eq_nil_iff.mp hd
  refine ⟨(p cursor).value, (p cursor).cursor, ?_, ?_⟩
  · rw [← hf]
  · rw [← hv, ← hc, ← hs]

theorem Parser.pure_bind (a : α) (f : α → Parser β) : (pure a >>= f) = f a := rfl

theorem Parser.bind_assoc {γ : Type} (p : Parser α) (f : α → Parser β) (g : β → Parser γ) :
    (p >>= f >>= g) = p >>= fun a => f a >>= g := by
  funext cursor
  simp [bind_eq]

namespace Recognizes

variable {α β γ : Type} {n m : Nat} {here here' follow follow' P : Token → Prop} {p : Parser α} {r r' : Rule α}
  {f : α → Parser β} {g : α → Rule β}

/-! ### Changing the rule -/

theorem zero : Recognizes 0 here p r follow where
  sound := fun _ hn => absurd hn (not_lt_zero _)
  complete := fun _ hn => absurd hn (not_lt_zero _)

theorem mono (h : Recognizes n here p r follow) (hn : m ≤ n) (he : ∀ t, here' t → here t)
    (ho : ∀ t, follow' t → follow t) : Recognizes m here' p r follow' where
  sound := fun hc hm hh => h.sound hc (lt_of_lt_of_le hm hn) (he _ hh)
  complete := fun hc hm hh hp hr hf =>
    h.complete hc (lt_of_lt_of_le hm hn) (he _ hh) hp hr (ho _ hf)

theorem mono_here (h : Recognizes n here p r follow) (hh : ∀ t, here' t → here t) :
    Recognizes n here' p r follow := h.mono (le_refl n) hh fun _ h => h

theorem mono_follow (h : Recognizes n here p r follow) (hf : ∀ t, follow' t → follow t) :
    Recognizes n here p r follow' := h.mono (le_refl n) (fun _ h => h) hf

theorem congr (h : Recognizes n here p r follow)
    (hl : ∀ tokens next a, here (tokens.headD next) → r tokens next a → r' tokens next a)
    (hg : ∀ tokens next a, here (tokens.headD next) → follow next → r' tokens next a → r tokens next a) :
    Recognizes n here p r' follow where
  sound := fun hc hn hh hu => by
    obtain ⟨tokens, hp, hr⟩ := h.sound hc hn hh hu
    exact ⟨tokens, hp, hl _ _ _ (hp.current ▸ hh) hr⟩
  complete := fun hc hn hh hp hr hf =>
    h.complete hc hn hh hp (hg _ _ _ (hp.current ▸ hh) hf hr) hf

theorem left (h : Recognizes n here p r follow) (hi : r'.First follow P) (hn : ∀ t, here t → ¬P t) :
    Recognizes n here p (r ⊔ r') follow :=
  h.congr (fun _ _ _ _ hr => .inl hr) fun tokens next a hh hf hr => hr.elim id fun hr' =>
    absurd (hi tokens next a hr' hf) (hn _ hh)

theorem right (h : Recognizes n here p r' follow) (hi : r.First follow P) (hn : ∀ t, here t → ¬P t) :
    Recognizes n here p (r ⊔ r') follow :=
  h.congr (fun _ _ _ _ hr => .inr hr) fun tokens next a hh hf hr => hr.elim
    (fun hr' => absurd (hi tokens next a hr' hf) (hn _ hh)) id

theorem at_token (h : ∀ t, here t → Recognizes n (· = t) p r follow) : Recognizes n here p r follow where
  sound := fun hc hn hh hu => (h _ hh).sound hc hn rfl hu
  complete := fun hc hn hh hp hr hf => (h _ hh).complete hc hn rfl hp hr hf

theorem cases (c : Token → Prop) (ho : Recognizes n (fun t => here t ∧ c t) p r follow)
    (he : Recognizes n (fun t => here t ∧ ¬c t) p r follow) : Recognizes n here p r follow where
  sound := fun {cursor _ _} hc hn hh hu => by
    by_cases ha : c cursor.current
    · exact ho.sound hc hn ⟨hh, ha⟩ hu
    · exact he.sound hc hn ⟨hh, ha⟩ hu
  complete := fun {cursor _ _ _} hc hn hh hp hr hf => by
    by_cases ha : c cursor.current
    · exact ho.complete hc hn ⟨hh, ha⟩ hp hr hf
    · exact he.complete hc hn ⟨hh, ha⟩ hp hr hf

variable {q : Parser α} {a : α}

theorem run_congr (h : Recognizes n here q r follow)
    (hu : ∀ cursor : Cursor, here cursor.current → p cursor = q cursor) : Recognizes n here p r follow where
  sound := fun hc hn hh hp => h.sound hc hn hh ((hu _ hh).symm.trans hp)
  complete := fun hc hn hh ha hr hf => (hu _ hh).trans (h.complete hc hn hh ha hr hf)

/-- A parser that always reports recognizes a rule that derives nothing that starts here. -/
theorem fails (hp : ∀ cursor : Cursor, here cursor.current → (p cursor).diagnostics ≠ []) (hi : r.First follow P)
    (hn : ∀ t, here t → ¬P t) : Recognizes n here p r follow where
  sound := fun _ _ hh hu => absurd (congrArg Outcome.diagnostics hu) (hp _ hh)
  complete := fun _ _ hh ha hr hf => absurd (hi _ _ _ hr hf) (hn _ (ha.current ▸ hh))

theorem ite {c : Prop} [Decidable c] {p : Parser α} (hp : c → Recognizes n here p r follow)
    (hq : ¬c → Recognizes n here q r follow) : Recognizes n here (if c then p else q) r follow := by
  split_ifs with hc
  · exact hp hc
  · exact hq hc

theorem counted {p : Nat → Parser α} (h : ∀ n, Recognizes (n + 1) here (p n) r follow) :
    Recognizes n here (fun cursor => p cursor.ahead.length cursor : Parser α) r follow where
  sound := fun hc _ hh hu => (h _).sound hc (lt_succ_self _) hh hu
  complete := fun hc _ hh hp hr hf => (h _).complete hc (lt_succ_self _) hh hp hr hf

/-! ### One behind the other -/

theorem pure : Recognizes n here (pure a) (pure a) follow where
  sound := fun _ _ _ hu => by
    obtain ⟨rfl, rfl, -⟩ := Outcome.mk.inj hu
    exact ⟨[], .refl _, rfl, rfl⟩
  complete := fun _ _ _ hp hr _ => by
    obtain ⟨rfl, rfl⟩ := hr
    rw [hp.eq_of_nil]
    rfl

/-- One parser behind the other, where the first one yields the values of its rule in another form. -/
theorem bind_map [hu : Built p] {r : Rule γ} {view : γ → α} {g : γ → Rule β}
    (hp : Recognizes n here p (r >>= fun c => Pure.pure (view c)) follow') (hi : ∀ c, (g c).First follow follow')
    (hf : ∀ c, Recognizes n AnyToken (f (view c)) (g c) follow) : Recognizes n here (p >>= f) (r >>= g) follow where
  sound := fun {cursor last b} hc hn hh hru => by
    obtain ⟨a, middle, hfr, hb⟩ := bind_clean hru
    obtain ⟨hcl, hl⟩ := hu.clear hc
    rw [hfr] at hcl hl
    obtain ⟨front, ha, hv⟩ := hp.sound hc hn hh hfr
    obtain ⟨c, hr, rfl⟩ := bind_pure_iff.mp hv
    obtain ⟨back, hp', hg⟩ := (hf c).sound hcl (lt_of_le_of_lt hl hn) trivial hb
    exact ⟨front ++ back, ha.trans hp', front, back, c, rfl, hp'.current ▸ hr, hg⟩
  complete := fun {cursor last b tokens} hc hn hh ha hr ho => by
    obtain ⟨front, back, c, rfl, hr, hg⟩ := hr
    obtain ⟨middle, hfr, hb⟩ := ha.split
    rw [← hb.current] at hr
    have hm : follow' middle.current := hb.current ▸ hi c _ _ _ hg ho
    rw [bind_run (hp.complete hc hn hh hfr (bind_pure_iff.mpr ⟨c, hr, rfl⟩) hm)]
    refine (hf c).complete (hc.passes hfr) ?_ trivial hb hg ho
    exact lt_of_le_of_lt (le_trans (le_add_left _ _) hfr.length.ge) hn

theorem bind [Built p] (hp : Recognizes n here p r follow') (hi : ∀ a, (g a).First follow follow')
    (hf : ∀ a, Recognizes n AnyToken (f a) (g a) follow) : Recognizes n here (p >>= f) (r >>= g) follow := by
  have hv : Recognizes n here p (r >>= fun a => Pure.pure (id a)) follow' := by
    rwa [show (r >>= fun a => Pure.pure (id a)) = r from Rule.bind_pure]
  exact bind_map hv hi hf

theorem map [Built p] (h : Recognizes n here p r follow) {make : α → β} :
    Recognizes n here (p >>= fun a => Pure.pure (make a)) (r >>= fun a => Pure.pure (make a)) follow :=
  bind h (fun _ => .pure fun _ h => h) fun _ => pure

/-! ### Looking -/

theorem look (view : Token → γ) {f : γ → Parser α} (hf : ∀ t, here t → Recognizes n (· = t) (f (view t)) r follow) :
    Recognizes n here ((fun cursor => ⟨view cursor.current, cursor, []⟩ : Parser γ) >>= f) r follow where
  sound := fun hc hn hh hu => (hf _ hh).sound hc hn rfl ((bind_run rfl).symm.trans hu)
  complete := fun hc hn hh hp hr ho =>
    (bind_run rfl).trans ((hf _ hh).complete hc hn rfl hp hr ho)

theorem current {f : Token → Parser α} (hf : ∀ t, here t → Recognizes n (· = t) (f t) r follow) :
    Recognizes n here (current >>= f) r follow := look id hf

theorem kind {f : TokenKind → Parser α} (hf : ∀ t, here t → Recognizes n (· = t) (f t.kind) r follow) :
    Recognizes n here (.kind >>= f) r follow := look Token.kind hf

theorem atKind {kind : TokenKind} {f : Bool → Parser α}
    (ha : Recognizes n (fun t => here t ∧ t.kind = kind) (f true) r follow)
    (hn : Recognizes n (fun t => here t ∧ t.kind ≠ kind) (f false) r follow) :
    Recognizes n here (atKind kind >>= f) r follow := by
  refine look (fun t => t.kind == kind) fun t hh => ?_
  by_cases hk : t.kind = kind
  · rw [beq_iff_eq.mpr hk]
    exact ha.mono_here fun _ h => h ▸ ⟨hh, hk⟩
  · rw [beq_false_of_ne hk]
    exact hn.mono_here fun _ h => h ▸ ⟨hh, hk⟩

theorem atName {f : Bool → Parser α} (ha : Recognizes n (fun t => here t ∧ t.kind.isName) (f true) r follow)
    (hn : Recognizes n (fun t => here t ∧ t.kind.isName = false) (f false) r follow) :
    Recognizes n here (atName >>= f) r follow := by
  refine look (fun t => t.kind.isName) fun t hh => ?_
  cases hk : t.kind.isName with
  | true => exact ha.mono_here fun _ h => h ▸ ⟨hh, hk⟩
  | false => exact hn.mono_here fun _ h => h ▸ ⟨hh, hk⟩

theorem offset_rule {g : Nat → Rule α} (start : Nat) (hs : ∀ t, here t → t.span.start = start)
    (h : Recognizes n here p (g start) follow) : Recognizes n here p (offset >>= g) follow where
  sound := fun hc hn hh hu => by
    obtain ⟨tokens, hp, hg⟩ := h.sound hc hn hh hu
    refine ⟨tokens, hp, [], tokens, start, rfl, ⟨rfl, ?_⟩, hg⟩
    rw [← hs _ hh, hp.current]
  complete := fun hc hn hh hp hr hf => by
    obtain ⟨front, back, start', rfl, ⟨rfl, hs'⟩, hg⟩ := hr
    obtain rfl : start' = start := by
      rw [hs', ← hs _ hh, hp.current]
      rfl
    exact h.complete hc hn hh hp hg hf

theorem position {f : Nat → Parser α} (start : Nat) (hs : ∀ t, here t → t.span.start = start)
    (h : Recognizes n here (f start) r follow) : Recognizes n here (.position >>= f) r follow :=
  look (fun t => t.span.start) fun t hh => by
    rw [hs t hh]
    exact h.mono_here fun _ he => he ▸ hh

theorem offset {f : Nat → Parser α} {g : Nat → Rule α}
    (h : ∀ start, Recognizes n (fun t => here t ∧ t.span.start = start) (f start) (g start) follow) :
    Recognizes n here (.position >>= f) (.offset >>= g) follow := by
  refine at_token fun t hh => ?_
  have hs : ∀ other, other = t → other.span.start = t.span.start := fun _ he => he ▸ rfl
  refine offset_rule _ hs (position _ hs ((h _).mono_here ?_))
  rintro _ rfl
  exact ⟨hh, rfl⟩

theorem spanFrom {start : Nat} {f : Span → Parser α} {g : Span → Rule α}
    (h : ∀ span, Recognizes n here (f span) (g span) follow) :
    Recognizes n here (spanFrom start >>= f) (.spanFrom start >>= g) follow where
  sound := fun hc hn hh hu => by
    obtain ⟨tokens, hp, hg⟩ := (h _).sound hc hn hh ((bind_run rfl).symm.trans hu)
    exact ⟨tokens, hp, [], tokens, _, rfl, ⟨rfl, by rw [hp.current]⟩, hg⟩
  complete := fun hc hn hh hp hr hf => by
    obtain ⟨front, back, span, rfl, ⟨rfl, hs⟩, hg⟩ := hr
    refine (bind_run rfl).trans ?_
    rw [hp.current]
    exact hs ▸ (h span).complete hc hn hh hp hg hf

theorem notBefore {kind : TokenKind} {g : Unit → Rule α} (he : ∀ t, here t → t.kind ≠ kind)
    (h : Recognizes n here p (g ()) follow) : Recognizes n here p (.notBefore kind >>= g) follow := by
  refine h.congr (fun tokens next a hh hg => ⟨[], tokens, (), rfl, ⟨rfl, he _ hh⟩, hg⟩) ?_
  rintro _ next a - - ⟨front, back, ⟨⟩, rfl, ⟨rfl, -⟩, hg⟩
  exact hg

/-! ### Taking a token -/

/-- **A token is taken** and read as `c`. -/
theorem advance {read : Token → γ → Prop} {c : γ} {f : Unit → Parser α} {g : γ → Rule α}
    (he : ∀ tok, here tok → tok.kind ≠ .eof ∧ ∀ a, read tok a ↔ a = c)
    (hf : Recognizes (n - 1) AnyToken (f ()) (g c) follow) :
    Recognizes n here (advance >>= f) (one read >>= g) follow where
  sound := fun {cursor last a} hc hn hh hu => by
    obtain ⟨hk, he⟩ := he _ hh
    obtain ⟨next, hne, hp⟩ := hc.advance hk
    have hl := hp.length
    rw [bind_run hne] at hu
    obtain ⟨back, hb, hg⟩ := hf.sound (hc.passes hp) (by simp at hl; omega) trivial hu
    exact ⟨[cursor.current] ++ back, hp.trans hb, _, _, c, rfl, ⟨_, rfl, (he c).mpr rfl⟩, hg⟩
  complete := fun {cursor last a tokens} hc hn hh hp hr ho => by
    obtain ⟨front, back, d, rfl, ⟨tok, rfl, hd⟩, hg⟩ := hr
    obtain rfl : cursor.current = tok := hp.current
    obtain ⟨hk, he⟩ := he _ hh
    obtain rfl := (he d).mp hd
    obtain ⟨next, hne, hfr⟩ := hc.advance hk
    have hl := hfr.length
    have hb : next.Passes back last :=
      ⟨hfr.source.symm.trans hp.source, append_cancel_left (hfr.tokens.symm.trans
        (hp.tokens.trans (append_assoc _ _ _)))⟩
    rw [bind_run hne]
    exact hf.complete (hc.passes hfr) (by simp at hl; omega) trivial hb hg ho

theorem advance_kind {kind : TokenKind} {f : Unit → Parser α} {g : Unit → Rule α} (hk : kind ≠ .eof)
    (he : ∀ t, here t → t.kind = kind) (hf : Recognizes (n - 1) AnyToken (f ()) (g ()) follow) :
    Recognizes n here (.advance >>= f) (ofKind kind >>= g) follow :=
  advance (fun t hh => ⟨he t hh ▸ hk, fun _ => iff_of_true (he t hh) rfl⟩) hf

theorem expect {kind : TokenKind} {f : Unit → Parser α} {g : Unit → Rule α} (hk : kind ≠ .eof)
    (hf : Recognizes (n - 1) AnyToken (f ()) (g ()) follow) :
    Recognizes n here (.expect kind >>= f) (ofKind kind >>= g) follow := by
  refine .cases (fun t => t.kind = kind) ?_ ?_
  · refine run_congr (advance_kind hk (fun _ hh => hh.2) hf) fun cursor hh => ?_
    rw [bind_eq, expect_run, if_pos hh.2, bind_eq]
  · refine fails (fun cursor hh => ?_) (Heads.ofKind kind).bind.first fun t hh => hh.2
    rw [bind_eq, expect_run, if_neg hh.2]
    exact cons_ne_nil _ _

theorem eat {kind : TokenKind} {f : Bool → Parser α} {g : Unit → Rule α} (hk : kind ≠ .eof)
    (ht : Recognizes (n - 1) AnyToken (f true) (g ()) follow)
    (hl : Recognizes n (fun t => here t ∧ t.kind ≠ kind) (f false) r follow)
    (hf : r.First follow fun t => t.kind ≠ kind) :
    Recognizes n here (.eat kind >>= f) ((ofKind kind >>= g) ⊔ r) follow := by
  refine .cases (fun t => t.kind = kind) ?_ ?_
  · refine .left ?_ hf fun t hh hn => hn hh.2
    refine run_congr (advance_kind (f := fun _ => f true) hk (fun _ hh => hh.2) ht) fun cursor hh => ?_
    rw [bind_eq, eat_run, if_pos hh.2, bind_eq]
  · refine .right ?_ (Heads.ofKind kind).bind.first fun t hh => hh.2
    refine run_congr hl fun cursor hh => ?_
    rw [bind_eq, eat_run, if_neg hh.2]
    rfl

theorem eat_none {kind : TokenKind} {f : Bool → Parser α} (h : Recognizes n here (f false) r follow)
    (hn : ∀ t, here t → t.kind ≠ kind) : Recognizes n here (.eat kind >>= f) r follow := by
  refine run_congr h fun cursor hh => ?_
  rw [bind_eq, eat_run, if_neg (hn _ hh)]
  rfl

theorem one {read : Token → α → Prop} (hr : ∀ t, here t → t.kind ≠ .eof ∧ ∀ b, read t b ↔ b = a) :
    Recognizes n here (.advance >>= fun _ => Pure.pure a) (.one read) follow := by
  rw [← Rule.bind_pure (r := Rule.one read)]
  exact advance hr .pure

/-! ### Repetition -/

section Repetition

variable {body : Parser α}
  {cursor : Cursor} {last : Mark} {items : List α} {start : TokenKind} {f : List α → Parser β}

theorem sound_loopWithin {goes : TokenKind → Bool}
    (hbo : Recognizes n (fun t => goes t.kind) body r follow) (rounds : Nat) {last : Cursor} (hc : cursor.Clear)
    (hn : cursor.ahead.length < n)
    (hu : loopWithin goes body rounds cursor = ⟨items, last, []⟩) :
    ∃ tokens, cursor.Passes tokens last ∧ Many r tokens last.current items := by
  induction rounds generalizing cursor items with
  | zero =>
    obtain ⟨rfl, rfl, -⟩ := Outcome.mk.inj hu
    exact ⟨[], .refl _, .nil⟩
  | succ rounds ih =>
    rw [loopWithin, loopOf, bind_run rfl] at hu
    split_ifs at hu with hg
    · obtain ⟨a, middle, hi, hu⟩ := bind_clean hu
      obtain ⟨others, middle', ho, hu⟩ := bind_clean hu
      obtain ⟨rfl, rfl, -⟩ := Outcome.mk.inj hu
      obtain ⟨front, hf, hr⟩ := hbo.sound hc hn hg hi
      have hl := hf.length
      obtain ⟨back, hb, hm⟩ := ih (hc.passes hf) (by omega) ho
      exact ⟨_, hf.trans hb, .cons (hb.current ▸ hr) hm⟩
    · obtain ⟨rfl, rfl, -⟩ := Outcome.mk.inj hu
      exact ⟨[], .refl _, .nil⟩

theorem complete_loopWithin (goes : TokenKind → Bool)
    (hbo : Recognizes n (fun t => goes t.kind) body r follow) (hh : r.Heads P)
    (hP : ∀ t, P t → goes t.kind ∧ follow t) {tokens : List Token} {last : Cursor}
    (hm : Many r tokens last.current items) (hl : goes last.current.kind = false)
    (hfo : follow last.current) (hc : cursor.Clear) (hn : cursor.ahead.length < n)
    (hp : cursor.Passes tokens last) {rounds : Nat} (hro : tokens.length ≤ rounds) :
    loopWithin goes body rounds cursor = ⟨items, last, []⟩ := by
  generalize he : last.current = next at hm
  induction hm generalizing cursor rounds with
  | nil =>
    obtain rfl := hp.eq_of_nil
    cases rounds with
    | zero => rfl
    | succ rounds =>
      rw [loopWithin, loopOf, bind_run rfl, hl]
      rfl
  | @cons front back _ a rest hr hre ih =>
    subst he
    obtain ⟨t, others, rfl, ht⟩ := hh _ _ _ hr
    obtain ⟨middle, hf, hb⟩ := hp.split
    rw [length_append, length_cons] at hro
    obtain ⟨rounds, rfl⟩ : ∃ k, rounds = k + 1 := ⟨rounds - 1, by omega⟩
    have hu : goes cursor.current.kind := by rw [hp.current]; exact (hP t ht).1
    have hi : follow middle.current := by
      rw [hb.current]
      exact First.many (hh.mono fun t h => (hP t h).2) _ _ _ hre hfo
    have hle := hf.length
    have ho : loopWithin goes body rounds middle = ⟨rest, last, []⟩ :=
      ih (hc.passes hf) (by omega) hb (by omega) rfl
    rw [loopWithin, loopOf, bind_run rfl, if_pos hu,
      bind_run (hbo.complete hc hn hu hf (hb.current ▸ hr) hi), bind_run ho]
    rfl

/-- Every round takes a token, so none is skipped. -/
theorem round (hb : Recognizes n here body r follow) (he : r.Heads P) :
    Recognizes n here (.round body) r follow where
  sound := by
    intro cursor last a hc hn hh hu
    obtain ⟨_, _, ho, hre⟩ := bind_clean hu
    obtain ⟨rfl, rfl, -⟩ := Outcome.mk.inj ho
    obtain ⟨b, middle, hi, -⟩ := bind_clean hre
    obtain ⟨front, hf, hr⟩ := hb.sound hc hn hh hi
    obtain ⟨t, rest, rfl, -⟩ := he _ _ _ hr
    obtain ⟨rfl, rfl, -⟩ := Outcome.mk.inj ((round_run hi (hc.start_lt hf)).symm.trans hu)
    exact ⟨_, hf, hr⟩
  complete := by
    intro cursor last a tokens hc hn hh hp hr hfo
    have hi := hb.complete hc hn hh hp hr hfo
    obtain ⟨t, rest, rfl, -⟩ := he _ _ _ hr
    exact round_run hi (hc.start_lt hp)

theorem repeatUntil {stop : TokenKind} (hb : Recognizes n AnyToken body r follow) (hh : r.Heads P)
    (hP : ∀ t, P t → t.kind ≠ stop ∧ t.kind ≠ .eof ∧ follow t) (hs : ∀ t : Token, t.kind = stop → follow t) :
    Recognizes n here (.repeatUntil stop body) (Many r) fun t => t.kind = stop := by
  have hr : Recognizes n (fun t => (t.kind != stop && t.kind != .eof))
      (.round body) r follow := (hb.round hh).mono le_rfl (fun _ _ => trivial) fun _ h => h
  refine ⟨fun hc hn _ hu => ?_, fun hc hn _ hp hm hl => ?_⟩
  · exact sound_loopWithin hr _ hc hn hu
  · refine complete_loopWithin _ hr hh (fun t h => ?_) hm (by simp [hl]) (hs _ hl) hc hn
      hp (le_trans (le_add_right _ _) hp.length.ge)
    obtain ⟨hne, he, hf⟩ := hP t h
    exact ⟨by simp [hne, he], hf⟩

theorem whileAt (hi : Recognizes n (fun tok => tok.kind = start) body r follow)
    (hh : r.Heads fun tok => tok.kind = start) (hs : ∀ tok : Token, tok.kind = start → follow tok) :
    Recognizes n here (.whileAt start body) (Many r) fun tok => tok.kind ≠ start ∧ follow tok := by
  have hb : Recognizes n (fun tok => (tok.kind == start)) body r follow :=
    hi.mono le_rfl (fun _ => beq_iff_eq.mp) fun _ h => h
  refine ⟨fun hc hn _ hr => ?_, fun hc hn _ hp hm hl => ?_⟩
  · exact sound_loopWithin hb _ hc hn hr
  · exact complete_loopWithin (· == start) hb hh (fun tok h => ⟨beq_iff_eq.mpr h, hs tok h⟩) hm
      (beq_false_of_ne hl.1) hl.2 hc hn hp (le_trans (le_add_right _ _) hp.length.ge)

theorem whileAt_none {g : Rule β} (h : Recognizes n here (f []) g follow) (hn : ∀ t, here t → t.kind ≠ start) :
    Recognizes n here (.whileAt start body >>= f) g follow := by
  refine run_congr h fun cursor hh => bind_run ?_
  rw [Parser.whileAt, loop]
  cases cursor.ahead.length with
  | zero => rfl
  | succ rounds =>
    rw [loopWithin, loopOf, bind_run rfl, if_neg]
    · rfl
    · simpa using hn _ hh

/-- **Items up to a closing mark**, which is taken. -/
theorem untilMark {kinds : List TokenKind} [Built body] {g : List α → Rule β}
    (hb : Recognizes n AnyToken body r (Avoids kinds)) (hh : r.Heads (Avoids (.eof :: .mark last :: kinds)))
    (hl : .mark last ∉ kinds) (hf : ∀ items, Recognizes (n - 1) AnyToken (f items) (g items) follow) : Recognizes n here
      (.repeatUntil (.mark last) body >>= fun items => .expect (.mark last) >>= fun _ => f items)
      (Many r >>= fun items => mark last >>= fun _ => g items) follow := by
  refine .bind (.repeatUntil hb hh (fun t ha => ?_) fun _ => avoids_of_kind hl)
    (fun _ => (Heads.ofKind _).bind.first) fun items => .expect (by simp) (hf items)
  simp only [Avoids, mem_cons, not_or] at ha
  exact ⟨ha.2.1, ha.1, ha.2.2⟩

theorem orEmpty {first : Mark} [Built body] (kinds : List TokenKind)
    (hb : ∀ n, Recognizes n AnyToken body r (Avoids kinds))
    (hh : r.Heads (Avoids (.eof :: .mark last :: kinds))) (hl : .mark last ∉ kinds)
    (hf : ∀ t, follow t → t.kind ≠ .mark first) : Recognizes n here
      (.eat (.mark first) >>= fun taken => if taken then
        .repeatUntil (.mark last) body >>= fun items => .expect (.mark last) >>= fun _ => Pure.pure items
        else Pure.pure []) (.orEmpty (.between first last r)) follow :=
  .eat (by simp) (.untilMark (hb _) hh hl fun _ => .pure) .pure (.pure hf)

/-- **Items with marks between them.** -/
theorem separatedBy {sep : Mark} [Built body] (ht : ∀ n, Recognizes n AnyToken body r AnyToken)
    (he : r.Heads fun t => t.kind ≠ .mark sep) :
    Recognizes n here (.separatedBy (.mark sep) body) (separated sep r) fun t => t.kind ≠ .mark sep := by
  have hm : ∀ n, Recognizes n (fun t => t.kind = .mark sep) (.advance >>= fun _ => body)
      (mark sep >>= fun _ => r) AnyToken := fun n => advance_kind (by simp) (fun _ hh => hh) (ht _)
  have hi : ∀ {n here}, Recognizes n here
      (body >>= fun first => .whileAt (.mark sep) (.advance >>= fun _ => body) >>=
        fun rest => Pure.pure (first :: rest))
      (r >>= fun first => Many (mark sep >>= fun _ => r) >>= fun rest => Pure.pure (first :: rest))
      fun t => t.kind ≠ .mark sep := by
    intro n here
    refine .bind ((ht n).mono_here fun _ _ => trivial) (fun _ => .any) fun first => ?_
    exact .bind (.whileAt (hm n) (Heads.ofKind _).bind fun _ _ => trivial)
      (fun _ => .pure fun t h => ⟨h, trivial⟩) fun rest => .pure
  unfold Parser.separatedBy separated
  rw [sup_bind, Rule.pure_bind]
  exact .eat (by simp) hi hi he.bind.first

end Repetition

end Recognizes

end GraphClient.Syntax
