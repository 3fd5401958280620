import GraphClient.Proofs.Grammar.Rule

/-!
# First tokens

Which tokens the derivations of a rule can start with. A rule that derives nothing at all lets the token behind it
come first.
-/

namespace GraphClient.Syntax

def AnyToken (_ : Token) : Prop := True

def Avoids (kinds : List TokenKind) (token : Token) : Prop := token.kind ∉ kinds

variable {tok : Token} {kind : TokenKind}

theorem Avoids.mono {kinds kinds' : List TokenKind} (h : kinds' ⊆ kinds) (ht : Avoids kinds tok) :
    Avoids kinds' tok := fun hm => ht (h hm)

variable {kinds : List TokenKind}

theorem Avoids.ne (h : kind ∈ kinds) {t : Token} (ht : Avoids kinds t) : t.kind ≠ kind := fun he => ht (he ▸ h)

theorem avoids_of_kind (hn : kind ∉ kinds) (h : tok.kind = kind) : Avoids kinds tok := fun hm => hn (h ▸ hm)

theorem avoids_of_isName (h : (kinds.all fun kind => !kind.isName))
    (hn : tok.kind.isName) : Avoids kinds tok := fun hm => by
  have := List.all_eq_true.mp h _ hm
  rw [hn] at this
  cases this

namespace Rule

variable {α β : Type} {follow P P' Q : Token → Prop}

/-- In front of a token that satisfies `follow`, what is derived starts with a token that satisfies `P`, or there is
nothing and that token satisfies `P`. -/
def First (r : Rule α) (follow P : Token → Prop) : Prop :=
  ∀ tokens next a, r tokens next a → follow next → P (tokens.headD next)

/-- What is derived starts with a token that satisfies `P`. -/
def Heads (r : Rule α) (P : Token → Prop) : Prop :=
  ∀ tokens next a, r tokens next a → ∃ token rest, tokens = token :: rest ∧ P token

namespace First

variable {r r' : Rule α} {f : α → Rule β}

theorem any : First r follow AnyToken := fun _ _ _ _ _ => trivial

theorem mono (h : First r follow P) (hf : ∀ t, Q t → follow t) (hP : ∀ t, P t → P' t) :
    First r Q P' := fun ts next a hr hn => hP _ (h ts next a hr (hf next hn))

theorem pure {a : α} (h : ∀ t, follow t → P t) : First (pure a) follow P := by
  rintro ts next b ⟨rfl, -⟩ hn
  exact h next hn

theorem bind (hr : First r P' P) (hf : ∀ a, First (f a) follow P') : First (r >>= f) follow P := by
  rintro ts next b ⟨front, back, a, rfl, hfr, hb⟩ hn
  have hm := hr _ _ _ hfr (hf a _ _ _ hb hn)
  cases front with
  | nil | cons t front => exact hm

theorem sup (hr : First r follow P) (hr' : First r' follow P) : First (r ⊔ r') follow P :=
  fun ts next a h hn => h.elim (fun h => hr ts next a h hn) fun h => hr' ts next a h hn

theorem offset {f : Nat → Rule β} (h : ∀ start, First (f start) follow P) : First (offset >>= f) follow P := by
  have hl : Rule.offset.First P P := by
    rintro ts next start ⟨rfl, -⟩ hn
    exact hn
  exact hl.bind h

theorem spanFrom {start : Nat} {f : Span → Rule β} (h : ∀ span, First (f span) follow P) :
    First (spanFrom start >>= f) follow P := by
  have hl : (Rule.spanFrom start).First P P := by
    rintro ts next span ⟨rfl, -⟩ hn
    exact hn
  exact hl.bind h

theorem notBefore {kind : TokenKind} : First (notBefore kind) follow fun t => follow t ∧ t.kind ≠ kind := by
  rintro ts next ⟨⟩ ⟨rfl, hk⟩ hn
  exact ⟨hn, hk⟩

theorem many (h : Heads r P) : First (Many r) P P := by
  intro ts next items hi hn
  induction hi with
  | nil => exact hn
  | cons ht _ ih =>
    obtain ⟨t, rest, rfl, hP⟩ := h _ _ _ ht
    exact hP

theorem optional (h : Heads r P) : First (optional r) P P := by
  rintro ts next a (⟨front, back, b, rfl, hr, rfl, -⟩ | ⟨rfl, -⟩) hn
  · obtain ⟨t, rest, rfl, hP⟩ := h _ _ _ hr
    exact hP
  · exact hn

theorem orEmpty {r : Rule (List α)} (h : Heads r P) : First (orEmpty r) P P := by
  rintro ts next a (hr | ⟨rfl, -⟩) hn
  · obtain ⟨t, rest, rfl, hP⟩ := h _ _ _ hr
    exact hP
  · exact hn

end First

namespace Heads

variable {r r' : Rule α} {f : α → Rule β}

theorem first (h : Heads r P) : First r follow P := by
  intro ts next a hr _
  obtain ⟨t, rest, rfl, hP⟩ := h ts next a hr
  exact hP

theorem mono (h : Heads r P) (hP : ∀ t, P t → P' t) : Heads r P' := by
  intro ts next a hr
  obtain ⟨t, rest, ht, ho⟩ := h ts next a hr
  exact ⟨t, rest, ht, hP t ho⟩

theorem one {read : Token → α → Prop} (h : ∀ t a, read t a → P t) : Heads (one read) P := by
  rintro ts next a ⟨t, rfl, hr⟩
  exact ⟨t, [], rfl, h t a hr⟩

theorem ofKind (kind : TokenKind) : Heads (ofKind kind) fun t => t.kind = kind := one fun _ _ h => h

theorem bind (h : Heads r P) : Heads (r >>= f) P := by
  rintro ts next b ⟨front, back, a, rfl, hf, -⟩
  obtain ⟨t, rest, rfl, hP⟩ := h _ _ _ hf
  exact ⟨t, rest ++ back, rfl, hP⟩

theorem sup (h : Heads r P) (h' : Heads r' P) : Heads (r ⊔ r') P :=
  fun ts next a hr => hr.elim (h ts next a) (h' ts next a)

theorem bot : Heads (⊥ : Rule α) P := fun _ _ _ h => h.elim

theorem offset {f : Nat → Rule β} (h : ∀ start, Heads (f start) P) : Heads (offset >>= f) P := by
  rintro ts next b ⟨front, back, start, rfl, ⟨rfl, -⟩, hb⟩
  exact h start _ _ _ hb

theorem optional {f : Option α → Rule β} (h : Heads r P) (hf : Heads (f none) P) : Heads (optional r >>= f) P := by
  rintro ts next b ⟨front, back, a, rfl, hr | ⟨rfl, rfl⟩, hb⟩
  · obtain ⟨t, rest, rfl, hP⟩ := (h.bind (f := fun a => pure (some a))) _ _ _ hr
    exact ⟨t, rest ++ back, rfl, hP⟩
  · exact hf _ _ _ hb

end Heads

end Rule

end GraphClient.Syntax
