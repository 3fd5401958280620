import GraphClient.Proofs.Grammar.Productions
import GraphClient.Proofs.Token.Words

/-!
# Rules and words

What a rule says about tokens of which only the words are known, and about the values that it derives from names.
-/

namespace GraphClient.Syntax.Rule

open List

variable {α β γ δ : Type} {r r' : Rule α} {f : α → Rule β} {P P' : α → Prop} {Q : β → Prop}

/-- **The rule reads the given words**, whatever follows them, as a value that satisfies `P`. Tokens with these
words are no errors. -/
def Reads (r : Rule α) (words : List Word) (P : α → Prop) : Prop :=
  ∀ (tokens : List Token) (next : Token), tokens.map Token.word = words →
    ∃ a, r tokens next a ∧ P a ∧ ∀ token ∈ tokens, token.kind ≠ .error

namespace Reads

variable {word : Word} {words words' : List Word}

theorem pure {a : α} (h : P a) : (pure a : Rule α).Reads [] P :=
  fun _ _ ht => by
    obtain rfl := map_eq_nil_iff.mp ht
    exact ⟨a, ⟨rfl, rfl⟩, h, nofun⟩

theorem bind (hr : r.Reads words P) (hf : ∀ a, P a → (f a).Reads words' Q) : (r >>= f).Reads (words ++ words') Q := by
  intro ts next ht
  obtain ⟨front, back, rfl, hfr, hba⟩ := map_eq_append_iff.mp ht
  obtain ⟨a, hr, ha, he⟩ := hr front (back.headD next) hfr
  obtain ⟨b, hb, hQ, hr'⟩ := hf a ha back next hba
  exact ⟨b, ⟨front, back, a, rfl, hr, hb⟩, hQ, forall_mem_append.mpr ⟨he, hr'⟩⟩

theorem take (hr : r.Reads [word] P) (hf : ∀ a, P a → (f a).Reads words Q) : (r >>= f).Reads (word :: words) Q :=
  hr.bind hf

theorem last (hr : r.Reads words P) (hf : ∀ a, P a → (f a).Reads [] Q) : (r >>= f).Reads words Q := by
  rw [← append_nil words]
  exact hr.bind hf

theorem offset {f : Nat → Rule β} (h : ∀ start, (f start).Reads words Q) : (.offset >>= f).Reads words Q := by
  intro ts next ht
  obtain ⟨b, hb, hQ⟩ := h _ ts next ht
  exact ⟨b, ⟨[], ts, _, rfl, ⟨rfl, rfl⟩, hb⟩, hQ⟩

theorem spanned {start : Nat} {make : Span → α} (h : ∀ span, P (make span)) :
    (Rule.spanFrom start >>= fun span => Pure.pure (make span)).Reads [] P := by
  intro ts next ht
  obtain rfl := map_eq_nil_iff.mp ht
  exact ⟨_, ⟨[], [], _, rfl, ⟨rfl, rfl⟩, rfl, rfl⟩, h _, nofun⟩

theorem inl (h : r.Reads words P) : (r ⊔ r').Reads words P := fun ts next ht =>
  (h ts next ht).imp fun _ ha => ⟨.inl ha.1, ha.2⟩

theorem inr (h : r'.Reads words P) : (r ⊔ r').Reads words P := fun ts next ht =>
  (h ts next ht).imp fun _ ha => ⟨.inr ha.1, ha.2⟩

theorem one {read : Token → α → Prop} (h : ∀ t : Token, t.kind = word.kind →
    t.text = word.text → ∃ a, read t a ∧ P a) (hw : word.kind ≠ .error := by simp) :
    (one read).Reads [word] P := by
  intro ts next ht
  obtain ⟨t, rfl, rfl⟩ := map_eq_singleton_iff.mp ht
  obtain ⟨a, hr, ha⟩ := h t rfl rfl
  exact ⟨a, ⟨t, rfl, hr⟩, ha, forall_mem_singleton.mpr hw⟩

theorem ofKind {kind : TokenKind} (h : word.kind = kind) (hk : kind ≠ .error := by simp) :
    (ofKind kind).Reads [word] fun _ => True :=
  .one (fun _ ht _ => ⟨(), ht.trans h, trivial⟩) (h ▸ hk)

theorem mark {sign : Mark} {f : Unit → Rule β} (h : (f ()).Reads words Q) :
    (mark sign >>= f).Reads (.mark sign :: words) Q := (ofKind rfl).take fun _ _ => h

theorem none {view : α → γ} : (optional r).Reads [] fun a => a.map view = none := .inr (.pure rfl)

theorem some {view : α → γ} {c : γ} (h : r.Reads words fun a => view a = c) :
    (optional r).Reads words fun a => a.map view = some c := .inl (h.last fun _ ha => .pure (congrArg Option.some ha))

section Repetition

variable {item : Rule α} {items : List δ} {spell : δ → List Word} {view : α → γ} {target : δ → γ}

theorem many (h : ∀ x ∈ items, item.Reads (spell x) fun a => view a = target x) :
    (Many item).Reads (items.flatMap spell) fun vs => vs.map view = items.map target := by
  induction items with
  | nil =>
    intro ts next ht
    obtain rfl := map_eq_nil_iff.mp ht
    exact ⟨[], .nil, rfl, nofun⟩
  | cons x items ih =>
    rw [forall_mem_cons] at h
    intro ts next ht
    obtain ⟨front, back, rfl, hf, hb⟩ := map_eq_append_iff.mp ht
    obtain ⟨a, ha, hi, hr⟩ := h.1 front (back.headD next) hf
    obtain ⟨rest, he, hv, hr'⟩ := ih h.2 back next hb
    exact ⟨a :: rest, .cons ha he, map_cons.trans (congrArg₂ cons hi hv), forall_mem_append.mpr ⟨hr, hr'⟩⟩

theorem many1 (hn : items ≠ []) (h : ∀ x ∈ items, item.Reads (spell x) fun a => view a = target x) :
    (many1 item).Reads (items.flatMap spell) fun vs => vs.map view = items.map target := by
  intro ts next ht
  obtain ⟨vs, ha, hv, hr⟩ := many h ts next ht
  refine ⟨vs, ⟨ha, ?_⟩, hv, hr⟩
  rintro rfl
  exact hn (map_eq_nil_iff.mp hv.symm)

theorem between {first last : Mark} (h : ∀ x ∈ items, item.Reads (spell x) fun a => view a = target x) :
    (between first last item).Reads (.mark first :: (items.flatMap spell ++ [.mark last]))
      fun vs => vs.map view = items.map target :=
  .mark ((many h).bind fun _ hv => .mark (.pure hv))

end Repetition

end Reads

/-- **The rule ensures a property of its values**: it holds when the tokens that are names say so. -/
def Ensures (r : Rule α) (P : α → Prop) : Prop :=
  ∀ (tokens : List Token) (next : Token) (a : α), (∀ token ∈ tokens, token.Named) → r tokens next a → P a

namespace Ensures

theorem mono (h : r.Ensures P) (hP : ∀ a, P a → P' a) : r.Ensures P' :=
  fun ts next a hn hr => hP a (h ts next a hn hr)

theorem pure {a : α} (h : P a) : (pure a : Rule α).Ensures P := by
  rintro ts next b - ⟨-, rfl⟩
  exact h

theorem bot : (⊥ : Rule α).Ensures P := fun _ _ _ _ h => h.elim

theorem sup (h : r.Ensures P) (h' : r'.Ensures P) : (r ⊔ r').Ensures P :=
  fun ts next a hn => Or.rec (h ts next a hn) (h' ts next a hn)

theorem bind (hr : r.Ensures P) (hf : ∀ a, P a → (f a).Ensures Q) : (r >>= f).Ensures Q := by
  rintro _ next b hn ⟨front, back, a, rfl, ha, hb⟩
  rw [forall_mem_append] at hn
  exact hf a (hr front _ a hn.1 ha) back next b hn.2 hb

theorem skip (hf : ∀ a, (f a).Ensures Q) : (r >>= f).Ensures Q :=
  bind (P := fun _ => True) (fun _ _ _ _ _ => trivial) fun a _ => hf a

theorem one {read : Token → α → Prop} (h : ∀ t a, t.Named → read t a → P a) : (one read).Ensures P := by
  rintro _ next a hn ⟨t, rfl, hr⟩
  exact h t a (hn t mem_cons_self) hr

theorem optional (h : r.Ensures P) : (optional r).Ensures fun v => ∀ a ∈ v, P a :=
  .sup (.bind h fun a ha => .pure (by rintro _ ⟨⟩; exact ha)) (.pure (by rintro _ ⟨⟩))

theorem many (h : r.Ensures P) : (Many r).Ensures fun vs => ∀ value ∈ vs, P value := by
  intro ts next vs hn hm
  induction hm with
  | nil => exact forall_mem_nil _
  | cons hi _ ih =>
    rw [forall_mem_append] at hn
    exact forall_mem_cons.mpr ⟨h _ _ _ hn.1 hi, ih hn.2⟩

theorem between {first last : Mark} (h : r.Ensures P) :
    (between first last r).Ensures fun vs => ∀ value ∈ vs, P value :=
  .skip fun _ => .bind (.many h) fun _ hv => .skip fun _ => .pure hv

theorem orEmpty {r : Rule (List α)} (h : r.Ensures fun vs => ∀ value ∈ vs, P value) :
    (orEmpty r).Ensures fun vs => ∀ value ∈ vs, P value := .sup h (.pure (forall_mem_nil _))

theorem separated {sep : Mark} (h : r.Ensures P) :
    (separated sep r).Ensures fun vs => vs ≠ [] ∧ ∀ value ∈ vs, P value :=
  .skip fun _ => .bind h fun _ hf => .bind (.many (.skip fun _ => h)) fun _ hr =>
    .pure ⟨cons_ne_nil _ _, forall_mem_cons.mpr ⟨hf, hr⟩⟩

theorem least {production : Rule α → Rule α} (h : ∀ r : Rule α, r.Ensures P → (production r).Ensures P) :
    (Rule.least production).Ensures P := by
  have hl : Rule.least production ≤ fun ts _ a => (∀ t ∈ ts, t.Named) → P a :=
    sInf_le fun ts next a hp hn =>
      h _ (fun _ _ _ hn hr => hr hn) ts next a hn hp
  exact fun ts next a hn hr => hl ts next a hr hn

end Ensures

end GraphClient.Syntax.Rule
