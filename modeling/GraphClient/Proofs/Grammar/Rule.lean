import Mathlib.Order.FixedPoints
import Mathlib.Order.ConditionallyCompleteLattice.Basic
import Mathlib.Order.CompletePartialOrder
import GraphClient.Token

/-!
# Rules of a grammar

A rule says which tokens are written for which value. Some rules look at the token behind: the span of a node
ends there, and some alternatives exclude a token. So a rule relates tokens, the token behind them and a value.
Rules are no algorithm: the same tokens can have several values or none, and alternatives are not tried in order.
-/

namespace GraphClient.Syntax

open List

/-- **A rule**: which tokens, in front of which token, are written for which value. -/
def Rule (α : Type) : Type := List Token → Token → α → Prop

namespace Rule

variable {α β γ : Type}

instance : CompleteLattice (Rule α) := inferInstanceAs (CompleteLattice (List Token → Token → α → Prop))

instance : Monad Rule where
  pure a := fun ts _ b => ts = [] ∧ b = a
  bind r f := fun ts next b =>
    ∃ front back a, ts = front ++ back ∧ r front (back.headD next) a ∧ f a back next b

def one (read : Token → α → Prop) : Rule α := fun tokens _ a => ∃ token, tokens = [token] ∧ read token a

def ofKind (kind : TokenKind) : Rule Unit := one fun token _ => token.kind = kind

def mark (sign : Mark) : Rule Unit := ofKind (.mark sign)

def keyword (word : Keyword) : Rule Unit := ofKind (.keyword word)

def notBefore (kind : TokenKind) : Rule Unit := fun tokens next _ => tokens = [] ∧ next.kind ≠ kind

def offset : Rule Nat := fun tokens next start => tokens = [] ∧ start = next.span.start

/-- The span from `start` up to the token behind. -/
def spanFrom (start : Nat) : Rule Span := fun tokens next span =>
  tokens = [] ∧ span = ⟨start, max next.span.start start⟩

inductive Many (item : Rule α) : Rule (List α)
  | nil {next : Token} : Many item [] next []
  | cons {front back : List Token} {next : Token} {a : α} {rest : List α} :
    item front (back.headD next) a → Many item back next rest → Many item (front ++ back) next (a :: rest)

def many1 (item : Rule α) : Rule (List α) := fun tokens next items => Many item tokens next items ∧ items ≠ []

def optional (item : Rule α) : Rule (Option α) := (do return some (← item)) ⊔ pure none

/-- Items, or nothing at all. -/
def orEmpty (items : Rule (List α)) : Rule (List α) := items ⊔ pure []

def between (first last : Mark) (item : Rule α) : Rule (List α) := do
  mark first
  let items ← Many item
  mark last
  return items

/-- One or more items with marks between them, and perhaps one in front. -/
def separated (separator : Mark) (item : Rule α) : Rule (List α) := do
  mark separator ⊔ pure ()
  let first ← item
  let rest ← Many (do mark separator; item)
  return first :: rest

/-- **The least rule that a production allows.** -/
def least (production : Rule α → Rule α) : Rule α := sInf {r | production r ≤ r}

theorem least_eq {production : Rule α → Rule α} (h : Monotone production) :
    least production = production (least production) := (OrderHom.map_lfp ⟨production, h⟩).symm

variable {r r' : Rule α}

theorem bind_mono {f f' : α → Rule β} (hr : r ≤ r') (hf : ∀ a, f a ≤ f' a) : (r >>= f) ≤ (r' >>= f') := by
  rintro ts next b ⟨front, back, a, ht, hfr, hb⟩
  exact ⟨front, back, a, ht, hr _ _ _ hfr, hf a _ _ _ hb⟩

theorem many_mono (h : r ≤ r') : Many r ≤ Many r' := by
  intro ts next items hi
  induction hi with
  | nil => exact .nil
  | cons ht _ ih => exact .cons (h _ _ _ ht) ih

variable {first last : Mark} {view : α → β}

theorem between_mono (h : r ≤ r') : between first last r ≤ between first last r' :=
  bind_mono le_rfl fun _ => bind_mono (many_mono h) fun _ => le_rfl

theorem optional_mono (h : r ≤ r') : optional r ≤ optional r' := sup_le_sup (bind_mono h fun _ => le_rfl) le_rfl

variable {r r' : Rule α} {f f' : α → Rule β} {g : β → Rule γ}

theorem ext (h : ∀ ts next a, r ts next a ↔ r' ts next a) : r = r' :=
  funext fun ts => funext fun next => funext fun a => propext (h ts next a)

theorem pure_bind (a : α) : (pure a >>= f) = f a := by
  refine ext fun ts next b => ⟨?_, fun h => ⟨[], ts, a, rfl, ⟨rfl, rfl⟩, h⟩⟩
  rintro ⟨front, back, a', rfl, ⟨rfl, rfl⟩, h⟩
  exact h

theorem bind_pure : (r >>= pure) = r := by
  refine ext fun ts next a => ⟨?_, fun h => ⟨ts, [], a, (append_nil _).symm, h, rfl, rfl⟩⟩
  rintro ⟨front, back, a, rfl, hr, rfl, rfl⟩
  rwa [append_nil]

theorem headD_append (front back : List Token) (next : Token) :
    (front ++ back).headD next = front.headD (back.headD next) := by
  cases front <;> rfl

theorem bind_assoc : (r >>= f >>= g) = r >>= fun a => f a >>= g := by
  refine ext fun ts next c => ⟨?_, ?_⟩
  · rintro ⟨front, back, b, rfl, ⟨front, middle, a, rfl, hr, hf⟩, hg⟩
    refine ⟨front, middle ++ back, a, append_assoc _ _ _, ?_, middle, back, b, rfl, hf, hg⟩
    rwa [headD_append]
  · rintro ⟨front, back, a, rfl, hr, middle, back, b, rfl, hf, hg⟩
    refine ⟨front ++ middle, back, b, (append_assoc _ _ _).symm, ⟨front, middle, a, rfl, ?_, hf⟩, hg⟩
    rwa [headD_append] at hr

theorem sup_bind : (r ⊔ r' >>= f) = (r >>= f) ⊔ (r' >>= f) := by
  refine ext fun ts next b => ⟨?_, ?_⟩
  · rintro ⟨front, back, a, ht, hr | hr, hf⟩
    · exact .inl ⟨front, back, a, ht, hr, hf⟩
    · exact .inr ⟨front, back, a, ht, hr, hf⟩
  · rintro (⟨front, back, a, ht, hr, hf⟩ | ⟨front, back, a, ht, hr, hf⟩)
    · exact ⟨front, back, a, ht, .inl hr, hf⟩
    · exact ⟨front, back, a, ht, .inr hr, hf⟩

theorem bind_sup : (r >>= fun a => f a ⊔ f' a) = (r >>= f) ⊔ (r >>= f') := by
  refine ext fun ts next b => ⟨?_, ?_⟩
  · rintro ⟨front, back, a, ht, hr, hf | hf⟩
    · exact .inl ⟨front, back, a, ht, hr, hf⟩
    · exact .inr ⟨front, back, a, ht, hr, hf⟩
  · rintro (⟨front, back, a, ht, hr, hf⟩ | ⟨front, back, a, ht, hr, hf⟩)
    · exact ⟨front, back, a, ht, hr, .inl hf⟩
    · exact ⟨front, back, a, ht, hr, .inr hf⟩

theorem bind_bot : (r >>= fun _ => ⊥ : Rule β) = ⊥ := by
  refine ext fun ts next b => ⟨?_, fun h => h.elim⟩
  rintro ⟨front, back, a, -, -, h⟩
  exact h

theorem offset_bind : (offset >>= fun _ => r) = r := by
  refine ext fun ts next a => ⟨?_, fun h => ⟨[], ts, _, rfl, ⟨rfl, rfl⟩, h⟩⟩
  rintro ⟨front, back, start, rfl, ⟨rfl, -⟩, h⟩
  exact h

theorem many1_bind {f : List α → Rule β} :
    (many1 r >>= f) = Many r >>= fun items => if items.isEmpty then ⊥ else f items := by
  refine ext fun ts next b => ⟨?_, ?_⟩
  · rintro ⟨front, back, items, rfl, ⟨hi, hn⟩, hf⟩
    cases items with
    | nil => exact absurd rfl hn
    | cons item items => exact ⟨front, back, item :: items, rfl, hi, hf⟩
  · rintro ⟨front, back, items, rfl, hi, hf⟩
    cases items with
    | nil => exact hf.elim
    | cons item items => exact ⟨front, back, item :: items, rfl, ⟨hi, cons_ne_nil _ _⟩, hf⟩

theorem optional_bind {f : Option α → Rule β} : (optional r >>= f) = (r >>= fun a => f (some a)) ⊔ f none := by
  rw [optional, sup_bind, bind_assoc]
  simp only [pure_bind]

theorem bind_pure_iff {ts : List Token} {next : Token} {b : β} :
    (r >>= fun a => pure (view a) : Rule β) ts next b ↔ ∃ a, r ts next a ∧ b = view a := by
  constructor
  · rintro ⟨front, back, a, rfl, hr, rfl, rfl⟩
    rw [append_nil]
    exact ⟨a, hr, rfl⟩
  · rintro ⟨a, hr, rfl⟩
    exact ⟨ts, [], a, (append_nil _).symm, hr, rfl, rfl⟩

theorem between_bind {f : List α → Rule β} : (between first last r >>= f) =
      mark first >>= fun _ => Many r >>= fun items => mark last >>= fun _ => f items := by
  simp only [between, bind_assoc, pure_bind]

theorem many_view : Many (r >>= fun a => pure (view a)) = Many r >>= fun items => pure (items.map view) := by
  refine ext fun ts next items => Iff.trans ⟨fun h => ?_, ?_⟩ bind_pure_iff.symm
  · induction h with
    | nil => exact ⟨[], .nil, rfl⟩
    | cons hv _ ih =>
      obtain ⟨a, hi, rfl⟩ := bind_pure_iff.mp hv
      obtain ⟨rest, hr, rfl⟩ := ih
      exact ⟨a :: rest, .cons hi hr, rfl⟩
  · rintro ⟨items, ht, rfl⟩
    induction ht with
    | nil => exact .nil
    | cons hi _ ih => exact .cons (bind_pure_iff.mpr ⟨_, hi, rfl⟩) ih

theorem many_some {f : List α → Rule β} :
    (Many (r >>= fun a => pure (some a)) >>= fun items => f (items.filterMap id)) = Many r >>= f := by
  rw [many_view, bind_assoc]
  simp [pure_bind]

theorem separated_some {sep : Mark} {f : List α → Rule β} :
    (separated sep (r >>= fun a => pure (some a)) >>= fun items => f (items.filterMap id)) = separated sep r >>= f := by
  have hr : ∀ first, (Many (mark sep >>= fun _ => r >>= fun a => pure (some a)) >>= fun rest =>
      f ((some first :: rest).filterMap id)) =
        Many (mark sep >>= fun _ => r) >>= fun rest => f (first :: rest) := by
    intro first
    rw [← many_some (r := mark sep >>= fun _ => r), bind_assoc]
    rfl
  simp only [separated, bind_assoc, pure_bind, hr]

end Rule

end GraphClient.Syntax
