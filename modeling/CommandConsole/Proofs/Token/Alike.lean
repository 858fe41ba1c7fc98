/-
# Tokens that stand elsewhere

The same words may stand in two lines: further on in the second, or in front of
a separator where the first line ends. Seen exactly, their tokens are the same
up to that end; seen without places they are the same wherever they stand.

Key definitions: `Sight`, `Literal.Alike`, `Token.Alike`, `Tokens.Ends`, `Tokens.Alike`,
`Tokens.shift`.
Key theorems: `Literal.Alike.listOfRun`, `Tokens.Alike.prepend`, `Tokens.alike_shift`.
-/
import CommandConsole.Proofs.ArgType.Conversion
import CommandConsole.Proofs.Binding.Taking

namespace CommandConsole

/-- How much of two lines is compared. -/
inductive Sight where
  | exact
  /-- Without their spans. -/
  | unplaced
  deriving DecidableEq

/-! ### Literals -/

def Literal.Alike (σ : Sight) (v w : Literal) : Prop :=
  match σ with
  | .exact => w = v
  | .unplaced => w.unspanned = v.unspanned

namespace Literal

variable {σ : Sight} {v w : Literal} {items items' : List Literal}

theorem Alike.unspanned_eq (h : v.Alike σ w) : w.unspanned = v.unspanned := by
  cases σ with
  | exact => exact congrArg unspanned h
  | unplaced => exact h

theorem Alike.unplaced (h : v.Alike σ w) : v.Alike .unplaced w := h.unspanned_eq

theorem Alike.refl (σ : Sight) (v : Literal) : v.Alike σ v := by
  cases σ <;> rfl

theorem Alike.kind_eq (h : v.Alike σ w) : w.kind = v.kind := by
  rw [← kind_unspanned w, h.unspanned_eq, kind_unspanned]

theorem Alike.asScalar?_eq (h : v.Alike σ w) : w.asScalar? = v.asScalar? := by
  rw [← asScalar?_unspanned w, h.unspanned_eq, asScalar?_unspanned]

theorem unspannedItems_eq_iff : unspannedItems items' = unspannedItems items ↔
    List.Forall₂ (Alike .unplaced) items items' := by
  induction items generalizing items' with
  | nil => cases items' <;> simp [unspannedItems]
  | cons v items ih =>
    cases items' with
    | nil => simp [unspannedItems]
    | cons w items' =>
      rw [unspannedItems, unspannedItems, List.cons.injEq, ih, List.forall₂_cons]
      rfl

theorem Alike.forall₂_eq (h : List.Forall₂ (Alike .exact) items items') : items' = items := by
  have heq : List.Forall₂ Eq items items' := h.imp fun _ _ h => Eq.symm h
  rw [List.forall₂_eq_eq_eq] at heq
  exact heq.symm

/-- Runs of literals that are alike are alike. -/
theorem Alike.listOfRun (h : List.Forall₂ (Alike σ) items items') :
    (listOfRun items).Alike σ (listOfRun items') := by
  cases σ with
  | exact => rw [forall₂_eq h]; rfl
  | unplaced =>
    show unspanned _ = unspanned _
    rw [CommandConsole.listOfRun, CommandConsole.listOfRun, unspanned, unspanned,
      unspannedItems_eq_iff.mpr h]

/-- Literals that are alike have items that are alike. -/
theorem Alike.itemsOf (h : v.Alike σ w) :
    List.Forall₂ (Alike σ) (BindEnv.itemsOf v) (BindEnv.itemsOf w) := by
  cases σ with
  | exact =>
    obtain rfl : w = v := h
    exact List.forall₂_same.mpr fun x _ => .refl .exact x
  | unplaced =>
    have hw : w.unspanned = v.unspanned := h
    cases v with
    | list items span =>
      cases w with
      | list items' span' =>
        simp only [unspanned, Literal.list.injEq, and_true] at hw
        exact unspannedItems_eq_iff.mp hw
      | _ => simp [unspanned] at hw
    | _ =>
      cases w with
      | list => simp [unspanned] at hw
      | _ => exact .cons h .nil

end Literal

/-! ### Tokens -/

inductive TokenKind.Alike (σ : Sight) : TokenKind → TokenKind → Prop
  | separator : Alike σ .separator .separator
  | name (name : String) : Alike σ (.named name none) (.named name none)
  | assigned (name : String) {v w : Literal} (h : v.Alike σ w) :
      Alike σ (.named name (some v)) (.named name (some w))
  | value {v w : Literal} (h : v.Alike σ w) : Alike σ (.value v) (.value w)

structure Token.Alike (σ : Sight) (t u : Token) : Prop where
  kind : t.kind.Alike σ u.kind
  raw : u.raw = t.raw
  span : σ = .exact → u.span = t.span

namespace Token.Alike

variable {σ : Sight} {t u : Token}

theorem refl (σ : Sight) (t : Token) : t.Alike σ t := by
  refine ⟨?_, rfl, fun _ => rfl⟩
  cases t.kind with
  | separator => exact .separator
  | named name assigned =>
    cases assigned with
    | none => exact .name name
    | some v => exact .assigned name (.refl σ v)
  | value v => exact .value (.refl σ v)

theorem isSeparator_eq (h : t.Alike σ u) : u.isSeparator = t.isSeparator := by
  have hk := h.kind
  unfold isSeparator
  generalize t.kind = k at hk
  generalize u.kind = l at hk
  cases hk <;> rfl

theorem word?_eq (h : t.Alike σ u) : u.word? = t.word? := by
  have hk := h.kind
  unfold word?
  rw [h.raw]
  generalize t.kind = k at hk
  generalize u.kind = l at hk
  cases hk with
  | @value v w hvw =>
    have hs := hvw.asScalar?_eq
    cases v <;> cases w <;> simp_all [Literal.asScalar?]
  | _ => rfl

theorem shortFlags?_eq (h : t.Alike σ u) : u.shortFlags? = t.shortFlags? := by
  rw [shortFlags?, shortFlags?, h.word?_eq, h.raw]

/-- An input that stands at the token. -/
theorem empty (h : t.Alike σ u) : (Literal.empty t.span).Alike σ (.empty u.span) := by
  cases σ with
  | exact => rw [h.span rfl]; rfl
  | unplaced => simp only [Literal.Alike, Literal.unspanned]

theorem scalar (h : t.Alike σ u) (text : String) :
    (Literal.scalar text t.span).Alike σ (.scalar text u.span) := by
  cases σ with
  | exact => rw [h.span rfl]; rfl
  | unplaced => simp only [Literal.Alike, Literal.unspanned]

end Token.Alike

/-- The same failure `n` bytes further on. -/
structure LiteralFailure.Moved (n : Nat) (f g : LiteralFailure) : Prop where
  kind : g.kind = f.kind
  position : g.position = f.position + n

namespace Tokens

/-- No token of the command that is being bound comes here: the line ends, or a separator does. -/
inductive Ends : Tokens → Prop
  | finished (stop : Nat) : Ends (.finished stop)
  | separator {t : Token} (rest : Tokens) (h : t.kind = .separator) : Ends (.more t rest)

/-- Tokens that are alike, with `e` in place of the end of the first. A literal that cannot be read
fails `n` bytes further on. -/
inductive Alike (σ : Sight) (n : Nat) (e : Tokens) : Tokens → Tokens → Prop
  | finished (stop : Nat) : Alike σ n e (.finished stop) e
  | broken (start start' : Nat) {f g : LiteralFailure} (h : f.Moved n g) :
      Alike σ n e (.broken start f) (.broken start' g)
  | more {t u : Token} {ts us : Tokens} (h : t.Alike σ u) (hs : Alike σ n e ts us) :
      Alike σ n e (.more t ts) (.more u us)

theorem Alike.of_more {σ : Sight} {n : Nat} {e us : Tokens} {t : Token} {ts : Tokens}
    (h : Alike σ n e (.more t ts) us) :
    ∃ u vs, us = .more u vs ∧ t.Alike σ u ∧ Alike σ n e ts vs := by
  cases h with
  | more h hs => exact ⟨_, _, rfl, h, hs⟩

/-- The same tokens in front of tokens that are alike. -/
theorem Alike.inFront {σ : Sight} {n : Nat} {e ts us : Tokens} (h : Alike σ n e ts us) :
    ∀ front : List Token, Alike σ n e (prepend front ts) (prepend front us)
  | [] => h
  | t :: front => .more (.refl σ t) (h.inFront front)

/-- Tokens in front of the end are alike to themselves in front of something else. -/
theorem Alike.prepend (σ : Sight) (n : Nat) (e : Tokens) (stop : Nat) (ts : List Token) :
    Alike σ n e (prepend ts (.finished stop)) (prepend ts e) :=
  (Alike.finished stop).inFront ts

theorem alike_refl (σ : Sight) : ∀ ts : Tokens, ∃ stop, Alike σ 0 (.finished stop) ts ts
  | .finished stop => ⟨stop, .finished stop⟩
  | .broken start f => ⟨0, .broken start start ⟨rfl, rfl⟩⟩
  | .more t rest => by
    obtain ⟨stop, h⟩ := alike_refl σ rest
    exact ⟨stop, .more (.refl σ t) h⟩

end Tokens

/-! ### Moving along the line -/

def Span.shift (n : Nat) (s : Span) : Span := ⟨s.start + n, s.stop + n⟩

namespace Literal

mutual

/-- The literal where it stands `n` bytes further on. -/
def shift (n : Nat) : Literal → Literal
  | .empty s => .empty (s.shift n)
  | .scalar text s => .scalar text (s.shift n)
  | .list items s => .list (shiftItems n items) (s.shift n)
  | .map entries s => .map (shiftEntries n entries) (s.shift n)

def shiftItems (n : Nat) : List Literal → List Literal
  | [] => []
  | i :: is => shift n i :: shiftItems n is

def shiftEntries (n : Nat) : List (Literal × Literal) → List (Literal × Literal)
  | [] => []
  | (k, v) :: es => (shift n k, shift n v) :: shiftEntries n es

end

mutual

theorem unspanned_shift (n : Nat) : ∀ v : Literal, (v.shift n).unspanned = v.unspanned
  | .empty _ => by simp only [shift, unspanned]
  | .scalar _ _ => by simp only [shift, unspanned]
  | .list items _ => by simp only [shift, unspanned, unspannedItems_shift n items]
  | .map entries _ => by simp only [shift, unspanned, unspannedEntries_shift n entries]

theorem unspannedItems_shift (n : Nat) : ∀ items : List Literal,
    unspannedItems (shiftItems n items) = unspannedItems items
  | [] => rfl
  | i :: is => by
    rw [shiftItems, unspannedItems, unspannedItems, unspanned_shift n i, unspannedItems_shift n is]

theorem unspannedEntries_shift (n : Nat) : ∀ entries : List (Literal × Literal),
    unspannedEntries (shiftEntries n entries) = unspannedEntries entries
  | [] => rfl
  | (k, v) :: es => by
    rw [shiftEntries, unspannedEntries, unspannedEntries, unspanned_shift n k, unspanned_shift n v,
      unspannedEntries_shift n es]

end

end Literal

def TokenKind.shift (n : Nat) : TokenKind → TokenKind
  | .separator => .separator
  | .named name assigned => .named name (assigned.map (Literal.shift n))
  | .value v => .value (v.shift n)

def Token.shift (n : Nat) (t : Token) : Token := ⟨t.kind.shift n, t.span.shift n, t.raw⟩

def ScalarTrace.shift (n : Nat) (s : ScalarTrace) : ScalarTrace := { s with span := s.span.shift n }

def LiteralFailure.shift (n : Nat) (f : LiteralFailure) : LiteralFailure :=
  { f with position := f.position + n, lastScalar := f.lastScalar.map (ScalarTrace.shift n) }

theorem Token.alike_shift (n : Nat) (t : Token) : t.Alike .unplaced (t.shift n) := by
  refine ⟨?_, rfl, fun h => by cases h⟩
  rw [shift]
  cases t.kind with
  | separator => exact .separator
  | named name assigned =>
    cases assigned with
    | none => exact .name name
    | some v => exact .assigned name (v.unspanned_shift n)
  | value v => exact .value (v.unspanned_shift n)

namespace Tokens

/-- The tokens where they stand `n` bytes further on. -/
def shift (n : Nat) : Tokens → Tokens
  | .finished stop => .finished (stop + n)
  | .broken start f => .broken (start + n) (f.shift n)
  | .more t rest => .more (t.shift n) (rest.shift n)

/-- **Tokens that stand further on are alike**, but for their places. -/
theorem alike_shift (n : Nat) : ∀ ts : Tokens,
    ∃ stop, Alike .unplaced n (.finished stop) ts (ts.shift n)
  | .finished stop => ⟨stop + n, .finished stop⟩
  | .broken start f => ⟨0, .broken start (start + n) ⟨rfl, rfl⟩⟩
  | .more t rest => by
    obtain ⟨stop, h⟩ := alike_shift n rest
    exact ⟨stop, .more (t.alike_shift n) h⟩

end Tokens
end CommandConsole
