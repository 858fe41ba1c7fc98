/-
# What an argument takes

Binding reads ahead and gives back. What remains of it in the end is plain: the
tokens before the place where it stops are used up, in order, and an argument
that takes a value has taken one token, or the tokens of one run.

Key definitions: `Tokens.prepend`, `Token.value?`, `Argument.Holds`, `Argument.Takes`.
Key theorems: `BindEnv.takeValue_spec`, `BindEnv.takeAssigned_spec`.
-/
import CommandConsole.Binding.Binder
import Mathlib.Data.List.Forall2

namespace CommandConsole

theorem Except.eq_ok_of_toOption {ε α : Type} {e : Except ε α} {x : α}
    (h : e.toOption = some x) : e = .ok x := by
  cases e with
  | error f => cases h
  | ok y => rw [Option.some.inj h]

theorem Except.exists_of_toBool {ε α : Type} {e : Except ε α} (h : e.toBool = true) :
    ∃ x, e = .ok x := by
  cases e with
  | error f => cases h
  | ok x => exact ⟨x, rfl⟩

theorem Except.exists_of_not_toBool {ε α : Type} {e : Except ε α} (h : e.toBool = false) :
    ∃ f, e = .error f := by
  cases e with
  | error f => exact ⟨f, rfl⟩
  | ok x => cases h

/-- How a result failed, if it did. -/
def failureOf? {ε α : Type} : Except ε α → Option ε
  | .ok _ => none
  | .error f => some f

theorem failureOf?_eq_some {ε α : Type} {e : Except ε α} {f : ε} (h : failureOf? e = some f) :
    e = .error f := by
  cases e with
  | ok x => cases h
  | error g => rw [Option.some.inj h]

/-- A result that is a list of one, if what is known of the list is one thing. -/
theorem Except.exists_only {ε α β : Type} {e : Except ε (List α)} {f : α → β} {b : β}
    (h : e.toOption.map (List.map f) = some [b]) : ∃ x, e = .ok [x] ∧ f x = b := by
  obtain ⟨xs, hxs, hmap⟩ := Option.map_eq_some_iff.mp h
  obtain ⟨x, rfl, hx⟩ := List.map_eq_singleton_iff.mp hmap
  exact ⟨x, eq_ok_of_toOption hxs, hx⟩

/-- One of the elements of a result that is a list, from what is known of it. -/
theorem Except.exists_getElem {ε α β : Type} {e : Except ε (List α)} {i : Nat} {f : α → β} {b : β}
    (h : (e.toOption.bind (·[i]?)).map f = some b) : ∃ xs x, e = .ok xs ∧ x ∈ xs ∧ f x = b := by
  obtain ⟨x, hx, hb⟩ := Option.map_eq_some_iff.mp h
  obtain ⟨xs, hxs, hi⟩ := Option.bind_eq_some_iff.mp hx
  exact ⟨xs, x, eq_ok_of_toOption hxs, List.mem_of_getElem? hi, hb⟩

/-- A list related to two lists one after the other is cut where the first one ends. -/
theorem forall₂_append_left {α β : Type} {R : α → β → Prop} : ∀ {as bs : List α} {cs : List β},
    List.Forall₂ R (as ++ bs) cs →
      ∃ us vs, cs = us ++ vs ∧ List.Forall₂ R as us ∧ List.Forall₂ R bs vs
  | [], _, cs, h => ⟨[], cs, rfl, .nil, h⟩
  | a :: as, bs, _, h => by
    obtain ⟨c, cs, hac, hcs, rfl⟩ := List.forall₂_cons_left_iff.mp h
    obtain ⟨us, vs, rfl, hus, hvs⟩ := forall₂_append_left hcs
    exact ⟨c :: us, vs, rfl, .cons hac hus, hvs⟩

/-- The tokens `used`, and then `ts`. -/
def Tokens.prepend (used : List Token) (ts : Tokens) : Tokens := used.foldr .more ts

namespace Tokens

@[simp] theorem prepend_nil (ts : Tokens) : prepend [] ts = ts := rfl

@[simp] theorem prepend_cons (t : Token) (used : List Token) (ts : Tokens) :
    prepend (t :: used) ts = .more t (prepend used ts) := rfl

@[simp] theorem prepend_append (a b : List Token) (ts : Tokens) :
    prepend (a ++ b) ts = prepend a (prepend b ts) := by
  simp [prepend]

@[simp] theorem toList_prepend (used : List Token) (ts : Tokens) :
    (prepend used ts).toList = used ++ ts.toList := by
  induction used with
  | nil => rfl
  | cons t used ih => simp [ih]

/-- Tokens that begin with others and end alike begin with the same ones. -/
theorem prepend_left_cancel {a b : List Token} {ts : Tokens} (h : prepend a ts = prepend b ts) :
    a = b := by
  have hlist := congrArg toList h
  rw [toList_prepend, toList_prepend] at hlist
  exact List.append_cancel_right hlist

/-- Tokens in front of a literal that cannot be read. -/
theorem exists_of_failure? {f : LiteralFailure} : ∀ {ts : Tokens},
    ts.failure? = some f → ∃ us start, ts = prepend us (.broken start f)
  | .finished stop, h => by cases h
  | .broken start g, h => by
    cases h
    exact ⟨[], start, rfl⟩
  | .more t rest, h => by
    have hrest : rest.failure? = some f := h
    obtain ⟨us, start, rfl⟩ := exists_of_failure? hrest
    exact ⟨t :: us, start, rfl⟩

/-- Tokens in front of the end of the line. -/
theorem exists_of_finished : ∀ {ts : Tokens}, ts.failure? = none →
    ∃ us stop, ts = prepend us (.finished stop)
  | .finished stop, _ => ⟨[], stop, rfl⟩
  | .broken start g, h => by cases h
  | .more t rest, h => by
    have hrest : rest.failure? = none := h
    obtain ⟨us, stop, rfl⟩ := exists_of_finished hrest
    exact ⟨t :: us, stop, rfl⟩

end Tokens

namespace Token

/-- The literal of a token that is a value. -/
def value? (t : Token) : Option Literal :=
  match t.kind with
  | .value v => some v
  | _ => none

def isValue (t : Token) : Bool := t.value?.isSome

theorem value?_eq_some {t : Token} {v : Literal} : t.value? = some v ↔ t.kind = .value v := by
  unfold value?
  split <;> simp_all

theorem isValue_of_kind {t : Token} {v : Literal} (h : t.kind = .value v) : t.isValue = true := by
  simp [isValue, value?, h]

theorem isValue_of_named {t : Token} {name : String} {assigned : Option Literal}
    (h : t.kind = .named name assigned) : t.isValue = false := by
  simp [isValue, value?, h]

theorem isSeparator_of_isValue {t : Token} (h : t.isValue = true) : t.isSeparator = false := by
  unfold isValue value? at h
  unfold isSeparator
  split <;> simp_all

theorem kind_of_isSeparator {t : Token} (h : t.isSeparator = true) : t.kind = .separator := by
  unfold isSeparator at h
  split at h
  · assumption
  · cases h

/-- A word is a scalar that stands there as a value. -/
theorem kind_of_word? {t : Token} {word : String} (h : t.word? = some word) :
    ∃ span, t.kind = .value (.scalar word span) := by
  unfold word? at h
  split at h
  · rename_i text span hk
    split at h
    · cases h
    · cases h
      exact ⟨span, hk⟩
  · cases h

theorem isValue_of_shortFlags? {t : Token} {letters : List Char}
    (h : t.shortFlags? = some letters) : t.isValue = true := by
  unfold shortFlags? at h
  split at h
  · rename_i word _ _ hw _
    obtain ⟨span, hk⟩ := kind_of_word? hw
    exact isValue_of_kind hk
  · cases h

/-- All of some tokens are values if they are where some literals come from. -/
theorem all_isValue {ts : List Token} {vs : List Literal}
    (h : ts.map value? = vs.map some) : ∀ t ∈ ts, t.isValue = true := by
  intro t ht
  have hm : t.value? ∈ vs.map some := h ▸ List.mem_map_of_mem ht
  obtain ⟨v, -, hv⟩ := List.mem_map.mp hm
  simp [isValue, ← hv]

end Token

/-- The tokens of a run are the values up to where it stops. -/
theorem collectRun_used {stops : Token → Bool} : ∀ {position : Nat} {ts : Tokens} {r : Run},
    collectRun stops position ts = .ok r →
      ∃ used, ts = .prepend used r.cursor.tokens ∧ used.map Token.value? = r.items.map some
  | _, .finished _, r, h => by
    cases h
    exact ⟨[], rfl, rfl⟩
  | _, .broken _ _, _, h => by cases h
  | position, .more t rest, r, h => by
    unfold collectRun at h
    split at h
    · rename_i v hk
      split at h
      · cases h
        exact ⟨[], rfl, rfl⟩
      · obtain ⟨q, hq, rfl⟩ := exists_of_map_eq_ok h
        obtain ⟨used, hu, hv⟩ := collectRun_used hq
        refine ⟨t :: used, by simp [hu], ?_⟩
        simp [hv, Token.value?_eq_some.mpr hk]
    · cases h
      exact ⟨[], rfl, rfl⟩

/-- The value that an argument has for an input, apart from a switch that got none. -/
def Argument.Holds (a : Argument) (input : Literal) (value : Value) : Prop :=
  match a.multiplicity with
  | .vararg => ∃ items span vs, input = .list items span ∧ value = .list vs ∧
      List.Forall₂ (fun i v => a.type.convert i = .ok v) items vs
  | _ => a.type.convert input = .ok value

theorem Argument.holds_of_convert {a : Argument} {input : Literal} {value : Value}
    (hm : a.multiplicity ≠ .vararg) (h : a.type.convert input = .ok value) :
    a.Holds input value := by
  unfold Holds
  split
  · contradiction
  · exact h

theorem Argument.holds_vararg {a : Argument} {items : List Literal} {span : Span} {vs : List Value}
    (hm : a.multiplicity = .vararg)
    (h : List.Forall₂ (fun i v => a.type.convert i = .ok v) items vs) :
    a.Holds (.list items span) (.list vs) := by
  simp only [Holds, hm]
  exact ⟨items, span, vs, rfl, rfl, h⟩

/-- The tokens `taken` make up the input of an argument: one token, or a run. -/
inductive Argument.Takes (a : Argument) : List Token → Literal → Prop
  | one {t : Token} {v : Literal} (hm : a.multiplicity ≠ .vararg) (hk : t.kind = .value v) :
      Takes a [t] v
  | run {taken : List Token} {items : List Literal} (hne : items ≠ [])
      (ht : taken.map Token.value? = items.map some) : Takes a taken (listOfRun items)

namespace BindEnv

theorem convert_eq_ok {env : BindEnv} {a : Argument} {input : Literal} {value : Value}
    (h : env.convert a input = .ok value) : a.type.convert input = .ok value := by
  unfold convert at h
  cases hc : a.type.convert input with
  | error m => rw [hc] at h; cases h
  | ok v => rw [hc] at h; cases h; rfl

theorem convertEach_eq_ok {env : BindEnv} {a : Argument} : ∀ {i : Nat} {items : List Literal}
    {vs : List Value}, env.convertEach a i items = .ok vs →
      List.Forall₂ (fun i v => a.type.convert i = .ok v) items vs
  | _, [], _, h => by cases h; exact .nil
  | i, item :: items, vs, h => by
    unfold convertEach at h
    split at h
    · cases h
    · rename_i v hv
      obtain ⟨ws, hws, rfl⟩ := exists_of_map_eq_ok h
      exact .cons hv (convertEach_eq_ok hws)

/-- A run uses up the tokens of its items, except for the first, which has been read before. -/
theorem runFrom_used {env : BindEnv} {s : BindState} {first : Literal} {c : TokenCursor} {r : Run}
    (h : env.runFrom s first c = .ok r) :
    ∃ items used, r.items = first :: items ∧ c.tokens = .prepend used r.cursor.tokens ∧
      used.map Token.value? = items.map some := by
  unfold runFrom at h
  split at h
  · cases h
  · rename_i q hq
    cases h
    obtain ⟨used, hu, hv⟩ := collectRun_used hq
    exact ⟨q.items, used, rfl, hu, hv⟩

/-- **An argument that takes the value of the token `t` takes that token, or the run that
begins with it.** -/
theorem takeValue_spec {env : BindEnv} {s : BindState} {a : Argument} {t : Token} {v : Literal}
    {c : TokenCursor} {k : Taken} (hk : t.kind = .value v) (h : env.takeValue s a v c = .ok k) :
    a.Holds k.input k.value ∧
      ∃ used, c.tokens = .prepend used k.cursor.tokens ∧ a.Takes (t :: used) k.input := by
  have hone : ∀ {value : Value}, a.multiplicity ≠ .vararg → env.convert a v = .ok value →
      a.Holds v value ∧ ∃ used, c.tokens = .prepend used c.tokens ∧ a.Takes (t :: used) v :=
    fun hm hv => ⟨Argument.holds_of_convert hm (convert_eq_ok hv), [], rfl, .one hm hk⟩
  have hrun : ∀ {r : Run}, env.runFrom s v c = .ok r →
      ∃ used, c.tokens = .prepend used r.cursor.tokens ∧
        a.Takes (t :: used) (listOfRun r.items) := by
    intro r hr
    obtain ⟨items, used, hi, hu, hv⟩ := runFrom_used hr
    refine ⟨used, hu, .run (by simp [hi]) ?_⟩
    simp [hi, hv, Token.value?_eq_some.mpr hk]
  unfold takeValue at h
  split at h
  · rename_i hm
    obtain ⟨value, hv, rfl⟩ := exists_of_map_eq_ok h
    exact hone (by simp [hm]) hv
  · rename_i hm
    split at h
    · split at h
      · cases h
      · rename_i r hr
        obtain ⟨value, hv, rfl⟩ := exists_of_map_eq_ok h
        exact ⟨Argument.holds_of_convert (by simp [hm]) (convert_eq_ok hv), hrun hr⟩
    · obtain ⟨value, hv, rfl⟩ := exists_of_map_eq_ok h
      exact hone (by simp [hm]) hv
  · rename_i hm
    split at h
    · cases h
    · rename_i r hr
      obtain ⟨values, hv, rfl⟩ := exists_of_map_eq_ok h
      exact ⟨Argument.holds_vararg hm (convertEach_eq_ok hv), hrun hr⟩

/-- An assigned literal is the whole input, or its items are the run. -/
theorem takeAssigned_spec {env : BindEnv} {a : Argument} {v input : Literal} {value : Value}
    (h : env.takeAssigned a v = .ok (input, value)) :
    a.Holds input value ∧ (input = v ∨ input = listOfRun (itemsOf v)) := by
  unfold takeAssigned at h
  split at h
  · rename_i hm
    obtain ⟨w, hw, he⟩ := exists_of_map_eq_ok h
    cases he
    exact ⟨Argument.holds_of_convert (by simp [hm]) (convert_eq_ok hw), .inl rfl⟩
  · rename_i hm
    obtain ⟨w, hw, he⟩ := exists_of_map_eq_ok h
    cases he
    refine ⟨Argument.holds_of_convert (by simp [hm]) (convert_eq_ok hw), ?_⟩
    split
    · rename_i hs
      cases v <;> simp_all [startsListRun, Literal.kind, itemsOf]
    · exact .inl rfl
  · rename_i hm
    obtain ⟨w, hw, he⟩ := exists_of_map_eq_ok h
    cases he
    exact ⟨Argument.holds_vararg hm (convertEach_eq_ok hw), .inr rfl⟩

end BindEnv
end CommandConsole
