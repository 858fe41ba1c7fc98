/-
# What a bound argument says

However an argument got its input, by position, by name, from a flag or as a
run, in the end one of two things holds: it is a switch that was given alone,
or it has a literal without empty nodes, and the value that its type gives it.

Key definitions: `Argument.Settled`, `BoundArgument.Same`, `BindEnv.Completed`.
Key theorems: `Argument.Given.settled`, `Argument.Holds.same`.
-/
import CommandConsole.Proofs.ArgType.Conversion
import CommandConsole.Proofs.Binding.Places
import CommandConsole.Proofs.Literal.Spelling

namespace CommandConsole
namespace Literal

mutual

/-- What is read from a text has no empty nodes. -/
theorem Laid.emptyFree : ∀ {v : Literal}, v.Laid → v.EmptyFree
  | .scalar _ _, _ => trivial
  | .list _ _, h => LaidItems.emptyFree h
  | .map _ _, h => LaidEntries.emptyFree h

theorem LaidItems.emptyFree : ∀ {items : List Literal} {start stop : Nat},
    LaidItems start items stop → EmptyFreeItems items
  | [], _, _, _ => trivial
  | _ :: _, _, _, ⟨_, hi, his⟩ => ⟨Laid.emptyFree hi, LaidItems.emptyFree his⟩

theorem LaidEntries.emptyFree : ∀ {entries : List (Literal × Literal)} {start stop : Nat},
    LaidEntries start entries stop → EmptyFreeEntries entries
  | [], _, _, _ => trivial
  | (_, _) :: _, _, _, ⟨_, hk, _, hv, hes⟩ =>
    ⟨⟨Laid.emptyFree hk, Laid.emptyFree hv⟩, LaidEntries.emptyFree hes⟩

end

theorem emptyFreeItems_of_forall : ∀ {items : List Literal}, (∀ i ∈ items, i.EmptyFree) →
    EmptyFreeItems items
  | [], _ => trivial
  | _ :: _, h =>
    ⟨h _ List.mem_cons_self, emptyFreeItems_of_forall fun j hj => h j (List.mem_cons_of_mem _ hj)⟩

theorem EmptyFree.isEmpty_eq {v : Literal} (h : v.EmptyFree) : v.isEmpty = false := by
  cases v with
  | empty => exact h.elim
  | _ => rfl

/-- The items of a run that is given as one literal have no empty nodes if it has none. -/
theorem EmptyFree.listOfRun_itemsOf {v : Literal} (h : v.EmptyFree) :
    (listOfRun (BindEnv.itemsOf v)).EmptyFree := by
  cases v with
  | list items span => exact h
  | empty span => exact h.elim
  | scalar text span => exact ⟨trivial, trivial⟩
  | map entries span => exact ⟨h, trivial⟩

end Literal

/-- The bound argument says something that can be said again: that the switch was given, or a
literal and the value it stands for. -/
inductive Argument.Settled (a : Argument) : BoundArgument → Prop
  | switch {input : Literal} {origin : BindOrigin} (hs : a.isSwitch = true)
      (he : input.isEmpty = true) : Settled a ⟨a.id, input, .bool true, origin⟩
  | literal {input : Literal} {value : Value} {origin : BindOrigin} (he : input.EmptyFree)
      (h : a.Holds input value) : Settled a ⟨a.id, input, value, origin⟩

/-- The two say the same: for the same argument, up to spans. -/
structure BoundArgument.Same (b d : BoundArgument) : Prop where
  id : d.id = b.id
  input : d.input.same b.input = true
  value : d.value = b.value
  default : d.origin = .default ↔ b.origin = .default

namespace BoundArgument.Same

variable {b d e : BoundArgument}

theorem symm (h : b.Same d) : d.Same b :=
  ⟨h.id.symm, (Literal.same_iff _ _).mpr ((Literal.same_iff _ _).mp h.input).symm, h.value.symm,
    h.default.symm⟩

theorem trans (h : b.Same d) (h' : d.Same e) : b.Same e :=
  ⟨h'.id.trans h.id, (Literal.same_iff _ _).mpr
      (((Literal.same_iff _ _).mp h'.input).trans ((Literal.same_iff _ _).mp h.input)),
    h'.value.trans h.value, h'.default.trans h.default⟩

end BoundArgument.Same

namespace Argument

variable {a : Argument} {seen ts : List Token} {b : BoundArgument}

theorem Settled.id_eq (h : a.Settled b) : b.id = a.id := by
  cases h <;> rfl

theorem Takes.emptyFree {input : Literal} (hs : ∀ t ∈ seen, t.Placed) (hsub : ts.Sublist seen)
    (h : a.Takes ts input) : input.EmptyFree := by
  have hlaid : ∀ t ∈ ts, ∀ v, t.value? = some v → v.EmptyFree := fun t ht v hv =>
    ((hs t (hsub.subset ht)).value (Token.value?_eq_some.mp hv)).1.emptyFree
  cases h with
  | one hm hk => exact hlaid _ List.mem_cons_self _ (Token.value?_eq_some.mpr hk)
  | run hne ht =>
    refine Literal.emptyFreeItems_of_forall fun i hi => ?_
    have hmem : some i ∈ ts.map Token.value? := ht ▸ List.mem_map_of_mem hi
    obtain ⟨t, htmem, hv⟩ := List.mem_map.mp hmem
    exact hlaid t htmem i hv

/-- **However an argument was given, what it says is settled.** -/
theorem Given.settled (hs : ∀ t ∈ seen, t.Placed) (h : a.Given seen b ts) : a.Settled b := by
  cases h with
  | taken ho ht hsub hv => exact .literal (ht.emptyFree hs hsub) hv
  | assigned ht hk he hi hv =>
    have hfree := (((hs _ ht).named hk).1.resolve_left (by simp [he])).emptyFree
    rcases hi with rfl | rfl
    · exact .literal hfree hv
    · exact .literal hfree.listOfRun_itemsOf hv
  | switch ht hsw ho => exact .switch hsw rfl
  | answer ht hsw hw hb =>
    simp only [isSwitch, Bool.and_eq_true, beq_iff_eq] at hsw
    have hbool : a.type = .bool := by
      unfold ArgType.isBool at hsw
      split at hsw
      · assumption
      · simp at hsw
    exact .literal trivial
      (holds_of_convert (by simp [hsw.2]) (hbool ▸ ArgType.convert_bool hb _))

theorem forall₂_convert_same {t : ArgType} (ht : t.Builtin) : ∀ {items others : List Literal}
    {vs : List Value}, Literal.unspannedItems others = Literal.unspannedItems items →
      List.Forall₂ (fun i v => t.convert i = .ok v) items vs →
        List.Forall₂ (fun i v => t.convert i = .ok v) others vs
  | [], [], _, _, h => h
  | i :: is, j :: js, _, he, h => by
    obtain ⟨v, vs, hv, hvs, rfl⟩ := List.forall₂_cons_left_iff.mp h
    simp only [Literal.unspannedItems, List.cons.injEq] at he
    exact .cons (ArgType.convert_congr ht he.1.symm hv) (forall₂_convert_same ht he.2 hvs)
  | [], _ :: _, _, he, _ => by simp [Literal.unspannedItems] at he
  | _ :: _, [], _, he, _ => by simp [Literal.unspannedItems] at he

/-- A literal that differs in spans only gives the argument the same value. -/
theorem Holds.same {input other : Literal} {value : Value} (ht : a.type.Builtin)
    (he : other.unspanned = input.unspanned) (h : a.Holds input value) : a.Holds other value := by
  by_cases hm : a.multiplicity = .vararg
  · simp only [Holds, hm] at h
    obtain ⟨items, span, vs, rfl, rfl, hall⟩ := h
    cases other with
    | list others span' =>
      simp only [Literal.unspanned, Literal.list.injEq, and_true] at he
      exact holds_vararg hm (forall₂_convert_same ht he hall)
    | empty | scalar | map => simp [Literal.unspanned] at he
  · refine holds_of_convert hm (ArgType.convert_congr ht he.symm ?_)
    unfold Holds at h
    split at h
    · contradiction
    · exact h

end Argument

/-- What is bound at the end of a whole command: what `s` holds, which was given for arguments of
`args` and is settled, each once, and defaults for the others, which the command can do without. -/
structure BindEnv.Completed (env : BindEnv) (args : List Argument) (s : BindState)
    (bound : List BoundArgument) : Prop where
  bound : bound = (bindDefaults s (env.remaining s)).bound
  optional : ∀ a ∈ env.remaining s, a.isOptional = true
  given : ∀ b ∈ s.bound, b.origin ≠ .default ∧ ∃ a ∈ args, a.Settled b
  ids : s.bound.Pairwise fun b d => b.id ≠ d.id

theorem BindEnv.Completed.filter_bound {env : BindEnv} {args : List Argument} {s : BindState}
    {bound : List BoundArgument} (h : env.Completed args s bound) :
    bound.filter (fun b => b.origin ≠ .default) = s.bound := by
  rw [h.bound]
  exact filter_bindDefaults (fun b hb => (h.given b hb).1) _

end CommandConsole
