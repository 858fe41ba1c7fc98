/-
# Where bound inputs stand

What an argument holds was read from tokens of its command, and stands where
they do: the literal of a value has the span of its token, an assigned literal
lies in its token, a run is covered by the spans of its items. Inside of an
input every list and map encloses its parts.

A list that is made of items takes its span from them, and a list of no items
stands at offset 0, wherever the line has it. Only one thing is bound to such a
list: a vararg to which an empty list is assigned, since the list is taken apart
and put together again. A run has at least one item, and every other argument
keeps the literal as it was read.

Key definitions: `Literal.Enclosing`, `BindEnv.Empties`.
Key theorems: `Argument.Given.enclosing`, `Argument.Given.enclosed`, `BindEnv.bindTokens_empties`.
-/
import CommandConsole.Proofs.Binding.Extent
import CommandConsole.Proofs.Literal.WellFormed

namespace CommandConsole

namespace Span

variable {s t u : Span}

theorem Encloses.trans (h : s.Encloses t) (h' : t.Encloses u) : s.Encloses u :=
  ⟨Nat.le_trans h.1 h'.1, Nat.le_trans h'.2 h.2⟩

theorem foldl_cover_encloses : ∀ {ss : List Span} {s : Span},
    (ss.foldl cover s).Encloses s ∧ ∀ t ∈ ss, (ss.foldl cover s).Encloses t
  | [], s => ⟨⟨Nat.le_refl _, Nat.le_refl _⟩, by simp⟩
  | t :: ss, s => by
    obtain ⟨hfirst, hrest⟩ : (ss.foldl cover (s.cover t)).Encloses (s.cover t) ∧
        ∀ u ∈ ss, (ss.foldl cover (s.cover t)).Encloses u := foldl_cover_encloses
    exact ⟨hfirst.trans (cover_encloses_left s t),
      List.forall_mem_cons.mpr ⟨hfirst.trans (cover_encloses_right s t), hrest⟩⟩

theorem coverAll_encloses : ∀ {ss : List Span}, ∀ t ∈ ss, (coverAll ss).Encloses t
  | [] => fun _ ht => by cases ht
  | _ :: _ => List.forall_mem_cons.mpr foldl_cover_encloses

/-- What encloses two spans encloses the span that covers them. -/
theorem Encloses.cover (hs : u.Encloses s) (ht : u.Encloses t) : u.Encloses (s.cover t) :=
  ⟨Nat.le_min.mpr ⟨hs.1, ht.1⟩, Nat.max_le.mpr ⟨hs.2, ht.2⟩⟩

theorem Encloses.foldl_cover : ∀ {ss : List Span} {s : Span}, u.Encloses s →
    (∀ t ∈ ss, u.Encloses t) → u.Encloses (ss.foldl Span.cover s)
  | [], _, hs, _ => hs
  | t :: ss, s, hs, h => by
    obtain ⟨ht, hss⟩ := List.forall_mem_cons.mp h
    rw [List.foldl_cons]
    exact (hs.cover ht).foldl_cover hss

theorem Encloses.coverAll {ss : List Span} (hne : ss ≠ []) (h : ∀ t ∈ ss, u.Encloses t) :
    u.Encloses (Span.coverAll ss) := by
  obtain ⟨s, rest, rfl⟩ := List.exists_cons_of_ne_nil hne
  obtain ⟨hs, hrest⟩ := List.forall_mem_cons.mp h
  exact hs.foldl_cover hrest

end Span

/-! ### Inside of an input -/

namespace Literal

variable {v : Literal} {items : List Literal}

/-- Every list and map in the literal encloses its parts. -/
def Enclosing (v : Literal) : Prop := ∀ n, v.Contains n → ∀ p ∈ n.parts, n.span.Encloses p.span

theorem Laid.enclosing (h : v.Laid) : v.Enclosing := fun _ hn => (h.contains hn).encloses

/-- A literal encloses what its parts do, if it encloses the parts. -/
theorem enclosing_of_parts (h : ∀ p ∈ v.parts, v.span.Encloses p.span ∧ p.Enclosing) :
    v.Enclosing := by
  intro n hn
  cases hn with
  | self => exact fun p hp => (h p hp).1
  | part hp hn => exact (h _ hp).2 n hn

theorem enclosing_listOfRun (h : ∀ i ∈ items, i.Laid) : (listOfRun items).Enclosing :=
  enclosing_of_parts fun i hi =>
    ⟨Span.coverAll_encloses i.span (List.mem_map_of_mem hi), (h i hi).enclosing⟩

/-- What has been read is not the list of no items. -/
theorem Laid.ne_listOfRun_nil (h : v.Laid) : v ≠ listOfRun [] := by
  rintro rfl
  exact absurd (LaidItems.start_lt h) (Nat.not_lt_zero _)

theorem Laid.itemsOf (h : v.Laid) : ∀ i ∈ BindEnv.itemsOf v, i.Laid := by
  intro i hi
  cases v with
  | list items span => exact LaidItems.laid h i hi
  | empty | scalar | map => exact List.mem_singleton.mp hi ▸ h

theorem listOfRun_eq_nil_iff : listOfRun items = listOfRun [] ↔ items = [] := by
  refine ⟨fun h => ?_, fun h => h ▸ rfl⟩
  injection h

end Literal

/-! ### One bound argument -/

namespace Argument

variable {a : Argument} {seen ts : List Token} {b : BoundArgument} {span : Span}

/-- The items of a run are the values of its tokens. -/
theorem exists_token_of_item {items : List Literal} (h : ts.map Token.value? = items.map some) :
    ∀ i ∈ items, ∃ t ∈ ts, t.kind = .value i := by
  intro i hi
  obtain ⟨t, ht, hv⟩ := List.mem_map.mp (h ▸ List.mem_map_of_mem hi : some i ∈ ts.map Token.value?)
  exact ⟨t, ht, Token.value?_eq_some.mp hv⟩

/-- An argument does not take the list of no items. -/
theorem Takes.ne_listOfRun_nil {input : Literal} (h : a.Takes ts input)
    (hplaced : ∀ t ∈ ts, t.Placed) : input ≠ listOfRun [] := by
  cases h with
  | one hm hk => exact ((hplaced _ List.mem_cons_self).value hk).1.ne_listOfRun_nil
  | run hne htok => exact fun hnil => hne (Literal.listOfRun_eq_nil_iff.mp hnil)

/-- **Inside of what an argument holds every list and map encloses its parts.** -/
theorem Given.enclosing (h : a.Given seen b ts) (hs : ∀ t ∈ seen, t.Placed) :
    b.input.Enclosing := by
  cases h with
  | taken ho ht hsub hv =>
    cases ht with
    | one hm hk => exact ((hs _ (hsub.subset List.mem_cons_self)).value hk).1.enclosing
    | run hne htok =>
      refine Literal.enclosing_listOfRun fun i hi => ?_
      obtain ⟨t, ht, hk⟩ := exists_token_of_item htok i hi
      exact ((hs t (hsub.subset ht)).value hk).1
  | assigned ht hk he hi hv =>
    have hlaid := ((hs _ ht).named hk).1.resolve_left (by simp [he])
    rcases hi with rfl | rfl
    · exact hlaid.enclosing
    · exact Literal.enclosing_listOfRun hlaid.itemsOf
  | switch | answer => exact Literal.enclosing_of_parts fun p hp => by cases hp

/-- **What an argument holds stands where its tokens do**, if it is not the list of no items. -/
theorem Given.enclosed (h : a.Given seen b ts) (hs : ∀ t ∈ seen, t.Placed)
    (hspan : ∀ t ∈ seen, span.Encloses t.span) (hne : b.input ≠ listOfRun []) :
    span.Encloses b.input.span := by
  cases h with
  | taken ho ht hsub hv =>
    cases ht with
    | one hm hk =>
      have hmem := hsub.subset List.mem_cons_self
      exact ((hs _ hmem).value hk).2 ▸ hspan _ hmem
    | run hitems htok =>
      refine .coverAll (by simpa using hitems) fun u hu => ?_
      obtain ⟨i, hi, rfl⟩ := List.mem_map.mp hu
      obtain ⟨t, ht, hk⟩ := exists_token_of_item htok i hi
      have hmem := hsub.subset ht
      exact ((hs t hmem).value hk).2 ▸ hspan t hmem
  | assigned ht hk he hi hv =>
    obtain ⟨hlaid, hin⟩ := (hs _ ht).named hk
    have hitems := itemsOf_inside (hlaid.resolve_left (by simp [he])) ((hspan _ ht).trans hin)
    rcases hi with rfl | rfl
    · exact (hspan _ ht).trans hin
    · rw [ne_eq, Literal.listOfRun_eq_nil_iff] at hne
      refine .coverAll (by simpa using hne) fun u hu => ?_
      obtain ⟨i, hi, rfl⟩ := List.mem_map.mp hu
      exact (hitems i hi).1
  | switch ht => exact hspan _ ht
  | answer ht => exact hspan _ ht

end Argument

/-! ### The list of no items -/

namespace BindEnv

/-- The bound argument is a vararg to which one of the tokens `seen` assigns an empty list. -/
def Empties (env : BindEnv) (P : Argument → Prop) (seen : List Token) (b : BoundArgument) : Prop :=
  ∃ a, P a ∧ a.id = b.id ∧ a.multiplicity = .vararg ∧
    ∃ t ∈ seen, ∃ name ∈ env.longNames a, ∃ span, t.kind = .named name (some (.list [] span))

variable {env : BindEnv} {P : Argument → Prop} {seen more used ts : List Token}
  {b d : BoundArgument} {s s' : BindState} {t : Token} {c : TokenCursor} {a : Argument}

theorem Empties.mono (h : env.Empties P seen b) (more : List Token) :
    env.Empties P (seen ++ more) b :=
  let ⟨a, hP, hid, hm, t, ht, hrest⟩ := h
  ⟨a, hP, hid, hm, t, List.mem_append_left _ ht, hrest⟩

/-- An assigned literal becomes the list of no items if it is an empty list for a vararg. -/
theorem takeAssigned_nil {v input : Literal} {value : Value} (hv : v.Laid)
    (h : env.takeAssigned a v = .ok (input, value)) (hnil : input = listOfRun []) :
    a.multiplicity = .vararg ∧ ∃ span, v = .list [] span := by
  unfold takeAssigned at h
  split at h
  · obtain ⟨w, -, he⟩ := exists_of_map_eq_ok h
    cases he
    exact absurd hnil hv.ne_listOfRun_nil
  · obtain ⟨w, -, he⟩ := exists_of_map_eq_ok h
    cases he
    split at hnil
    · exact absurd (Literal.listOfRun_eq_nil_iff.mp hnil) (List.cons_ne_nil _ _)
    · exact absurd hnil hv.ne_listOfRun_nil
  · rename_i hm
    obtain ⟨ws, -, he⟩ := exists_of_map_eq_ok h
    cases he
    refine ⟨hm, ?_⟩
    have hitems := Literal.listOfRun_eq_nil_iff.mp hnil
    cases v with
    | list items span => exact ⟨span, by rw [show items = [] from hitems]⟩
    | empty | scalar | map => exact absurd hitems (List.cons_ne_nil _ _)

/-- Apart from an assignment nothing comes to the list of no items. -/
theorem Effect.not_nil (h : env.Effect P t s ts s')
    (hk : ∀ name v, t.kind ≠ .named name (some v)) (hplaced : ∀ u ∈ ts, u.Placed) :
    ∀ b ∈ s'.bound, b.input = listOfRun [] → b ∈ s.bound := by
  have hpush : ∀ {d : BoundArgument}, d.input ≠ listOfRun [] → ∀ b ∈ (s.push d).bound,
      b.input = listOfRun [] → b ∈ s.bound := by
    intro d hd b hb hnil
    refine (BindState.mem_bound_push.mp hb).resolve_right ?_
    rintro rfl
    exact hd hnil
  cases h with
  | assigned _ _ hassigned => exact absurd hassigned (hk _ _)
  | switch | answer => exact hpush nofun
  | taken _ _ _ ht => exact hpush (ht.ne_listOfRun_nil hplaced)
  | hanging => exact fun b hb _ => hb
  | extended _ hne =>
    intro b hb hnil
    obtain ⟨d, hd, rfl⟩ := List.mem_map.mp hb
    split at hnil
    · rename_i hid
      exfalso
      cases hinput : d.input with
      | list old span =>
        simp only [appendRun, hinput, listOfRun, Literal.list.injEq] at hnil
        exact hne (List.append_eq_nil_iff.mp hnil.1).2
      | empty | scalar | map =>
        simp only [appendRun, hinput] at hnil
        cases hnil
    · rename_i hid
      rwa [if_neg hid]

theorem FlagEffects.not_nil {as : List Argument} (h : env.FlagEffects P t s as ts s')
    (hk : ∀ name v, t.kind ≠ .named name (some v)) (hplaced : ∀ u ∈ ts, u.Placed) :
    ∀ b ∈ s'.bound, b.input = listOfRun [] → b ∈ s.bound := by
  induction h with
  | nil => exact fun b hb _ => hb
  | cons h _ _ ih =>
    intro b hb hnil
    have hrest := ih (fun u hu => hplaced u (List.mem_append_right _ hu)) b hb hnil
    exact h.not_nil hk (fun u hu => hplaced u (List.mem_append_left _ hu)) b hrest hnil

theorem TokenEffect.not_nil (h : env.TokenEffect P t s used s')
    (hk : ∀ name v, t.kind ≠ .named name (some v)) (ht : t.Placed) (hplaced : ∀ u ∈ used, u.Placed) :
    ∀ b ∈ s'.bound, b.input = listOfRun [] → b ∈ s.bound := by
  cases h with
  | named _ h => exact h.not_nil hk hplaced
  | unnamed _ h => exact h.not_nil hk (List.forall_mem_cons.mpr ⟨ht, hplaced⟩)
  | flags _ _ _ h => exact h.not_nil hk hplaced

/-- What an assignment binds to the list of no items is a vararg. -/
theorem bindNamed_empties {name : String} {v : Literal} {r : Bound} (hO : env.Offers P)
    (ht : t.Placed) (hk : t.kind = .named name (some v))
    (h : env.bindNamed s t name (some v) c = .ok r) :
    ∀ b ∈ r.1.bound, b.input = listOfRun [] → b ∈ s.bound ∨ env.Empties P [t] b := by
  unfold bindNamed at h
  split at h
  · cases h
  · rename_i a ha
    split at h
    · cases h
    · rename_i w hne hsome
      obtain rfl : v = w := Option.some.inj hsome
      obtain ⟨k, htake, rfl⟩ := exists_of_map_eq_ok h
      intro b hb hnil
      refine (BindState.mem_bound_push.mp hb).imp_right ?_
      rintro rfl
      have hlaid : v.Laid := by
        refine (ht.named hk).1.resolve_left fun he => ?_
        cases v with
        | empty span => exact hne span rfl
        | scalar | list | map => cases he
      have hname : (env.longNames a).contains name = true :=
        List.find?_some (p := fun a => (env.longNames a).contains name) ha
      obtain ⟨hm, span, rfl⟩ := takeAssigned_nil hlaid htake hnil
      exact ⟨a, hO s a (findNamed?_mem ha), rfl, hm, t, List.mem_cons_self, name,
        List.contains_iff_mem.mp hname, span, hk⟩
    · rename_i hsome
      cases hsome

/-- **A step binds nothing to the list of no items but a vararg to which it assigns an empty
list.** -/
theorem bindToken_empties {r : Bound} (hO : env.Offers P) (ht : t.Placed)
    (hplaced : ∀ u ∈ c.tokens.toList, u.Placed) (h : env.bindToken s t c = .ok (some r)) :
    ∀ b ∈ r.1.bound, b.input = listOfRun [] → b ∈ s.bound ∨ env.Empties P [t] b := by
  by_cases hk : ∃ name v, t.kind = .named name (some v)
  · obtain ⟨name, v, hk⟩ := hk
    rw [bindToken, hk] at h
    obtain ⟨q, hq, he⟩ := exists_of_map_eq_ok h
    cases he
    exact bindNamed_empties hO ht hk hq
  · push Not at hk
    obtain ⟨used, hused, he⟩ := bindToken_effect hO h
    have husedPlaced : ∀ u ∈ used, u.Placed := by
      intro u hu
      refine hplaced u ?_
      rw [hused, Tokens.toList_prepend]
      exact List.mem_append_left _ hu
    exact fun b hb hnil => .inl (he.not_nil hk ht husedPlaced b hb hnil)

/-- **Nor does a whole command.** -/
theorem bindTokens_empties (hO : env.Offers P) {b : Binding} (h : env.bindTokens s c = .ok b) :
    ∀ {seen : List Token}, (∀ u ∈ c.tokens.toList, u.Placed) →
      (∀ d ∈ s.bound, d.input = listOfRun [] → env.Empties P seen d) →
        ∃ used sep, b.Ends c used sep ∧
          ∀ d ∈ b.state.bound, d.input = listOfRun [] → env.Empties P (seen ++ used) d := by
  fun_induction bindTokens env s c with
  | case1 s c _ hc =>
    intro seen _ hs
    cases h
    exact ⟨[], none, ⟨rfl, rfl, by simp⟩, by simpa using hs⟩
  | case2 => cases h
  | case3 s c t rest hc hsep =>
    intro seen _ hs
    cases h
    exact ⟨[], some t, ⟨by simp [hc, TokenCursor.past], rfl, by simpa using hsep⟩, by simpa using hs⟩
  | case4 => cases h
  | case5 s c t rest hc hsep hb =>
    intro seen _ hs
    cases h
    exact ⟨[], none, ⟨rfl, rfl, by simp⟩, by simpa using hs⟩
  | case6 s c t rest hc hsep s' c' hb ih =>
    intro seen hplaced hs
    rw [hc, Tokens.toList_more] at hplaced
    obtain ⟨ht, hrest⟩ := List.forall_mem_cons.mp hplaced
    obtain ⟨used₁, hu, -⟩ := bindToken_effect hO hb
    have hu : rest = .prepend used₁ c'.tokens := hu
    have hplaced' : ∀ u ∈ c'.tokens.toList, u.Placed := by
      intro u hmem
      refine hrest u ?_
      rw [hu, Tokens.toList_prepend]
      exact List.mem_append_right _ hmem
    have hstep : ∀ d ∈ s'.bound, d.input = listOfRun [] → env.Empties P (seen ++ t :: used₁) d := by
      intro d hd hnil
      rcases bindToken_empties hO ht hrest hb d hd hnil with hold | hnew
      · exact (hs d hold hnil).mono _
      · obtain ⟨a, hP, hid, hm, t', ht', hname⟩ := hnew
        obtain rfl := List.mem_singleton.mp ht'
        exact ⟨a, hP, hid, hm, t', by simp, hname⟩
    obtain ⟨used₂, sep, ⟨ht₂, hsep₂, hs₂⟩, hempties⟩ := ih h hplaced' hstep
    exact ⟨t :: used₁ ++ used₂, sep, ⟨by simp [hc, hu, ht₂], hsep₂, hs₂⟩, by simpa using hempties⟩

end BindEnv
end CommandConsole
