/-
# Where a command ends

Each step of the binder leaves the cursor behind the last token that it used
up. A run is different if it takes all that is left of the line: then the
cursor is at the end of the line, and the blanks there count as part of the
command. Which of the two happened can be read off what is bound, since a
value that came in a run is an item of the list that is bound.

Key definitions: `Token.Listed`, `Token.Closes`, `BindEnv.Halts`.
Key theorems: `BindEnv.bindToken_halts`, `BindEnv.bindTokens_closes`.
-/
import CommandConsole.Proofs.Binding.Places

namespace CommandConsole

/-- The value of the token is an item of a list that is bound. -/
def Token.Listed (t : Token) (bound : List BoundArgument) : Prop :=
  ∃ v, t.kind = .value v ∧ ∃ b ∈ bound, v ∈ b.input.listItems

/-- The end of the line if the line ends there, and the end of the token otherwise. -/
def Tokens.stopBehind (ts : Tokens) (t : Token) : Nat :=
  match ts with
  | .finished stop => stop
  | _ => t.span.stop

/-- The offset `stop` ends a command whose last token is `t`, in front of the tokens `ts`. -/
def Token.Closes (t : Token) (bound : List BoundArgument) (ts : Tokens) (stop : Nat) : Prop :=
  (t.Listed bound → stop = ts.stopBehind t) ∧ (¬ t.Listed bound → stop = t.span.stop)

/-! ### The cursor behind a run -/

/-- A run stops behind its last value, or at the end of the line. -/
theorem collectRun_stop {stops : Token → Bool} : ∀ {t : Token} {ts : Tokens} {r : Run},
    collectRun stops t.span.stop ts = .ok r →
      ∃ used before u, ts = .prepend used r.cursor.tokens ∧
        used.map Token.value? = r.items.map some ∧ t :: used = before ++ [u] ∧
        r.cursor.position = r.cursor.tokens.stopBehind u
  | t, .finished stop, r, h => by
    cases h
    exact ⟨[], [], t, rfl, rfl, rfl, rfl⟩
  | _, .broken _ _, _, h => by cases h
  | t, .more next rest, r, h => by
    unfold collectRun at h
    split at h
    · rename_i v hk
      split at h
      · cases h
        exact ⟨[], [], t, rfl, rfl, rfl, rfl⟩
      · obtain ⟨q, hq, rfl⟩ := exists_of_map_eq_ok h
        obtain ⟨used, before, u, hts, hv, hlast, hp⟩ := collectRun_stop hq
        refine ⟨next :: used, t :: before, u, by simp [hts], ?_, by rw [hlast]; rfl, hp⟩
        simp [hv, Token.value?_eq_some.mpr hk]
    · cases h
      exact ⟨[], [], t, rfl, rfl, rfl, rfl⟩

namespace BindEnv

variable {env : BindEnv} {s : BindState} {a : Argument} {t u : Token} {v : Literal}
  {c : TokenCursor} {r : Bound}

/-- A run that begins with the value of `t` has the value of its last token among its items. -/
theorem runFrom_stop {q : Run} (hk : t.kind = .value v) (hc : c.position = t.span.stop)
    (h : env.runFrom s v c = .ok q) :
    ∃ used before u w, c.tokens = .prepend used q.cursor.tokens ∧ t :: used = before ++ [u] ∧
      u.kind = .value w ∧ w ∈ q.items ∧ q.cursor.position = q.cursor.tokens.stopBehind u := by
  unfold runFrom at h
  split at h
  · cases h
  · rename_i q' hq
    cases h
    rw [hc] at hq
    obtain ⟨used, before, u, hts, hv, hlast, hp⟩ := collectRun_stop hq
    have hvalues : (t :: used).map Token.value? = (v :: q'.items).map some := by
      simp [hv, Token.value?_eq_some.mpr hk]
    have hu : u.value? ∈ (v :: q'.items).map some := by
      rw [← hvalues, hlast]
      simp
    obtain ⟨w, hw, he⟩ := List.mem_map.mp hu
    exact ⟨used, before, u, w, hts, hlast, Token.value?_eq_some.mp he.symm, hw, hp⟩

/-! ### The cursor behind a step -/

/-- A step with the last token `t` halts behind this token, which is on no list that it binds; or
the token came in a run, and the step halts where the run stops. -/
inductive Halts (s : BindState) (t : Token) (r : Bound) : Prop
  | behind (hp : r.2.position = t.span.stop)
      (hb : ∀ v, t.kind = .value v → ∀ b ∈ r.1.bound, b ∈ s.bound ∨ v ∉ b.input.listItems)
  | inRun (hl : t.Listed r.1.bound) (hp : r.2.position = r.2.tokens.stopBehind t)

/-- From the token `t` a step uses up tokens behind it, and halts at the last. -/
def HaltsFrom (s : BindState) (t : Token) (c : TokenCursor) (r : Bound) : Prop :=
  ∃ used before u, c.tokens = .prepend used r.2.tokens ∧ t :: used = before ++ [u] ∧ Halts s u r

theorem Halts.of_push {b : BoundArgument} (hb : b.input.listItems = [])
    (h : Halts (s.push b) t r) : Halts s t r := by
  cases h with
  | behind hp hnot =>
    refine .behind hp fun v hk d hd => ?_
    rcases hnot v hk d hd with hd | hd
    · refine (BindState.mem_bound_push.mp hd).imp_right ?_
      rintro rfl
      simp [hb]
    · exact .inr hd
  | inRun hl hp => exact .inRun hl hp

theorem HaltsFrom.of_push {b : BoundArgument} (hb : b.input.listItems = [])
    (h : HaltsFrom (s.push b) t c r) : HaltsFrom s t c r :=
  let ⟨used, before, u, hts, hlast, hu⟩ := h
  ⟨used, before, u, hts, hlast, hu.of_push hb⟩

/-- A step that is made from the token behind `t` is one from `t`. -/
theorem HaltsFrom.more {rest : Tokens} (hc : c.tokens = .more u rest)
    (h : HaltsFrom s u (.past u rest) r) : HaltsFrom s t c r := by
  obtain ⟨used, before, w, hts, hlast, hw⟩ := h
  refine ⟨u :: used, t :: before, w, ?_, by rw [hlast]; rfl, hw⟩
  rw [hc, Tokens.prepend_cons]
  exact congrArg _ hts

/-- A step that uses up no token behind `t`, and binds no list. -/
theorem haltsFrom_here {s' : BindState} (hc : c.position = t.span.stop)
    (hb : ∀ b ∈ s'.bound, b ∈ s.bound ∨ b.input.listItems = []) : HaltsFrom s t c (s', c) := by
  refine ⟨[], [], t, rfl, rfl, .behind hc fun v _ b hmem => (hb b hmem).imp_right ?_⟩
  intro hnil
  simp [hnil]

theorem mem_bound_push_or {b d : BoundArgument} (hd : d.input.listItems = [])
    (hb : b ∈ (s.push d).bound) : b ∈ s.bound ∨ b.input.listItems = [] := by
  refine (BindState.mem_bound_push.mp hb).imp_right ?_
  rintro rfl
  exact hd

theorem takeValue_halts {k : Taken} {origin : BindOrigin} (ht : t.Placed) (hk : t.kind = .value v)
    (hc : c.position = t.span.stop) (h : env.takeValue s a v c = .ok k) :
    HaltsFrom s t c (record s a origin k, k.cursor) := by
  have hone : ∀ value pending, HaltsFrom s t c (record s a origin ⟨v, value, pending, c⟩, c) := by
    intro value pending
    refine ⟨[], [], t, rfl, rfl, .behind hc fun w hw b hb => ?_⟩
    obtain rfl : v = w := by
      rw [hk] at hw
      cases hw
      rfl
    rw [record_bound, BindState.mem_bound_push] at hb
    refine hb.imp_right ?_
    rintro rfl
    exact not_mem_listItems_self (ht.value hk).1
  have hrun : ∀ {q : Run} value pending, env.runFrom s v c = .ok q →
      HaltsFrom s t c (record s a origin ⟨listOfRun q.items, value, pending, q.cursor⟩, q.cursor) := by
    intro q value pending hq
    obtain ⟨used, before, u, w, hts, hlast, hu, hw, hp⟩ := runFrom_stop hk hc hq
    refine ⟨used, before, u, hts, hlast, .inRun ⟨w, hu, ?_⟩ hp⟩
    exact ⟨⟨a.id, listOfRun q.items, value, origin⟩, BindState.mem_bound_push.mpr (.inr rfl), hw⟩
  unfold takeValue at h
  split at h
  · obtain ⟨value, -, rfl⟩ := exists_of_map_eq_ok h
    exact hone ..
  · split at h
    · split at h
      · cases h
      · rename_i q hq
        obtain ⟨value, -, rfl⟩ := exists_of_map_eq_ok h
        exact hrun _ _ hq
    · obtain ⟨value, -, rfl⟩ := exists_of_map_eq_ok h
      exact hone ..
  · split at h
    · cases h
    · rename_i q hq
      obtain ⟨values, -, rfl⟩ := exists_of_map_eq_ok h
      exact hrun _ _ hq

theorem bindSwitch_halts (hc : c.position = t.span.stop) :
    HaltsFrom s t c (bindSwitch s a t c) := by
  have habsent : HaltsFrom s t c (s.push ⟨a.id, .empty t.span, .bool true, .named⟩, c) :=
    haltsFrom_here hc fun b hb => mem_bound_push_or rfl hb
  unfold bindSwitch
  dsimp only
  split
  · rename_i next rest hnext
    split
    · exact habsent
    · split
      · exact habsent
      · exact .more hnext (haltsFrom_here rfl fun b hb => mem_bound_push_or rfl hb)
  · exact habsent

theorem bindFollowing_halts {origin : BindOrigin} (hm : env.mode = .complete)
    (hplaced : ∀ u ∈ c.tokens.toList, u.Placed) (h : env.bindFollowing s a t origin c = .ok r) :
    HaltsFrom s t c r := by
  unfold bindFollowing at h
  split at h
  · cases h
  · rw [hm] at h
    cases h
  · rename_i next rest hnext
    split at h
    · rename_i v hk
      obtain ⟨k, hk', rfl⟩ := exists_of_map_eq_ok h
      have hp : next.Placed := hplaced next (by rw [hnext]; exact List.mem_cons_self)
      exact .more hnext (takeValue_halts hp hk rfl hk')
    · cases h

theorem bindNamed_halts {name : String} {assigned : Option Literal} (hm : env.mode = .complete)
    (hk : t.kind = .named name assigned) (hc : c.position = t.span.stop)
    (hplaced : ∀ u ∈ c.tokens.toList, u.Placed)
    (h : env.bindNamed s t name assigned c = .ok r) : HaltsFrom s t c r := by
  unfold bindNamed at h
  split at h
  · cases h
  · split at h
    · cases h
    · obtain ⟨k, -, rfl⟩ := exists_of_map_eq_ok h
      -- the literal is written in a name, which is no value
      exact ⟨[], [], t, rfl, rfl, .behind hc fun v hv => by rw [hk] at hv; cases hv⟩
    · split at h
      · cases h
        exact bindSwitch_halts hc
      · exact bindFollowing_halts hm hplaced h

/-- All but the last of the arguments of a bundle are switches. -/
theorem flagBundle?_switches {policy : ShortFlagPolicy} {args bundle : List Argument}
    (h : flagBundle? policy args t = some bundle) :
    bundle ≠ [] ∧ ∀ a ∈ bundle.dropLast, a.isSwitch = true := by
  unfold flagBundle? at h
  split at h
  · cases h
  · obtain ⟨-, hallowed⟩ := Option.filter_eq_some_iff.mp h
    unfold bundleAllowed at hallowed
    split at hallowed
    · cases hallowed
    · rename_i last hlast
      simp only [Bool.and_eq_true, List.all_eq_true] at hallowed
      refine ⟨?_, hallowed.1⟩
      rintro rfl
      cases hlast

theorem bindFlags_halts (hm : env.mode = .complete) (hc : c.position = t.span.stop)
    (hplaced : ∀ u ∈ c.tokens.toList, u.Placed) : ∀ {s : BindState} {as : List Argument},
      as ≠ [] → (∀ a ∈ as.dropLast, a.isSwitch = true) → env.bindFlags t s as c = .ok r →
        HaltsFrom s t c r
  | _, [], hne, _, _ => absurd rfl hne
  | s, [a], _, _, h => by
    unfold bindFlags at h
    split at h
    · cases h
      exact haltsFrom_here hc fun b hb => mem_bound_push_or rfl hb
    · split at h
      · cases h
      · rename_i s' c' hf
        cases h
        exact bindFollowing_halts hm hplaced hf
  | s, a :: d :: as, _, hs, h => by
    rw [List.dropLast_cons_cons, List.forall_mem_cons] at hs
    obtain ⟨ha, has⟩ := hs
    rw [bindFlags, if_pos ha] at h
    exact .of_push rfl (bindFlags_halts hm hc hplaced (List.cons_ne_nil _ _) has h)

theorem offer_halts (ht : t.Placed) (hk : t.kind = .value v) (hc : c.position = t.span.stop) :
    ∀ {as : List Argument}, env.offer s v c as = .ok (some r) → HaltsFrom s t c r
  | [], h => by cases h
  | a :: as, h => by
    unfold offer at h
    split at h
    · rename_i k htake
      cases h
      exact takeValue_halts ht hk hc htake
    · split at h
      · exact offer_halts ht hk hc h
      · cases h

/-- The list of the open run is bound. -/
def RunBound (s : BindState) : Prop :=
  ∀ a, s.openRun = some a → ∃ b ∈ s.bound, b.id = a.id ∧ ∃ items span, b.input = .list items span

theorem extendRun_halts (hs : RunBound s) (hk : t.kind = .value v) (hc : c.position = t.span.stop)
    (h : env.extendRun s v c = .ok (some r)) : HaltsFrom s t c r := by
  unfold extendRun at h
  split at h
  · cases h
  · rename_i a ha
    split at h
    · cases h
    · split at h
      · split at h
        · cases h
        · rename_i q hq
          obtain ⟨values, -, he⟩ := exists_of_map_eq_ok h
          cases he
          obtain ⟨used, before, u, w, hts, hlast, hu, hw, hp⟩ := runFrom_stop hk hc hq
          obtain ⟨b, hb, hid, items, span, hinput⟩ := hs a ha
          have hgrown : w ∈ (appendRun q.items values b).input.listItems := by
            simp only [appendRun, hinput, Literal.listItems, List.mem_append]
            exact .inr hw
          refine ⟨used, before, u, hts, hlast, .inRun ⟨w, hu, _, ?_, hgrown⟩ hp⟩
          exact List.mem_map.mpr ⟨b, hb, if_pos hid⟩
      · cases h

/-- **A step halts behind the last token that it uses up, or where a run stops.** -/
theorem bindToken_halts (hm : env.mode = .complete) (hs : RunBound s) (ht : t.Placed)
    (hc : c.position = t.span.stop) (hplaced : ∀ u ∈ c.tokens.toList, u.Placed)
    (h : env.bindToken s t c = .ok (some r)) : HaltsFrom s t c r := by
  unfold bindToken at h
  split at h
  · cases h
  · rename_i name assigned hk
    obtain ⟨q, hq, he⟩ := exists_of_map_eq_ok h
    cases he
    exact bindNamed_halts hm hk hc hplaced hq
  · rename_i v hk
    split at h
    · rename_i bundle hb
      obtain ⟨q, hq, he⟩ := exists_of_map_eq_ok h
      cases he
      obtain ⟨hne, hswitches⟩ := flagBundle?_switches hb
      exact bindFlags_halts hm hc hplaced hne hswitches hq
    · unfold bindUnnamed at h
      split at h
      · cases h
      · rename_i q hq
        cases h
        exact offer_halts ht hk hc hq
      · exact extendRun_halts hs hk hc h

/-! ### What is bound says which -/

variable {P : Argument → Prop} {seen bundles : List Token}
  {entries : List (BoundArgument × List Token)}

theorem Accounts.runBound (hA : env.Accounts P seen bundles entries s) : RunBound s := by
  intro a ha
  obtain ⟨hmulti, -, e, he, hne, hg⟩ := hA.ledger.openRun a ha
  obtain ⟨items, values, origin, -, -, -, -, -, hb⟩ := hg.run_of_vararg hmulti hne
  refine ⟨e.1, ?_, hg.id_eq, items, _, by rw [hb]; rfl⟩
  rw [hA.ledger.bound]
  exact List.mem_map_of_mem he

/-- The value of a token that has not been seen is on no list that is bound. -/
theorem Accounts.not_listed (hA : env.Accounts P seen bundles entries s)
    (hs : TokensPlaced (seen ++ [t])) : ¬ t.Listed s.bound := by
  classical
  rintro ⟨v, hk, b, hb, hv⟩
  rw [hA.ledger.bound] at hb
  obtain ⟨e, he, rfl⟩ := List.mem_map.mp hb
  obtain ⟨a, -, hg⟩ := hA.ledger.given e he
  have hmem : t ∈ seen ++ [t] := List.mem_append_right _ List.mem_cons_self
  have hcount := (hg.mono [t]).count_places hs hmem hk
  have hpos : 0 < e.1.places.count v := List.count_pos_iff.mpr (List.mem_cons_of_mem _ hv)
  rw [hcount, List.count_pos_iff] at hpos
  -- a token that the argument has taken would have the same literal
  obtain ⟨u, hu, huv⟩ := List.mem_filterMap.mp hpos
  have hseen : u ∈ seen := by
    refine List.mem_of_mem_filter (hA.values.mem_iff.mpr (List.mem_append_right _ ?_))
    exact List.mem_flatMap.mpr ⟨e, he, hu⟩
  have hut : u = t := eq_of_value hs (List.mem_append_left _ hseen) hmem
    (Token.value?_eq_some.mp huv) hk
  have hle := (List.pairwise_append.mp hs.2).2.2 u hseen t List.mem_cons_self
  have hlt := (hs.1 t hmem).1
  rw [hut] at hle
  omega

theorem Halts.closes (h : Halts s t r) (hn : ¬ t.Listed s.bound) :
    t.Closes r.1.bound r.2.tokens r.2.position := by
  cases h with
  | behind hp hb =>
    refine ⟨fun hl => ?_, fun _ => hp⟩
    obtain ⟨v, hk, b, hmem, hv⟩ := hl
    rcases hb v hk b hmem with hmem | hnot
    · exact absurd ⟨v, hk, b, hmem, hv⟩ hn
    · exact absurd hv hnot
  | inRun hl hp => exact ⟨fun _ => hp, fun hnot => absurd hl hnot⟩

theorem Binding.Ends.unique {b : Binding} {used used' : List Token} {sep sep' : Option Token}
    (h : b.Ends c used sep) (h' : b.Ends c used' sep') : used = used' ∧ sep = sep' := by
  have htokens : used ++ sep.toList = used' ++ sep'.toList :=
    Tokens.prepend_left_cancel (h.1.symm.trans h'.1)
  have hsep : sep.isSome = sep'.isSome := h.2.1.symm.trans h'.2.1
  cases sep with
  | none =>
    cases sep' with
    | none => exact ⟨by simpa using htokens, rfl⟩
    | some _ => cases hsep
  | some x =>
    cases sep' with
    | none => cases hsep
    | some y =>
      obtain ⟨hused, hlast⟩ := List.append_inj' htokens rfl
      exact ⟨hused, by simpa using hlast⟩

/-- **The tokens of a command end where the binder says**: behind the last of them, or at the end
of the line if that one came in a run. -/
theorem bindTokens_closes (hm : env.mode = .complete) (hO : env.Offers P) {b : Binding}
    (h : env.bindTokens s c = .ok b) : ∀ {seen bundles : List Token}
    {entries : List (BoundArgument × List Token)}, env.Accounts P seen bundles entries s →
      TokensPlaced (seen ++ c.tokens.toList) →
        ∃ used sep, b.Ends c used sep ∧ (used = [] → b.state = s) ∧
          ∀ before t, used = before ++ [t] →
            t.Closes b.state.bound (.prepend sep.toList b.cursor.tokens) b.state.stop := by
  fun_induction bindTokens env s c with
  | case1 s c _ hc =>
    intro seen bundles entries _ _
    cases h
    exact ⟨[], none, ⟨rfl, rfl, by simp⟩, fun _ => rfl, by simp⟩
  | case2 => cases h
  | case3 s c t rest hc hsep =>
    intro seen bundles entries _ _
    cases h
    exact ⟨[], some t, ⟨by simp [hc, TokenCursor.past], rfl, by simpa using hsep⟩, fun _ => rfl,
      by simp⟩
  | case4 => cases h
  | case5 s c t rest hc hsep hb =>
    intro seen bundles entries _ _
    cases h
    exact ⟨[], none, ⟨rfl, rfl, by simp⟩, fun _ => rfl, by simp⟩
  | case6 s c t rest hc hsep s' c' hb ih =>
    intro seen bundles entries hA hplaced
    rw [hc, Tokens.toList_more] at hplaced
    have hmem : ∀ u ∈ t :: rest.toList, u.Placed :=
      fun u hu => hplaced.1 u (List.mem_append_right _ hu)
    obtain ⟨used₁, before₁, u, hrest, hlast, hhalts⟩ :=
      bindToken_halts hm hA.runBound (hmem t List.mem_cons_self) rfl
        (fun u hu => hmem u (List.mem_cons_of_mem _ hu)) hb
    have hrest' : rest = .prepend used₁ c'.tokens := hrest
    obtain ⟨used₁', hrest'', he⟩ := bindToken_effect hO hb
    obtain rfl : used₁ = used₁' := Tokens.prepend_left_cancel (hrest.symm.trans hrest'')
    obtain ⟨bundles₁, entries₁, hA₁⟩ := he.accounts hA
    have hA₁' : env.Accounts P (seen ++ t :: used₁) bundles₁ entries₁
        { s' with stop := c'.position } :=
      ⟨⟨hA₁.ledger.bound, hA₁.ledger.ids, hA₁.ledger.given, hA₁.ledger.openRun⟩, hA₁.values,
        hA₁.bundles⟩
    have hplaced₁ : TokensPlaced (seen ++ t :: used₁ ++ c'.tokens.toList) := by
      rw [hrest', Tokens.toList_prepend] at hplaced
      simpa using hplaced
    obtain ⟨used₂, sep, ⟨ht₂, hsep₂, hs₂⟩, hsame, hcloses⟩ := ih h hA₁' hplaced₁
    refine ⟨t :: used₁ ++ used₂, sep, ⟨by simp [hc, hrest', ht₂], hsep₂, hs₂⟩, by simp, ?_⟩
    intro before w hw
    cases used₂ with
    | nil =>
      -- this step was the last
      rw [List.append_nil, hlast] at hw
      obtain rfl : u = w := by simpa using (List.append_inj' hw rfl).2
      have hsub : (seen ++ [u]).Sublist (seen ++ t :: used₁ ++ c'.tokens.toList) := by
        rw [hlast, List.append_assoc, List.append_assoc]
        refine (List.Sublist.refl seen).append ?_
        exact (List.sublist_append_left [u] _).trans (List.sublist_append_right before₁ _)
      have hnew := hA.not_listed (t := u) ⟨fun x hx => hplaced₁.1 x (hsub.subset hx),
        hplaced₁.2.sublist hsub⟩
      rw [hsame rfl, ← show c'.tokens = .prepend sep.toList b.cursor.tokens from ht₂]
      exact hhalts.closes hnew
    | cons x xs =>
      obtain ⟨before₂, y, hxs⟩ := List.eq_nil_or_concat' (x :: xs) |>.resolve_left (by simp)
      rw [hxs, ← List.append_assoc] at hw
      obtain rfl : y = w := by simpa using (List.append_inj' hw rfl).2
      exact hcloses before₂ y hxs

theorem bind_closes (hm : env.mode = .complete) (hO : env.Offers P)
    (hplaced : TokensPlaced c.tokens.toList) {b : Binding} (h : env.bind c = .ok b) :
    ∃ s used sep, b.Ends c used sep ∧ env.finish s = .ok b.state ∧
      (used = [] → s = .start c.position) ∧
      ∀ before t, used = before ++ [t] →
        t.Closes s.bound (.prepend sep.toList b.cursor.tokens) s.stop := by
  unfold bind at h
  split at h
  · cases h
  · rename_i q hq
    obtain ⟨s, hs, rfl⟩ := exists_of_map_eq_ok h
    obtain ⟨used, sep, hends, hsame, hcloses⟩ :=
      bindTokens_closes hm hO hq (.start env P c.position) (by simpa using hplaced)
    exact ⟨q.state, used, sep, hends, hs, hsame, hcloses⟩

end BindEnv
end CommandConsole
