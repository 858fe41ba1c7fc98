/-
# Binding keeps to the line

The inputs that binding gives to arguments are literals of the line, runs of
them, or nothing at a place of the line. A failure points at a token, at a node
of a literal, at the end of a command or at a literal that cannot be read: always
at a part of the line that is bound.

Key definitions: `Satisfies`, `ParseFail.PointsInto`, `Located`, `BindState.LiesIn`.
Key theorems: `BindEnv.takeValue_located`, `BindEnv.bindToken_located`,
`BindEnv.bindTokens_located`, `BindEnv.bind_located`.
-/
import CommandConsole.Binding.Binder
import CommandConsole.Proofs.ArgType.Mismatch
import CommandConsole.Proofs.Token.Located

namespace CommandConsole

/-- The outcome is a failure with `E`, or a result with `P`. -/
inductive Satisfies {ε α : Type} (E : ε → Prop) (P : α → Prop) : Except ε α → Prop
  | error {f : ε} (h : E f) : Satisfies E P (.error f)
  | ok {x : α} (h : P x) : Satisfies E P (.ok x)

namespace Satisfies

variable {ε α β : Type} {E : ε → Prop} {P : α → Prop} {Q : β → Prop} {e : Except ε α} {f : ε}
  {x : α}

theorem of_error (h : Satisfies E P e) (he : e = .error f) : E f := by
  cases h with
  | error h =>
    cases he
    exact h
  | ok h => cases he

theorem of_ok (h : Satisfies E P e) (he : e = .ok x) : P x := by
  cases h with
  | error h => cases he
  | ok h =>
    cases he
    exact h

theorem map (h : Satisfies E P e) {g : α → β} (hg : ∀ x, P x → Q (g x)) :
    Satisfies E Q (e.map g) := by
  cases h with
  | error h => exact .error h
  | ok h => exact .ok (hg _ h)

end Satisfies

/-- The failure shows a part of the text. -/
structure ParseFail.PointsInto (text : String) (f : ParseFail) : Prop where
  text_eq : f.excerpt.text = text
  span : f.span.LiesIn text

theorem ParseFail.PointsInto.ofLiteral {text : String} {f : LiteralFailure}
    (h : isBoundary text f.position = true) : (ParseFail.ofLiteral f text).PointsInto text :=
  ⟨rfl, characterSpan_liesIn h⟩

/-- A failure shows a part of the text, and a result satisfies `P`. -/
abbrev Located {α : Type} (text : String) (P : α → Prop) : Except ParseFail α → Prop :=
  Satisfies (ParseFail.PointsInto text) P

/-- The inputs lie in the text, and so does the place where the command ends. -/
structure BindState.LiesIn (text : String) (s : BindState) : Prop where
  bound : ∀ b ∈ s.bound, b.input.LiesIn text
  stop : isBoundary text s.stop = true

theorem BindState.LiesIn.push {text : String} {s : BindState} {b : BoundArgument}
    (hs : s.LiesIn text) (hb : b.input.LiesIn text) : (s.push b).LiesIn text :=
  ⟨fun d hd => (List.mem_append.mp hd).elim (hs.bound d) fun h => List.mem_singleton.mp h ▸ hb,
    hs.stop⟩

structure Run.LiesIn (text : String) (r : Run) : Prop where
  items : ∀ i ∈ r.items, i.LiesIn text
  cursor : r.cursor.LiesIn text

structure Taken.LiesIn (text : String) (t : Taken) : Prop where
  input : t.input.LiesIn text
  cursor : t.cursor.LiesIn text

theorem listOfRun_liesIn {text : String} {items : List Literal} (h : ∀ i ∈ items, i.LiesIn text) :
    (listOfRun items).LiesIn text := by
  refine .list (.coverAll fun s hs => ?_) h
  obtain ⟨i, hi, rfl⟩ := List.mem_map.mp hs
  exact (h i hi).span

theorem collectRun_located (text : String) (stops : Token → Bool) : ∀ {position : Nat} {ts : Tokens},
    isBoundary text position = true → ts.LieIn text →
      Satisfies (fun f => isBoundary text f.position = true) (Run.LiesIn text)
        (collectRun stops position ts)
  | _, .finished _, _, hts => .ok ⟨by simp, hts, hts⟩
  | _, .broken _ _, _, hts => .error hts
  | position, .more t rest, hp, hts => by
    have hstay : Run.LiesIn text ⟨[], ⟨position, .more t rest⟩, false⟩ := ⟨by simp, hp, hts⟩
    obtain ⟨ht, hrest⟩ := hts
    unfold collectRun
    split
    · rename_i v hk
      split
      · exact .ok hstay
      · refine (collectRun_located text stops ht.span.stop_isBoundary hrest).map fun r hr => ?_
        exact ⟨List.forall_mem_cons.mpr ⟨ht.value hk, hr.items⟩, hr.cursor⟩
    · exact .ok hstay

namespace BindEnv

variable {env : BindEnv} {s : BindState} {c : TokenCursor} {v : Literal} {a : Argument} {t : Token}

/-- What a token leaves behind lies in the line. -/
def Bound.LiesIn (text : String) (r : Bound) : Prop := r.1.LiesIn text ∧ r.2.LiesIn text

theorem fail_pointsInto (kind : FailKind) {span : Span} (h : span.LiesIn env.text) :
    (env.fail kind span).PointsInto env.text := ⟨rfl, h⟩

theorem mismatch_liesIn {m : TypeMismatch} (hv : v.LiesIn env.text)
    (h : a.type.convert v = .error m) : m.span.LiesIn env.text := by
  obtain ⟨n, hn, hspan⟩ := ArgType.convert_error_span h
  rw [hspan]
  exact hv n hn

theorem convert_located (a : Argument) (hv : v.LiesIn env.text) :
    Located env.text (fun _ => True) (env.convert a v) := by
  unfold convert
  cases hc : a.type.convert v with
  | ok w => exact .ok trivial
  | error m => exact .error (fail_pointsInto _ (mismatch_liesIn hv hc))

theorem convertEach_located (a : Argument) : ∀ {i : Nat} {items : List Literal},
    (∀ j ∈ items, j.LiesIn env.text) →
      Located env.text (fun _ => True) (env.convertEach a i items)
  | _, [], _ => .ok trivial
  | i, item :: items, h => by
    obtain ⟨hitem, hitems⟩ := List.forall_mem_cons.mp h
    unfold convertEach
    split
    · rename_i m hc
      have hspan := mismatch_liesIn hitem hc
      exact .error (fail_pointsInto _ hspan)
    · exact (convertEach_located a hitems).map fun _ _ => trivial

theorem runFrom_located (hv : v.LiesIn env.text) (hc : c.LiesIn env.text) :
    Located env.text (Run.LiesIn env.text) (env.runFrom s v c) := by
  have hrun := collectRun_located env.text
    (fun t => (flagBundle? env.policy (env.remaining s) t).isSome) hc.position hc.tokens
  unfold runFrom
  split
  · rename_i f hf
    exact .error (.ofLiteral (hrun.of_error hf))
  · rename_i r hr
    have hr := hrun.of_ok hr
    exact .ok ⟨List.forall_mem_cons.mpr ⟨hv, hr.items⟩, hr.cursor⟩

/-- **What an argument takes lies in the line.** -/
theorem takeValue_located (a : Argument) (hv : v.LiesIn env.text) (hc : c.LiesIn env.text) :
    Located env.text (Taken.LiesIn env.text) (env.takeValue s a v c) := by
  have hrun := runFrom_located (s := s) hv hc
  unfold takeValue
  split
  · exact (convert_located a hv).map fun _ _ => ⟨hv, hc⟩
  · split
    · split
      · rename_i f hf
        exact .error (hrun.of_error hf)
      · rename_i r hr
        have hr := hrun.of_ok hr
        have hlist := listOfRun_liesIn hr.items
        exact (convert_located a hlist).map fun _ _ => ⟨hlist, hr.cursor⟩
    · exact (convert_located a hv).map fun _ _ => ⟨hv, hc⟩
  · split
    · rename_i f hf
      exact .error (hrun.of_error hf)
    · rename_i r hr
      have hr := hrun.of_ok hr
      exact (convertEach_located a hr.items).map fun _ _ => ⟨listOfRun_liesIn hr.items, hr.cursor⟩

theorem itemsOf_liesIn {text : String} (hv : v.LiesIn text) : ∀ i ∈ itemsOf v, i.LiesIn text := by
  cases v with
  | list items span => exact hv.part
  | _ => exact List.forall_mem_singleton.mpr hv

theorem takeAssigned_located (a : Argument) (hv : v.LiesIn env.text) :
    Located env.text (fun r : Literal × Value => r.1.LiesIn env.text) (env.takeAssigned a v) := by
  have hitems := itemsOf_liesIn hv
  unfold takeAssigned
  split
  · exact (convert_located a hv).map fun _ _ => hv
  · have hinput : (if startsListRun a v then listOfRun [v] else v).LiesIn env.text := by
      split
      · exact listOfRun_liesIn (List.forall_mem_singleton.mpr hv)
      · exact hv
    exact (convert_located a hinput).map fun _ _ => hinput
  · exact (convertEach_located a hitems).map fun _ _ => listOfRun_liesIn hitems

theorem record_liesIn {origin : BindOrigin} {k : Taken} (hs : s.LiesIn env.text)
    (hk : k.LiesIn env.text) : (record s a origin k).LiesIn env.text :=
  have hpush := hs.push (b := ⟨a.id, k.input, k.value, origin⟩) hk.input
  ⟨hpush.bound, hpush.stop⟩

theorem bindSwitch_liesIn (a : Argument) (hs : s.LiesIn env.text) (ht : t.LiesIn env.text)
    (hc : c.LiesIn env.text) : Bound.LiesIn env.text (bindSwitch s a t c) := by
  have habsent : Bound.LiesIn env.text (s.push ⟨a.id, .empty t.span, .bool true, .named⟩, c) :=
    ⟨hs.push (.empty ht.span), hc⟩
  unfold bindSwitch
  dsimp only
  split
  · rename_i next rest htokens
    have hmore := hc.tokens
    rw [htokens] at hmore
    split
    · exact habsent
    · split
      · exact habsent
      · exact ⟨hs.push (.scalar hmore.1.span), .past hmore.1 hmore.2⟩
  · exact habsent

theorem bindFollowing_located (a : Argument) (origin : BindOrigin) (hs : s.LiesIn env.text)
    (ht : t.LiesIn env.text) (hc : c.LiesIn env.text) :
    Located env.text (Bound.LiesIn env.text) (env.bindFollowing s a t origin c) := by
  have htokens := hc.tokens
  unfold bindFollowing
  split
  · rename_i hbroken
    rw [hbroken] at htokens
    exact .error (.ofLiteral htokens)
  · split
    · exact .ok ⟨⟨hs.bound, hs.stop⟩, hc⟩
    · exact .error (fail_pointsInto _ ht.span)
  · rename_i next rest hmore
    rw [hmore] at htokens
    split
    · rename_i v hk
      have hnext := takeValue_located (s := s) a (htokens.1.value hk) (.past htokens.1 htokens.2)
      exact hnext.map fun k hk => ⟨record_liesIn hs hk, hk.cursor⟩
    · exact .error (fail_pointsInto _ ht.span)

theorem bindNamed_located {name : String} {assigned : Option Literal}
    (hs : s.LiesIn env.text) (ht : t.LiesIn env.text) (hk : t.kind = .named name assigned)
    (hc : c.LiesIn env.text) :
    Located env.text (Bound.LiesIn env.text) (env.bindNamed s t name assigned c) := by
  unfold bindNamed
  split
  · exact .error (fail_pointsInto _ ht.span)
  · rename_i a _
    split
    · exact .error (fail_pointsInto _ ht.span)
    · exact (takeAssigned_located a (ht.assigned hk)).map fun r hr => ⟨hs.push hr, hc⟩
    · split
      · exact .ok (bindSwitch_liesIn a hs ht hc)
      · exact bindFollowing_located a .named hs ht hc

theorem bindFlags_located (ht : t.LiesIn env.text) : ∀ {s : BindState} {as : List Argument}
    {c : TokenCursor}, s.LiesIn env.text → c.LiesIn env.text →
      Located env.text (Bound.LiesIn env.text) (env.bindFlags t s as c)
  | _, [], _, hs, hc => .ok ⟨hs, hc⟩
  | s, a :: as, c, hs, hc => by
    unfold bindFlags
    split
    · exact bindFlags_located ht (hs.push (.empty ht.span)) hc
    · have hfollowing := bindFollowing_located a .flag hs ht hc
      split
      · rename_i hf
        exact .error (hfollowing.of_error hf)
      · rename_i hr
        obtain ⟨hs', hc'⟩ := hfollowing.of_ok hr
        exact bindFlags_located ht hs' hc'

/-- What is left of an optional result lies in the line. -/
def Bound.LieIn (text : String) (o : Option Bound) : Prop := ∀ r ∈ o, Bound.LiesIn text r

theorem offer_located (hs : s.LiesIn env.text) (hv : v.LiesIn env.text) (hc : c.LiesIn env.text) :
    ∀ as : List Argument, Located env.text (Bound.LieIn env.text) (env.offer s v c as)
  | [] => .ok fun _ h => by cases h
  | a :: as => by
    have htake := takeValue_located (s := s) a hv hc
    unfold offer
    split
    · rename_i k hk
      have hk := htake.of_ok hk
      refine .ok fun r hr => ?_
      cases hr
      exact ⟨record_liesIn hs hk, hk.cursor⟩
    · rename_i f hf
      split
      · exact offer_located hs hv hc as
      · exact .error (htake.of_error hf)

theorem appendRun_liesIn {text : String} {items : List Literal} {values : List Value}
    {b : BoundArgument} (hb : b.input.LiesIn text) (hi : ∀ i ∈ items, i.LiesIn text) :
    (appendRun items values b).input.LiesIn text := by
  cases hinput : b.input with
  | list old span =>
    rw [hinput] at hb
    simp only [appendRun, hinput]
    refine .list (hb.span.cover (listOfRun_liesIn hi).span) fun i hmem => ?_
    exact (List.mem_append.mp hmem).elim (hb.part i) (hi i)
  | _ => simpa only [appendRun, hinput] using hb

theorem extendRun_located (hs : s.LiesIn env.text) (hv : v.LiesIn env.text)
    (hc : c.LiesIn env.text) :
    Located env.text (Bound.LieIn env.text) (env.extendRun s v c) := by
  have hnone : Located env.text (Bound.LieIn env.text) (.ok none) := .ok fun _ h => by cases h
  unfold extendRun
  split
  · exact hnone
  · rename_i a _
    split
    · exact hnone
    · split
      · have hrun := runFrom_located (s := s) hv hc
        split
        · rename_i hf
          exact .error (hrun.of_error hf)
        · rename_i r hr
          have hr := hrun.of_ok hr
          refine (convertEach_located a hr.items).map fun values _ q hq => ?_
          cases hq
          refine ⟨⟨fun d hd => ?_, hs.stop⟩, hr.cursor⟩
          obtain ⟨b, hb, rfl⟩ := List.mem_map.mp hd
          split
          · exact appendRun_liesIn (hs.bound b hb) hr.items
          · exact hs.bound b hb
      · exact hnone

theorem bindUnnamed_located (hs : s.LiesIn env.text) (hv : v.LiesIn env.text)
    (hc : c.LiesIn env.text) :
    Located env.text (Bound.LieIn env.text) (env.bindUnnamed s v c) := by
  have hoffer := offer_located hs hv hc (env.remaining s)
  unfold bindUnnamed
  split
  · rename_i hf
    exact .error (hoffer.of_error hf)
  · rename_i hr
    exact .ok (hoffer.of_ok hr)
  · exact extendRun_located hs hv hc

/-- **A token of the line is bound to what lies in the line.** -/
theorem bindToken_located (hs : s.LiesIn env.text) (ht : t.LiesIn env.text)
    (hc : c.LiesIn env.text) :
    Located env.text (Bound.LieIn env.text) (env.bindToken s t c) := by
  have hsome : ∀ r, Bound.LiesIn env.text r → Bound.LieIn env.text (some r) := by
    intro r hr q hq
    cases hq
    exact hr
  unfold bindToken
  split
  · exact .ok fun _ h => by cases h
  · rename_i hk
    exact (bindNamed_located hs ht hk hc).map hsome
  · rename_i hk
    split
    · exact (bindFlags_located ht hs hc).map hsome
    · exact bindUnnamed_located hs (ht.value hk) hc

/-- The state and the place that a binding ends with. -/
structure Binding.LiesIn (text : String) (b : Binding) : Prop where
  state : b.state.LiesIn text
  cursor : b.cursor.LiesIn text

/-- **So are all the tokens of a command.** -/
theorem bindTokens_located (hs : s.LiesIn env.text) (hc : c.LiesIn env.text) :
    Located env.text (Binding.LiesIn env.text) (env.bindTokens s c) := by
  fun_induction bindTokens env s c with
  | case1 s c stop htokens => exact .ok ⟨hs, hc⟩
  | case2 s c start f htokens =>
    have hbroken := hc.tokens
    rw [htokens] at hbroken
    exact .error (.ofLiteral hbroken)
  | case3 s c t rest htokens ht =>
    have hmore := hc.tokens
    rw [htokens] at hmore
    exact .ok ⟨hs, .past hmore.1 hmore.2⟩
  | case4 s c t rest htokens ht f hf =>
    have hmore := hc.tokens
    rw [htokens] at hmore
    exact .error ((bindToken_located hs hmore.1 (.past hmore.1 hmore.2)).of_error hf)
  | case5 s c t rest htokens ht hn => exact .ok ⟨hs, hc⟩
  | case6 s c t rest htokens ht s' c' hr ih =>
    have hmore := hc.tokens
    rw [htokens] at hmore
    obtain ⟨hs', hc'⟩ := (bindToken_located hs hmore.1 (.past hmore.1 hmore.2)).of_ok hr _ rfl
    exact ih ⟨hs'.bound, hc'.position⟩ hc'

theorem finish_located (hs : s.LiesIn env.text) :
    Located env.text (BindState.LiesIn env.text) (env.finish s) := by
  have hstop : (Span.point s.stop).LiesIn env.text := .point hs.stop
  unfold finish
  split
  · exact .ok hs
  · split
    · exact .error (fail_pointsInto _ hstop)
    · refine .ok ⟨fun b hb => ?_, hs.stop⟩
      rcases List.mem_append.mp hb with hb | hb
      · exact hs.bound b hb
      · obtain ⟨a, -, ha⟩ := List.mem_filterMap.mp hb
        obtain ⟨w, -, rfl⟩ := Option.map_eq_some_iff.mp ha
        exact .empty hstop

/-- **What a command is bound to lies in the line, and a failure points into it.** -/
theorem bind_located (env : BindEnv) (hc : c.LiesIn env.text) :
    Located env.text (Binding.LiesIn env.text) (env.bind c) := by
  have hstart : (BindState.start c.position).LiesIn env.text :=
    ⟨fun _ h => absurd h List.not_mem_nil, hc.position⟩
  have htokens := bindTokens_located hstart hc
  unfold bind
  split
  · rename_i hf
    exact .error (htokens.of_error hf)
  · rename_i b hb
    have hb := htokens.of_ok hb
    exact (finish_located hb.state).map fun s hs => ⟨hs, hb.cursor⟩

end BindEnv
end CommandConsole
