/-
# The ledger of bound values

While a command is bound, every value token seen so far is on one account: it
is a bundle of flags, or one argument has taken it. The ledger lists for each
bound argument the tokens it has taken, and each token of the line moves it on
by what the effect of the token says.

Key definitions: `Argument.Given`, `Ledger`, `Token.Bundles`, `BindEnv.Accounts`.
Key theorems: `BindEnv.Effect.ledger`, `BindEnv.TokenEffect.accounts`,
`BindEnv.bindTokens_accounts`.
-/
import CommandConsole.Proofs.Binding.Effect
import Mathlib.Data.List.Nodup

namespace CommandConsole

namespace Span

theorem cover_assoc (s t u : Span) : (s.cover t).cover u = s.cover (t.cover u) := by
  simp only [cover, mk.injEq]
  omega

theorem foldl_cover (s : Span) : ∀ (t : Span) (us : List Span),
    us.foldl cover (s.cover t) = s.cover (us.foldl cover t)
  | _, [] => rfl
  | t, u :: us => by
    rw [List.foldl_cons, List.foldl_cons, cover_assoc, foldl_cover s (t.cover u) us]

theorem coverAll_append : ∀ {ss ts : List Span}, ss ≠ [] → ts ≠ [] →
    coverAll (ss ++ ts) = (coverAll ss).cover (coverAll ts)
  | [], _, h, _ => absurd rfl h
  | _, [], _, h => absurd rfl h
  | s :: ss, t :: ts, _, _ => by
    simp only [coverAll, List.cons_append, List.foldl_append, List.foldl_cons]
    rw [foldl_cover]

end Span

theorem listOfRun_append {old more : List Literal} (ho : old ≠ []) (hm : more ≠ []) :
    .list (old ++ more) ((listOfRun old).span.cover (listOfRun more).span) =
      listOfRun (old ++ more) := by
  simp only [listOfRun, Literal.span, List.map_append]
  rw [Span.coverAll_append (by simpa using ho) (by simpa using hm)]

/-- A bound argument of `a` got its input from the tokens `seen`, of which it has taken the
values `ts`. -/
inductive Argument.Given (a : Argument) (seen : List Token) : BoundArgument → List Token → Prop
  | taken {input : Literal} {value : Value} {origin : BindOrigin} {ts : List Token}
      (ho : origin ≠ .default) (ht : a.Takes ts input) (hs : ts.Sublist seen)
      (h : a.Holds input value) : Given a seen ⟨a.id, input, value, origin⟩ ts
  | assigned {t : Token} {name : String} {v input : Literal} {value : Value} (ht : t ∈ seen)
      (hk : t.kind = .named name (some v)) (he : v.isEmpty = false)
      (hi : input = v ∨ input = listOfRun (BindEnv.itemsOf v))
      (h : a.Holds input value) : Given a seen ⟨a.id, input, value, .named⟩ []
  | switch {t : Token} {origin : BindOrigin} (ht : t ∈ seen) (hs : a.isSwitch = true)
      (ho : origin ≠ .default) : Given a seen ⟨a.id, .empty t.span, .bool true, origin⟩ []
  | answer {t : Token} {word : String} {b : Bool} (ht : t ∈ seen) (hs : a.isSwitch = true)
      (hw : t.word? = some word) (hb : readBool? word = some b) :
      Given a seen ⟨a.id, .scalar word t.span, .bool b, .named⟩ [t]

namespace Argument

variable {a : Argument} {seen more ts : List Token} {b : BoundArgument}

theorem Takes.all_isValue {input : Literal} (h : a.Takes ts input) :
    ∀ t ∈ ts, t.isValue = true := by
  cases h with
  | one hm hk =>
    intro t ht
    rw [List.mem_singleton.mp ht]
    exact Token.isValue_of_kind hk
  | run hne ht => exact Token.all_isValue ht

theorem Takes.ne_nil {input : Literal} (h : a.Takes ts input) : ts ≠ [] := by
  cases h with
  | one => simp
  | run hne ht =>
    rintro rfl
    exact hne (by simpa using ht.symm)

theorem Given.id_eq (h : a.Given seen b ts) : b.id = a.id := by
  cases h <;> rfl

theorem Given.origin_ne (h : a.Given seen b ts) : b.origin ≠ .default := by
  cases h <;> first | assumption | simp

theorem Given.mono (h : a.Given seen b ts) (more : List Token) : a.Given (seen ++ more) b ts := by
  cases h with
  | taken ho ht hs hv => exact .taken ho ht (hs.trans (List.sublist_append_left _ _)) hv
  | assigned ht hk he hi hv => exact .assigned (List.mem_append_left _ ht) hk he hi hv
  | switch ht hs ho => exact .switch (List.mem_append_left _ ht) hs ho
  | answer ht hs hw hb => exact .answer (List.mem_append_left _ ht) hs hw hb

/-- A vararg that has taken tokens has taken them as a run. -/
theorem Given.run_of_vararg (hm : a.multiplicity = .vararg) (h : a.Given seen b ts)
    (hts : ts ≠ []) :
    ∃ items values origin, items ≠ [] ∧ ts.map Token.value? = items.map some ∧ ts.Sublist seen ∧
      List.Forall₂ (fun i v => a.type.convert i = .ok v) items values ∧ origin ≠ .default ∧
      b = ⟨a.id, listOfRun items, .list values, origin⟩ := by
  have hswitch : a.isSwitch = false := by simp [isSwitch, hm]
  cases h with
  | taken ho ht hs hv =>
    cases ht with
    | one hn _ => exact absurd hm hn
    | run hne htok =>
      simp only [Holds, hm] at hv
      obtain ⟨items, span, values, hi, rfl, hvs⟩ := hv
      cases hi
      exact ⟨_, values, _, hne, htok, hs, hvs, ho, rfl⟩
  | assigned => exact absurd rfl hts
  | switch _ hs _ => simp [hswitch] at hs
  | answer _ hs _ _ => simp [hswitch] at hs

/-- A run goes on with more values. -/
theorem Given.extend {items : List Literal} {values : List Value} {us : List Token}
    (hm : a.multiplicity = .vararg) (h : a.Given seen b ts) (hts : ts ≠ []) (hne : items ≠ [])
    (hu : us.map Token.value? = items.map some) (hs : us.Sublist more)
    (hv : List.Forall₂ (fun i v => a.type.convert i = .ok v) items values) :
    a.Given (seen ++ more) (BindEnv.appendRun items values b) (ts ++ us) := by
  obtain ⟨old, olds, origin, hone, hot, hos, hov, ho, rfl⟩ := h.run_of_vararg hm hts
  have hb : BindEnv.appendRun items values ⟨a.id, listOfRun old, .list olds, origin⟩ =
      ⟨a.id, listOfRun (old ++ items), .list (olds ++ values), origin⟩ := by
    rw [← listOfRun_append hone hne]
    rfl
  rw [hb]
  refine .taken ho (.run (by simp [hone]) (by simp [hot, hu])) (hos.append hs) ?_
  exact holds_vararg hm (List.rel_append hov hv)

end Argument

/-- The bound arguments of a state with the tokens that each has taken, out of those seen. -/
structure Ledger (P : Argument → Prop) (seen : List Token)
    (entries : List (BoundArgument × List Token)) (s : BindState) : Prop where
  bound : s.bound = entries.map Prod.fst
  ids : (s.bound.map (·.id)).Nodup
  given : ∀ e ∈ entries, ∃ a, P a ∧ a.Given seen e.1 e.2
  openRun : ∀ a, s.openRun = some a →
    a.multiplicity = .vararg ∧ P a ∧ ∃ e ∈ entries, e.2 ≠ [] ∧ a.Given seen e.1 e.2

namespace Ledger

variable {P : Argument → Prop} {seen more ts : List Token} {s s' : BindState}
  {entries : List (BoundArgument × List Token)} {a : Argument}

/-- What is on the ledger is no default. -/
theorem origin_ne (h : Ledger P seen entries s) : ∀ b ∈ s.bound, b.origin ≠ .default := by
  intro b hb
  rw [h.bound] at hb
  obtain ⟨e, he, rfl⟩ := List.mem_map.mp hb
  obtain ⟨a, -, hg⟩ := h.given e he
  exact hg.origin_ne

theorem start (P : Argument → Prop) (stop : Nat) : Ledger P [] [] (.start stop) where
  bound := rfl
  ids := List.nodup_nil
  given := by simp
  openRun := by simp [BindState.start]

theorem mono (h : Ledger P seen entries s) (more : List Token) :
    Ledger P (seen ++ more) entries s where
  bound := h.bound
  ids := h.ids
  given := fun e he =>
    let ⟨a, hP, hg⟩ := h.given e he
    ⟨a, hP, hg.mono more⟩
  openRun := fun a ha =>
    let ⟨hm, hP, e, he, hne, hg⟩ := h.openRun a ha
    ⟨hm, hP, e, he, hne, hg.mono more⟩

/-- An argument that was unbound is bound. -/
theorem push {b : BoundArgument} (h : Ledger P seen entries s) (hP : P a) (hf : a.FreeIn s)
    (hg : a.Given seen b ts) (hb : s'.bound = s.bound ++ [b])
    (ho : ∀ a', s'.openRun = some a' →
      s.openRun = some a' ∨ (a' = a ∧ a.multiplicity = .vararg ∧ ts ≠ [])) :
    Ledger P seen (entries ++ [(b, ts)]) s' where
  bound := by simp [hb, h.bound]
  ids := by
    have hnew : b.id ∉ s.bound.map (·.id) := by
      intro hmem
      obtain ⟨d, hd, he⟩ := List.mem_map.mp hmem
      exact hf d hd (he.trans hg.id_eq)
    rw [hb, List.map_append, List.nodup_append]
    refine ⟨h.ids, by simp, ?_⟩
    intro i hi j hj
    rintro rfl
    exact hnew (by simpa [List.mem_singleton.mp hj] using hi)
  given := by
    intro e he
    rcases List.mem_append.mp he with he | he
    · exact h.given e he
    · rw [List.mem_singleton.mp he]
      exact ⟨a, hP, hg⟩
  openRun := by
    intro a' ha'
    rcases ho a' ha' with ha' | ⟨rfl, hm, hne⟩
    · obtain ⟨hm, hP', e, he, hrest⟩ := h.openRun a' ha'
      exact ⟨hm, hP', e, List.mem_append_left _ he, hrest⟩
    · exact ⟨hm, hP, _, List.mem_append_right _ List.mem_cons_self, hne, hg⟩

/-- Entries of one id are one entry. -/
theorem eq_of_id_eq (h : Ledger P seen entries s) {e e' : BoundArgument × List Token}
    (he : e ∈ entries) (he' : e' ∈ entries) (hid : e.1.id = e'.1.id) : e = e' := by
  have hn : (entries.map fun e => e.1.id).Nodup := by
    have := h.ids
    rwa [h.bound, List.map_map] at this
  exact List.inj_on_of_nodup_map hn he he' hid

/-- The entries with more tokens, and `g` applied, where the id is `id`. -/
def put (id : String) (g : BoundArgument → BoundArgument) (us : List Token)
    (entries : List (BoundArgument × List Token)) : List (BoundArgument × List Token) :=
  entries.map fun e => if e.1.id = id then (g e.1, e.2 ++ us) else e

theorem put_eq_self {id : String} {g : BoundArgument → BoundArgument} {us : List Token}
    (h : ∀ e ∈ entries, e.1.id ≠ id) : put id g us entries = entries := by
  have heach : ∀ e ∈ entries, (if e.1.id = id then (g e.1, e.2 ++ us) else e) = e :=
    fun e he => if_neg (h e he)
  rw [put, List.map_congr_left heach, List.map_id']

/-- Tokens put to one entry are tokens put to the ledger. -/
theorem put_perm (h : Ledger P seen entries s) {e : BoundArgument × List Token} (he : e ∈ entries)
    (g : BoundArgument → BoundArgument) (us : List Token) :
    ((put e.1.id g us entries).flatMap Prod.snd).Perm (entries.flatMap Prod.snd ++ us) := by
  obtain ⟨before, after, hsplit⟩ := List.append_of_mem he
  have hn : (entries.map fun e => e.1.id).Nodup := by
    have := h.ids
    rwa [h.bound, List.map_map] at this
  rw [hsplit, List.map_append, List.map_cons, List.nodup_append] at hn
  obtain ⟨-, hafter, hdisj⟩ := hn
  have hb : put e.1.id g us before = before :=
    put_eq_self fun d hd => hdisj _ (List.mem_map_of_mem hd) _ List.mem_cons_self
  have ha : put e.1.id g us after = after := by
    refine put_eq_self fun d hd heq => ?_
    exact (List.nodup_cons.mp hafter).1 (heq ▸ List.mem_map_of_mem hd)
  have hput : put e.1.id g us entries = before ++ (g e.1, e.2 ++ us) :: after := by
    rw [hsplit, put, List.map_append, List.map_cons, if_pos rfl]
    rw [put] at hb ha
    rw [hb, ha]
  rw [hput, hsplit]
  simp only [List.flatMap_append, List.flatMap_cons, List.append_assoc]
  exact (List.perm_append_comm.append_left _).append_left _

/-- The open run goes on. -/
theorem extend {items : List Literal} {values : List Value} {pending : Pending}
    (h : Ledger P seen entries s) (hr : s.openRun = some a) (hne : items ≠ [])
    (ht : ts.map Token.value? = items.map some) (hs : ts.Sublist more)
    (hv : List.Forall₂ (fun i v => a.type.convert i = .ok v) items values) :
    Ledger P (seen ++ more) (put a.id (BindEnv.appendRun items values) ts entries) { s with
      bound := s.bound.map fun b => if b.id = a.id then BindEnv.appendRun items values b else b
      pending := pending } := by
  obtain ⟨hm, hP, e, he, hene, hg⟩ := h.openRun a hr
  have hid : e.1.id = a.id := hg.id_eq
  have hgrown : a.Given (seen ++ more) (BindEnv.appendRun items values e.1) (e.2 ++ ts) :=
    hg.extend hm hene hne ht hs hv
  refine ⟨?_, ?_, ?_, ?_⟩
  · simp only [h.bound, put, List.map_map]
    refine List.map_congr_left fun d _ => ?_
    simp only [Function.comp_apply]
    split <;> rfl
  · have : ∀ b : BoundArgument, (if b.id = a.id then BindEnv.appendRun items values b else b).id =
        b.id := fun b => by split <;> rfl
    simpa [List.map_map, Function.comp_def, this] using h.ids
  · intro d hd
    obtain ⟨d', hd', rfl⟩ := List.mem_map.mp hd
    split
    · rename_i heq
      rw [h.eq_of_id_eq hd' he (heq.trans hid.symm)]
      exact ⟨a, hP, hgrown⟩
    · obtain ⟨a', hP', hg'⟩ := h.given d' hd'
      exact ⟨a', hP', hg'.mono more⟩
  · intro a' ha'
    obtain rfl : a = a' := Option.some.inj (hr.symm.trans ha')
    refine ⟨hm, hP, _, List.mem_map.mpr ⟨e, he, if_pos hid⟩, ?_, hgrown⟩
    simp [hene]

end Ledger

namespace BindEnv

variable {env : BindEnv} {P : Argument → Prop} {t : Token} {s s' : BindState}
  {ts used seen more : List Token} {entries : List (BoundArgument × List Token)}

theorem Effect.all_isValue (h : env.Effect P t s ts s') : ∀ u ∈ ts, u.isValue = true := by
  cases h with
  | assigned => simp
  | switch => simp
  | answer _ _ _ hw _ =>
    obtain ⟨span, hk⟩ := Token.kind_of_word? hw
    simpa using Token.isValue_of_kind hk
  | taken _ _ _ ht _ => exact ht.all_isValue
  | hanging => simp
  | extended _ _ ht _ => exact Token.all_isValue ht

/-- **An effect moves the ledger on by the tokens that it takes.** -/
theorem Effect.ledger (h : env.Effect P t s ts s') (hL : Ledger P seen entries s)
    (hs : ts.Sublist more) (ht : t ∈ seen ++ more) :
    ∃ entries', Ledger P (seen ++ more) entries' s' ∧
      (entries'.flatMap Prod.snd).Perm (entries.flatMap Prod.snd ++ ts) := by
  have hL' := hL.mono more
  have hwhere : ts.Sublist (seen ++ more) := hs.trans (List.sublist_append_right _ _)
  have happend : ∀ b : BoundArgument, ((entries ++ [(b, ts)]).flatMap Prod.snd).Perm
      (entries.flatMap Prod.snd ++ ts) := fun b => by simp
  cases h with
  | assigned hP hf hk he hi hv =>
    exact ⟨_, hL'.push hP hf (.assigned ht hk he hi hv) rfl fun _ => .inl, happend _⟩
  | switch hP hf hsw ho =>
    exact ⟨_, hL'.push hP hf (.switch ht hsw ho) rfl fun _ => .inl, happend _⟩
  | answer hP hf hsw hw hb =>
    have hmem := hwhere.subset List.mem_cons_self
    exact ⟨_, hL'.push hP hf (.answer hmem hsw hw hb) rfl fun _ => .inl, happend _⟩
  | taken hP hf ho htakes hv =>
    refine ⟨_, hL'.push hP hf (.taken ho htakes hwhere hv) rfl ?_, happend _⟩
    intro a' ha'
    simp only [record, BindState.push] at ha'
    split at ha'
    · rename_i hm
      exact .inr ⟨(Option.some.inj ha').symm, hm, htakes.ne_nil⟩
    · split at ha'
      · cases ha'
      · exact .inl ha'
  | hanging =>
    exact ⟨entries, ⟨hL'.bound, hL'.ids, hL'.given, hL'.openRun⟩, by simp⟩
  | extended hr hne htok hv =>
    obtain ⟨-, -, e, he, -, hg⟩ := hL.openRun _ hr
    exact ⟨_, hL.extend hr hne htok hs hv, hg.id_eq ▸ hL.put_perm he _ ts⟩

/-- What is bound stays bound, in the same way. -/
theorem Effect.keeps (h : env.Effect P t s ts s') : ∀ b ∈ s.bound,
    ∃ b' ∈ s'.bound, b'.id = b.id ∧ b'.origin = b.origin := by
  intro b hb
  have hpush : ∀ d : BoundArgument, ∃ b' ∈ (s.push d).bound, b'.id = b.id ∧ b'.origin = b.origin :=
    fun d => ⟨b, BindState.mem_bound_push.mpr (.inl hb), rfl, rfl⟩
  cases h with
  | assigned => exact hpush _
  | switch => exact hpush _
  | answer => exact hpush _
  | taken => exact hpush _
  | hanging => exact ⟨b, hb, rfl, rfl⟩
  | extended =>
    refine ⟨_, List.mem_map_of_mem hb, ?_⟩
    split <;> exact ⟨rfl, rfl⟩

theorem FlagEffects.all_isValue {as : List Argument} (h : env.FlagEffects P t s as ts s') :
    ∀ u ∈ ts, u.isValue = true := by
  induction h with
  | nil => simp
  | cons h _ _ ih =>
    intro u hu
    rcases List.mem_append.mp hu with hu | hu
    · exact h.all_isValue u hu
    · exact ih u hu

theorem FlagEffects.keeps {as : List Argument} (h : env.FlagEffects P t s as ts s') :
    ∀ b ∈ s.bound, ∃ b' ∈ s'.bound, b'.id = b.id ∧ b'.origin = b.origin := by
  induction h with
  | nil => exact fun b hb => ⟨b, hb, rfl, rfl⟩
  | cons h _ _ ih =>
    intro b hb
    obtain ⟨b₁, hb₁, hid₁, ho₁⟩ := h.keeps b hb
    obtain ⟨b₂, hb₂, hid₂, ho₂⟩ := ih b₁ hb₁
    exact ⟨b₂, hb₂, hid₂.trans hid₁, ho₂.trans ho₁⟩

/-- In a complete line every argument of a bundle is bound as a flag. -/
theorem FlagEffects.bound {as : List Argument} (h : env.FlagEffects P t s as ts s')
    (hm : env.mode = .complete) : ∀ a ∈ as, ∃ b ∈ s'.bound, b.id = a.id ∧ b.origin = .flag := by
  induction h with
  | nil => simp
  | cons _ hb hs ih =>
    intro a ha
    rcases List.mem_cons.mp ha with rfl | ha
    · obtain ⟨b, hb, hid, ho⟩ := hb hm
      obtain ⟨b', hb', hid', ho'⟩ := hs.keeps b hb
      exact ⟨b', hb', hid'.trans hid, ho'.trans ho⟩
    · exact ih a ha

theorem FlagEffects.ledger {as : List Argument} (h : env.FlagEffects P t s as ts s') :
    ∀ {seen : List Token} {entries : List (BoundArgument × List Token)}, Ledger P seen entries s →
      t ∈ seen → ∃ entries', Ledger P (seen ++ ts) entries' s' ∧
        (entries'.flatMap Prod.snd).Perm (entries.flatMap Prod.snd ++ ts) := by
  induction h with
  | nil =>
    intro seen entries hL _
    exact ⟨entries, by simpa using hL, by simp⟩
  | cons h _ _ ih =>
    intro seen entries hL ht
    obtain ⟨entries₁, hL₁, hp₁⟩ := h.ledger hL (List.Sublist.refl _) (List.mem_append_left _ ht)
    obtain ⟨entries₂, hL₂, hp₂⟩ := ih hL₁ (List.mem_append_left _ ht)
    refine ⟨entries₂, by simpa using hL₂, ?_⟩
    rw [← List.append_assoc]
    exact hp₂.trans (hp₁.append_right _)

end BindEnv

/-- A bundle of short flags, each of which is bound as a flag. -/
def Token.Bundles (P : Argument → Prop) (t : Token) (bound : List BoundArgument) : Prop :=
  ∃ letters, t.shortFlags? = some letters ∧ ∀ ch ∈ letters, ∃ a, P a ∧ a.short = some ch ∧
    ∃ b ∈ bound, b.id = a.id ∧ b.origin = .flag

theorem Token.Bundles.keeps {P : Argument → Prop} {t : Token} {bound bound' : List BoundArgument}
    (h : t.Bundles P bound)
    (hk : ∀ b ∈ bound, ∃ b' ∈ bound', b'.id = b.id ∧ b'.origin = b.origin) :
    t.Bundles P bound' := by
  obtain ⟨letters, hl, hbound⟩ := h
  refine ⟨letters, hl, fun ch hch => ?_⟩
  obtain ⟨a, hP, hshort, b, hb, hid, ho⟩ := hbound ch hch
  obtain ⟨b', hb', hid', ho'⟩ := hk b hb
  exact ⟨a, hP, hshort, b', hb', hid'.trans hid, ho'.trans ho⟩

open scoped List

namespace BindEnv

/-- Every value seen is a bundle of flags, or is on the ledger, and no one is there twice. -/
structure Accounts (env : BindEnv) (P : Argument → Prop) (seen bundles : List Token)
    (entries : List (BoundArgument × List Token)) (s : BindState) : Prop where
  ledger : Ledger P seen entries s
  values : (seen.filter Token.isValue).Perm (bundles ++ entries.flatMap Prod.snd)
  bundles : env.mode = .complete → ∀ t ∈ bundles, t.Bundles P s.bound

variable {env : BindEnv} {P : Argument → Prop} {t : Token} {s s' : BindState}
  {used seen bundles : List Token} {entries : List (BoundArgument × List Token)}

theorem TokenEffect.all_isValue (h : env.TokenEffect P t s used s') :
    ∀ u ∈ used, u.isValue = true := by
  cases h with
  | named _ h => exact h.all_isValue
  | unnamed _ h => exact fun u hu => h.all_isValue u (List.mem_cons_of_mem _ hu)
  | flags _ _ _ h => exact h.all_isValue

/-- **Every token of a command moves the accounts on by itself and the values it uses up.** -/
theorem TokenEffect.accounts (h : env.TokenEffect P t s used s')
    (hA : env.Accounts P seen bundles entries s) : ∃ bundles' entries',
      env.Accounts P (seen ++ t :: used) bundles' entries' s' := by
  have hused : used.filter Token.isValue = used := List.filter_eq_self.mpr h.all_isValue
  have hmem : t ∈ seen ++ t :: used := List.mem_append_right _ List.mem_cons_self
  cases h with
  | named hv h =>
    obtain ⟨entries', hL, hp⟩ := h.ledger hA.ledger (List.sublist_cons_self t used) hmem
    refine ⟨bundles, entries', hL, ?_, fun hm b hb => (hA.bundles hm b hb).keeps h.keeps⟩
    rw [List.filter_append, List.filter_cons_of_neg (by simp [hv]), hused]
    calc seen.filter Token.isValue ++ used
      _ ~ (bundles ++ entries.flatMap Prod.snd) ++ used := hA.values.append_right _
      _ = bundles ++ (entries.flatMap Prod.snd ++ used) := List.append_assoc ..
      _ ~ bundles ++ entries'.flatMap Prod.snd := hp.symm.append_left _
  | unnamed hv h =>
    obtain ⟨entries', hL, hp⟩ := h.ledger hA.ledger (List.Sublist.refl _) hmem
    refine ⟨bundles, entries', hL, ?_, fun hm b hb => (hA.bundles hm b hb).keeps h.keeps⟩
    rw [List.filter_append, List.filter_cons_of_pos hv, hused]
    calc seen.filter Token.isValue ++ t :: used
      _ ~ (bundles ++ entries.flatMap Prod.snd) ++ t :: used := hA.values.append_right _
      _ = bundles ++ (entries.flatMap Prod.snd ++ t :: used) := List.append_assoc ..
      _ ~ bundles ++ entries'.flatMap Prod.snd := hp.symm.append_left _
  | flags hl hP hb h =>
    rename_i letters bundle
    obtain ⟨entries', hL, hp⟩ := h.ledger (hA.ledger.mono [t]) (by simp)
    rw [List.append_assoc, List.singleton_append] at hL
    refine ⟨t :: bundles, entries', hL, ?_, fun hm b hb' => ?_⟩
    · rw [List.filter_append, List.filter_cons_of_pos (Token.isValue_of_shortFlags? hl), hused]
      calc seen.filter Token.isValue ++ t :: used
        _ ~ (bundles ++ entries.flatMap Prod.snd) ++ t :: used := hA.values.append_right _
        _ ~ t :: ((bundles ++ entries.flatMap Prod.snd) ++ used) := List.perm_middle
        _ = t :: bundles ++ (entries.flatMap Prod.snd ++ used) := by simp
        _ ~ t :: bundles ++ entries'.flatMap Prod.snd := hp.symm.append_left _
    · rcases List.mem_cons.mp hb' with rfl | hb'
      · refine ⟨letters, hl, fun ch hch => ?_⟩
        have hmem : some ch ∈ bundle.map (·.short) := hb ▸ List.mem_map_of_mem hch
        obtain ⟨a, ha, hshort⟩ := List.mem_map.mp hmem
        exact ⟨a, hP a ha, hshort, h.bound hm a ha⟩
      · exact (hA.bundles hm b hb').keeps h.keeps

/-! ### A whole command -/

/-- The token that ends the command `b`, if a separator does. -/
def Binding.Ends (c : TokenCursor) (used : List Token) (sep : Option Token) (b : Binding) : Prop :=
  c.tokens = .prepend (used ++ sep.toList) b.cursor.tokens ∧ b.bySeparator = sep.isSome ∧
    ∀ t ∈ sep, t.isSeparator = true

/-- **Binding tokens keeps the accounts**, and uses up the tokens of the command in order. -/
theorem bindTokens_accounts (hO : env.Offers P) {c : TokenCursor} {b : Binding}
    (h : env.bindTokens s c = .ok b) : ∀ {seen bundles : List Token}
    {entries : List (BoundArgument × List Token)}, env.Accounts P seen bundles entries s →
      ∃ used sep bundles' entries', b.Ends c used sep ∧ (∀ t ∈ used, t.isSeparator = false) ∧
        env.Accounts P (seen ++ used) bundles' entries' b.state := by
  fun_induction bindTokens env s c with
  | case1 s c _ hc =>
    intro seen bundles entries hA
    cases h
    exact ⟨[], none, bundles, entries, ⟨rfl, rfl, by simp⟩, by simp, by simpa using hA⟩
  | case2 => cases h
  | case3 s c t rest hc hsep =>
    intro seen bundles entries hA
    cases h
    exact ⟨[], some t, bundles, entries, ⟨by simp [hc, TokenCursor.past], rfl, by simpa using hsep⟩,
      by simp, by simpa using hA⟩
  | case4 => cases h
  | case5 s c t rest hc hsep hb =>
    intro seen bundles entries hA
    cases h
    exact ⟨[], none, bundles, entries, ⟨rfl, rfl, by simp⟩, by simp, by simpa using hA⟩
  | case6 s c t rest hc hsep s' c' hb ih =>
    intro seen bundles entries hA
    obtain ⟨used, hu, he⟩ := bindToken_effect hO hb
    obtain ⟨bundles₁, entries₁, hA₁⟩ := he.accounts hA
    have hA₁' : env.Accounts P (seen ++ t :: used) bundles₁ entries₁
        { s' with stop := c'.position } :=
      ⟨⟨hA₁.ledger.bound, hA₁.ledger.ids, hA₁.ledger.given, hA₁.ledger.openRun⟩, hA₁.values,
        hA₁.bundles⟩
    obtain ⟨used₂, sep, bundles₂, entries₂, ⟨ht₂, hsep₂, hs₂⟩, hn₂, hA₂⟩ := ih h hA₁'
    refine ⟨t :: used ++ used₂, sep, bundles₂, entries₂, ⟨?_, hsep₂, hs₂⟩, ?_, by simpa using hA₂⟩
    · have hu' : rest = .prepend used c'.tokens := hu
      simp [hc, hu', ht₂]
    · intro u hu
      rcases List.mem_append.mp hu with hu | hu
      · rcases List.mem_cons.mp hu with rfl | hu
        · simpa using hsep
        · exact Token.isSeparator_of_isValue (he.all_isValue u hu)
      · exact hn₂ u hu

theorem Accounts.start (env : BindEnv) (P : Argument → Prop) (stop : Nat) :
    env.Accounts P [] [] [] (.start stop) :=
  ⟨Ledger.start P stop, .refl _, by simp⟩

theorem bind_accounts (hO : env.Offers P) {c : TokenCursor} {b : Binding} (h : env.bind c = .ok b) :
    ∃ s used sep bundles entries, b.Ends c used sep ∧ (∀ t ∈ used, t.isSeparator = false) ∧
      env.Accounts P used bundles entries s ∧ env.finish s = .ok b.state := by
  unfold bind at h
  split at h
  · cases h
  · rename_i q hq
    obtain ⟨s, hs, rfl⟩ := exists_of_map_eq_ok h
    obtain ⟨used, sep, bundles, entries, hends, hn, hA⟩ :=
      bindTokens_accounts hO hq (.start env P c.position)
    exact ⟨q.state, used, sep, bundles, entries, hends, hn, by simpa using hA, hs⟩

/-- A command of a whole line ends with the defaults, and lacks no required argument. -/
theorem finish_complete {s' : BindState} (hm : env.mode = .complete) (h : env.finish s = .ok s') :
    s' = bindDefaults s (env.remaining s) ∧ ∀ a ∈ env.remaining s, a.isOptional = true := by
  rw [finish, hm] at h
  dsimp only at h
  split at h
  · cases h
  · rename_i hnone
    cases h
    exact ⟨rfl, fun a ha => by simpa using List.find?_eq_none.mp hnone a ha⟩

/-- The arguments given are those that are not defaults. -/
theorem filter_bindDefaults {s : BindState} (h : ∀ b ∈ s.bound, b.origin ≠ .default)
    (unbound : List Argument) :
    (bindDefaults s unbound).bound.filter (fun b => b.origin ≠ .default) = s.bound := by
  rw [bindDefaults, List.filter_append, List.filter_eq_self.mpr (by simpa using h)]
  rw [List.append_right_eq_self, List.filter_eq_nil_iff]
  intro b hb
  obtain ⟨a, -, ha⟩ := List.mem_filterMap.mp hb
  obtain ⟨v, -, rfl⟩ := Option.map_eq_some_iff.mp ha
  simp

end BindEnv
end CommandConsole
