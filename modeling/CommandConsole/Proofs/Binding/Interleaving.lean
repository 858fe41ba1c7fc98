/-
# Runs among flags

A command that takes a run and switches takes the switches anywhere: in front of
the values, between them and behind them. A bundle of flags ends the run, and the
value behind it, which no switch takes, goes on with it. So what is bound in the
end is what the values are and which letters there are, wherever they stand.

Key definitions: `Argument.IsFlag`, `Token.Gives`, `Token.Switches`, `Interleaves`,
`BoundArgument.IsRun`, `BindState.Has`, `BindEnv.TakesRun`.
Key theorems: `BindEnv.bindToken_bundle`, `BindEnv.bindToken_value`,
`BindEnv.bindTokens_interleaved`, `BindEnv.bind_interleaved`.
-/
import CommandConsole.Proofs.Binding.Skipping
import CommandConsole.Proofs.Command.Acceptance

namespace CommandConsole

/-! ### Arguments and tokens -/

/-- A switch that has a short flag, and a default in case it is not given. -/
structure Argument.IsFlag (a : Argument) : Prop where
  type : a.type = .bool
  single : a.multiplicity = .single
  optional : a.isOptional = true
  short : a.short.isSome = true
  default : a.default.isSome = true

theorem Argument.IsFlag.isSwitch {a : Argument} (h : a.IsFlag) : a.isSwitch = true := by
  rw [Argument.isSwitch, h.type, h.single]
  rfl

/-- The token is a value of the argument `d`, and neither a bundle of flags nor a truth value. -/
structure Token.Gives (t : Token) (d : Argument) (v : Literal) : Prop where
  kind : t.kind = .value v
  takes : d.type.takes v = true
  noFlags : t.shortFlags? = none
  noTruth : ∀ text span, v = .scalar text span → readBool? text = none

/-- The token is a bundle of the short flags `letters`, and each is the flag of an argument. -/
structure Token.Switches (t : Token) (flags : List Argument) (letters : List Char) : Prop where
  spelled : t.shortFlags? = some letters
  known : ∀ l ∈ letters, ∃ a ∈ flags, a.short = some l

/-- The tokens are values `vs` of the argument `d`, in this order, and bundles of the short flags
`ls` anywhere among them. -/
inductive Interleaves (flags : List Argument) (d : Argument) :
    List Token → List Literal → List Char → Prop
  | nil : Interleaves flags d [] [] []
  | value {t : Token} {v : Literal} {ts : List Token} {vs : List Literal} {ls : List Char}
      (ht : t.Gives d v) (h : Interleaves flags d ts vs ls) :
      Interleaves flags d (t :: ts) (v :: vs) ls
  | bundle {t : Token} {letters ls : List Char} {ts : List Token} {vs : List Literal}
      (ht : t.Switches flags letters) (h : Interleaves flags d ts vs ls) :
      Interleaves flags d (t :: ts) vs (letters ++ ls)

theorem Interleaves.takes {flags : List Argument} {d : Argument} {ts : List Token}
    {vs : List Literal} {ls : List Char} (h : Interleaves flags d ts vs ls) :
    ∀ v ∈ vs, d.type.takes v = true := by
  induction h with
  | nil => exact List.forall_mem_nil _
  | value ht _ ih => exact List.forall_mem_cons.mpr ⟨ht.takes, ih⟩
  | bundle _ _ ih => exact ih

/-- No value is a truth value, so no switch takes one. -/
theorem Token.Gives.refused {t : Token} {d : Argument} {v : Literal} (h : t.Gives d v) :
    ArgType.bool.takes v = false := by
  cases v with
  | scalar text span =>
    rw [ArgType.takes, ArgType.convert_scalar rfl (fun c hc => by cases hc), ArgType.convertText,
      h.noTruth text span rfl]
    rfl
  | _ => rfl

/-! ### States -/

/-- The bound argument is the run `vs` of `d`. -/
def BoundArgument.IsRun (b : BoundArgument) (d : Argument) (vs : List Literal) : Prop :=
  ∃ span ws, b.input = .list vs span ∧ b.value = .list ws ∧
    List.Forall₂ (fun v w => d.type.convert v = .ok w) vs ws

/-- Items that the argument takes go on with its run. -/
theorem BoundArgument.IsRun.append {b : BoundArgument} {d : Argument} {vs items : List Literal}
    {values : List Value} (h : b.IsRun d vs)
    (hitems : List.Forall₂ (fun v w => d.type.convert v = .ok w) items values) :
    (BindEnv.appendRun items values b).IsRun d (vs ++ items) := by
  obtain ⟨span, ws, hinput, hvalue, hws⟩ := h
  refine ⟨span.cover (listOfRun items).span, ws ++ values, ?_, ?_, List.rel_append hws hitems⟩
  · rw [BindEnv.appendRun, hinput]
  · rw [BindEnv.appendRun, hvalue]

namespace BindState

/-- What is bound with an id. -/
def bound? (s : BindState) (id : String) : Option BoundArgument := s.bound.find? fun b => b.id == id

/-- The values `vs` of the run of `d` are bound, and the switches with the short flags `ls`. -/
structure Has (s : BindState) (flags : List Argument) (d : Argument) (vs : List Literal)
    (ls : List Char) : Prop where
  switches : ∀ a ∈ flags, ∀ l, a.short = some l →
    (s.bound? a.id).map (·.value) = if l ∈ ls then some (.bool true) else none
  unrun : vs = [] → d.FreeIn s
  run : vs ≠ [] → s.openRun = some d ∧ ∃ b, s.bound? d.id = some b ∧ b.IsRun d vs

variable {s : BindState} {a d : Argument} {flags : List Argument} {b : BoundArgument} {id : String}
  {l : Char} {vs : List Literal} {ls : List Char}

theorem bound?_eq_none : s.bound? a.id = none ↔ a.FreeIn s := by
  simp [bound?, Argument.FreeIn]

theorem mem_of_bound? (h : s.bound? id = some b) : b ∈ s.bound ∧ b.id = id :=
  ⟨List.mem_of_find?_eq_some h, by simpa using List.find?_some h⟩

/-- What is bound with an id changes with the bound arguments, if they keep their ids. -/
theorem bound?_map {f : BoundArgument → BoundArgument} (hf : ∀ b, (f b).id = b.id)
    (s : BindState) (pending : Pending) (id : String) :
    ({ s with bound := s.bound.map f, pending := pending } : BindState).bound? id =
      (s.bound? id).map f := by
  simp only [bound?, List.find?_map, Function.comp_def, hf]

theorem bound?_append (s : BindState) (bs : List BoundArgument) (id : String) :
    ({ s with bound := s.bound ++ bs } : BindState).bound? id =
      (s.bound? id).or (bs.find? fun b => b.id == id) :=
  List.find?_append

/-- What is bound last is found, if nothing is bound with its id before. -/
theorem bound?_push_self (h : s.bound? b.id = none) : (s.push b).bound? b.id = some b := by
  rw [push, bound?_append, h, Option.none_or]
  simp

theorem bound?_push_of_ne (h : b.id ≠ id) : (s.push b).bound? id = s.bound? id := by
  rw [push, bound?_append]
  simp [h]

namespace Has

theorem start (stop : Nat) : (BindState.start stop).Has flags d [] [] where
  switches := fun _ _ _ _ => rfl
  unrun := fun _ b hb => by cases hb
  run := fun h => absurd rfl h

end Has

end BindState

namespace BindEnv

/-- The command takes a run and, in front of it in the declaration, switches. -/
structure TakesRun (env : BindEnv) (flags : List Argument) (d : Argument) : Prop where
  mode : env.mode = .complete
  source : env.source = .static (flags ++ [d])
  declarable : Argument.Declarable (flags ++ [d])
  flags : ∀ a ∈ flags, a.IsFlag
  run : d.multiplicity = .vararg

variable {env : BindEnv} {flags : List Argument} {d a b : Argument} {s : BindState} {t : Token}
  {c : TokenCursor} {v : Literal} {l : Char} {letters ls seen : List Char} {vs : List Literal}

namespace TakesRun

theorem eq_of_id (h : env.TakesRun flags d) (ha : a ∈ flags) (hb : b ∈ flags)
    (hid : a.id = b.id) : a = b :=
  h.declarable.tellable.eq_of_id (List.mem_append_left _ ha) (List.mem_append_left _ hb) hid

theorem id_ne (h : env.TakesRun flags d) (ha : a ∈ flags) : a.id ≠ d.id :=
  ((List.pairwise_append.mp h.declarable.apart).2.2 a ha d (List.mem_singleton_self d)).id

/-- A short flag belongs to one argument. -/
theorem eq_of_short (h : env.TakesRun flags d) (ha : a ∈ flags) (hb : b ∈ flags)
    (hal : a.short = some l) (hbl : b.short = some l) : a = b :=
  h.declarable.eq_of_short (List.mem_append_left _ ha) (List.mem_append_left _ hb) hal hbl

/-- The switches that are not given, and the run if it is not. -/
theorem remaining_eq (h : env.TakesRun flags d) (s : BindState) :
    env.remaining s = (flags.filter fun a => !s.bound.any fun b => b.id == a.id) ++
      if (s.bound.any fun b => b.id == d.id) = true then [] else [d] := by
  rw [remaining, h.source, ArgumentSource.remaining, ArgumentSource.candidates, List.filter_append]
  congr 1
  cases hd : s.bound.any fun b => b.id == d.id <;> simp [hd]

theorem mem_remaining (h : env.TakesRun flags d) (ha : a ∈ flags) (hfree : a.FreeIn s) :
    a ∈ env.remaining s := by
  rw [h.remaining_eq]
  refine List.mem_append_left _ (List.mem_filter.mpr ⟨ha, ?_⟩)
  simpa [Argument.FreeIn] using hfree

/-- A switch does not take a value of the run. -/
theorem skips (h : env.TakesRun flags d) (ha : a ∈ flags) (ht : t.Gives d v) :
    env.Skips s v c a := by
  have hflag := h.flags a ha
  have hliteral : ¬a.StartsRun v := by
    rintro (hm | ⟨hm, -⟩) <;> rw [hflag.single] at hm <;> cases hm
  refine ⟨hflag.optional, .literal hliteral (by rw [hflag.type]; exact ht.refused), fun hm => ?_⟩
  rw [Argument.Misreads, hflag.single] at hm
  cases hm.1

end TakesRun

/-! ### Bundles of flags -/

/-- Switches alone are a bundle under every policy. -/
theorem bundleAllowed_switches {policy : ShortFlagPolicy} {as : List Argument} (hne : as ≠ [])
    (h : ∀ a ∈ as, a.isSwitch = true) : bundleAllowed policy as = true := by
  rw [bundleAllowed, List.getLast?_eq_getLast_of_ne_nil hne]
  dsimp only
  rw [h _ (List.getLast_mem hne), Bool.true_or, Bool.and_true]
  exact List.all_eq_true.mpr fun a ha => h a (List.dropLast_subset as ha)

/-- An unbound argument is found by its short flag. -/
theorem find?_short {args remaining : List Argument} (hd : Argument.Declarable args)
    (hsub : ∀ b ∈ remaining, b ∈ args) (ha : a ∈ remaining) (hl : a.short = some l) :
    remaining.find? (fun b => b.short == some l) = some a := by
  cases hf : remaining.find? fun b => b.short == some l with
  | none => exact absurd hl (by simpa using List.find?_eq_none.mp hf a ha)
  | some b =>
    have hbl : b.short = some l := by simpa using List.find?_some hf
    rw [hd.eq_of_short (hsub b (List.mem_of_find?_eq_some hf)) (hsub a ha) hbl hl]

/-- The letters of switches that are unbound, each of another one, are a bundle of them. -/
theorem flagBundle?_of_switches {policy : ShortFlagPolicy} {args remaining as : List Argument}
    (hd : Argument.Declarable args) (hsub : ∀ b ∈ remaining, b ∈ args)
    (ht : t.shortFlags? = some letters) (has : ∀ a ∈ as, a ∈ remaining ∧ a.isSwitch = true)
    (hshort : as.map (·.short) = letters.map some) (hpair : as.Pairwise fun a b => a.id ≠ b.id) :
    flagBundle? policy remaining t = some as := by
  have hfind : List.Forall₂ (fun a l => remaining.find? (fun b => b.short == some l) = some a)
      as letters :=
    ((List.forall₂_and_left _ _).mpr ⟨has, map_short_eq_iff.mp hshort⟩).imp
      fun a l h => find?_short hd hsub h.1.1 h.2
  have hne : as ≠ [] := by
    rintro rfl
    exact Token.ne_nil_of_shortFlags? ht (List.map_eq_nil_iff.mp hshort.symm)
  rw [flagBundle?, ht]
  dsimp only
  rw [flagArguments?_eq_some_iff.mpr ⟨hfind, fun _ _ => List.forall_mem_nil _, hpair⟩,
    Option.filter_some, bundleAllowed_switches hne fun a ha => (has a ha).2]
  rfl

/-- What a bundle of switches binds. -/
def given (t : Token) (as : List Argument) : List BoundArgument :=
  as.map fun a => ⟨a.id, .empty t.span, .bool true, .flag⟩

theorem bindFlags_switches : ∀ {s : BindState} {as : List Argument},
    (∀ a ∈ as, a.isSwitch = true) →
      env.bindFlags t s as c = .ok ({ s with bound := s.bound ++ given t as }, c)
  | s, [], _ => by rw [bindFlags, given, List.map_nil, List.append_nil]
  | s, a :: as, h => by
    obtain ⟨ha, has⟩ := List.forall_mem_cons.mp h
    rw [bindFlags, if_pos ha, bindFlags_switches has]
    simp [BindState.push, given]

theorem exists_converted : ∀ {vs : List Literal}, (∀ v ∈ vs, d.type.takes v = true) →
    ∃ ws, List.Forall₂ (fun v w => d.type.convert v = .ok w) vs ws
  | [], _ => ⟨[], .nil⟩
  | v :: vs, h => by
    obtain ⟨hv, hvs⟩ := List.forall_mem_cons.mp h
    obtain ⟨w, hw⟩ := ArgType.takes_iff.mp hv
    obtain ⟨ws, hws⟩ := exists_converted hvs
    exact ⟨w :: ws, .cons hw hws⟩

/-- The first values of the run bind its argument, which comes behind all switches. -/
theorem bindToken_first (h : env.TakesRun flags d) (hs : s.Has flags d [] seen) (ht : t.Gives d v)
    {r : Run} (hr : env.runFrom s v c = .ok r) (htakes : ∀ x ∈ r.items, d.type.takes x = true) :
    ∃ s', env.bindToken s t c = .ok (some (s', r.cursor)) ∧ s'.Has flags d r.items seen := by
  have hfree := hs.unrun rfl
  have hremaining : env.remaining s =
      (flags.filter fun a => !s.bound.any fun b => b.id == a.id) ++ [d] := by
    rw [h.remaining_eq, if_neg (by simpa [Argument.FreeIn] using hfree)]
  obtain ⟨ws, hws⟩ := exists_converted htakes
  obtain ⟨items, hitems⟩ := items_of_runFrom hr
  let k : Taken := ⟨listOfRun r.items, .list ws, env.pendingAfter d 0 r, r.cursor⟩
  have htake : env.takeValue s d v c = .ok k := by
    rw [takeValue_run env s c (.inl h.run), hr]
    dsimp only
    rw [convertRun, if_pos h.run, convertEach_of_forall₂ 0 hws]
    rfl
  have hbind : env.bindToken s t c = .ok (some (record s d .positional k, r.cursor)) := by
    rw [bindToken_skips ht.kind (flagBundle?_of_shortFlags? ht.noFlags) hremaining
      fun b hb => h.skips (List.mem_of_mem_filter hb) ht, offer, htake]
  refine ⟨_, hbind, fun a ha l hal => ?switches, fun hnil => ?unrun, fun _ => ?run⟩
  case switches =>
    have hother := BindState.bound?_push_of_ne (s := s)
      (b := ⟨d.id, k.input, k.value, .positional⟩) (h.id_ne ha).symm
    exact (congrArg _ hother).trans (hs.switches a ha l hal)
  case unrun =>
    rw [hitems] at hnil
    cases hnil
  case run =>
    have hlast := BindState.bound?_push_self (s := s)
      (b := ⟨d.id, k.input, k.value, .positional⟩) (BindState.bound?_eq_none.mpr hfree)
    exact ⟨if_pos h.run, _, hlast, _, ws, rfl, rfl, hws⟩

/-- The state where the run of `d` goes on with the items. -/
def furtherRun (s : BindState) (d : Argument) (items : List Literal) (values : List Value)
    (pending : Pending) : BindState :=
  { s with
    bound := s.bound.map fun b => if b.id = d.id then appendRun items values b else b
    pending := pending }

theorem bound?_furtherRun (s : BindState) (d : Argument) (items : List Literal)
    (values : List Value) (pending : Pending) (id : String) :
    (furtherRun s d items values pending).bound? id =
      (s.bound? id).map fun b => if b.id = d.id then appendRun items values b else b :=
  BindState.bound?_map (fun b => by split <;> rfl) s pending id

/-- An open run goes on with the values that its argument takes. -/
theorem extendRun_eq_some (hopen : s.openRun = some d) {b : BoundArgument}
    (hb : s.bound? d.id = some b) (hv : d.type.takes v = true) {r : Run}
    (hr : env.runFrom s v c = .ok r) {values : List Value}
    (hvalues : List.Forall₂ (fun v w => d.type.convert v = .ok w) r.items values) :
    env.extendRun s v c = .ok (some
      (furtherRun s d r.items values (env.pendingAfter d (runLength b) r), r.cursor)) := by
  have hfind : (s.bound.find? fun b => b.id == d.id) = some b := hb
  rw [extendRun, hopen]
  dsimp only
  rw [hfind]
  dsimp only
  rw [if_pos hv, hr]
  dsimp only
  rw [convertEach_of_forall₂ _ hvalues, furtherRun, hopen]
  rfl

/-- Further values go on with the run. -/
theorem bindToken_further (h : env.TakesRun flags d) (hs : s.Has flags d vs seen) (hvs : vs ≠ [])
    (ht : t.Gives d v) {r : Run} (hr : env.runFrom s v c = .ok r)
    (htakes : ∀ x ∈ r.items, d.type.takes x = true) :
    ∃ s', env.bindToken s t c = .ok (some (s', r.cursor)) ∧
      s'.Has flags d (vs ++ r.items) seen := by
  obtain ⟨hopen, b, hb, hrun⟩ := hs.run hvs
  obtain ⟨hmem, hid⟩ := BindState.mem_of_bound? hb
  obtain ⟨values, hvalues⟩ := exists_converted htakes
  have hremaining : env.remaining s =
      (flags.filter fun a => !s.bound.any fun b => b.id == a.id) ++ [] := by
    rw [h.remaining_eq, if_pos (List.any_eq_true.mpr ⟨b, hmem, by simp [hid]⟩)]
  have hbind : env.bindToken s t c = env.extendRun s v c := by
    rw [bindToken_skips ht.kind (flagBundle?_of_shortFlags? ht.noFlags) hremaining
      fun b hb => h.skips (List.mem_of_mem_filter hb) ht, offer]
  refine ⟨_, hbind.trans (extendRun_eq_some hopen hb ht.takes hr hvalues),
    fun a ha l hal => ?switches, fun hnil => ?unrun, fun _ => ?run⟩
  case switches =>
    have hother : ∀ b ∈ s.bound? a.id,
        (if b.id = d.id then appendRun r.items values b else b) = b := fun b hb =>
      if_neg ((BindState.mem_of_bound? hb).2 ▸ h.id_ne ha)
    rw [bound?_furtherRun, Option.map_congr hother, Option.map_id']
    exact hs.switches a ha l hal
  case unrun => exact absurd (List.append_eq_nil_iff.mp hnil).1 hvs
  case run =>
    refine ⟨hopen, appendRun r.items values b, ?_, hrun.append hvalues⟩
    rw [bound?_furtherRun, hb, Option.map_some, if_pos hid]

/-- **A value of the run goes to the run, with the values up to the next bundle.** -/
theorem bindToken_value (h : env.TakesRun flags d) (hs : s.Has flags d vs seen) (ht : t.Gives d v)
    {r : Run} (hr : env.runFrom s v c = .ok r) (htakes : ∀ x ∈ r.items, d.type.takes x = true) :
    ∃ s', env.bindToken s t c = .ok (some (s', r.cursor)) ∧
      s'.Has flags d (vs ++ r.items) seen := by
  cases vs with
  | nil => exact bindToken_first h hs ht hr htakes
  | cons v' vs => exact bindToken_further h hs (List.cons_ne_nil v' vs) ht hr htakes

end BindEnv
end CommandConsole
