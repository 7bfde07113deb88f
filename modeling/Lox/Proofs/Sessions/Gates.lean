import Lox.Proofs.Evaluation.Printed
import Lox.Proofs.Sessions.Depths
import Lox.Proofs.Sessions.Turns

/-!
# Gates and failures

A static diagnostic, new or old, closes the way to execution. Otherwise a text is executed, and what
fails in it becomes one diagnostic, the last one. Either way the step has a result, unless the stack
or the rounds of a loop do not suffice for it, or a function of the host misses an argument.
-/
namespace Lox

open Binding (resolve)

namespace Diagnostics

variable {d : Diagnostics} {es : List Diagnostic}

theorem hasStatic_iff : d.hasStatic = true ↔ ∃ e ∈ d.toList, e.isStatic = true := by
  simp [hasStatic, toList]

theorem hasRuntime_iff : d.hasRuntime = true ↔ ∃ e ∈ d.toList, e.isStatic = false := by
  simp [hasRuntime, toList]

/-- Static entries are noticed. -/
theorem hasStatic_addAll_iff (h : ∀ e ∈ es, e.isStatic = true) :
    (d.addAll es).hasStatic = true ↔ d.hasStatic = true ∨ es ≠ [] := by
  rw [hasStatic_iff, hasStatic_iff, toList_addAll]
  constructor
  · rintro ⟨e, he, hstatic⟩
    rcases List.mem_append.1 he with he | he
    · exact .inl ⟨e, he, hstatic⟩
    · exact .inr (List.ne_nil_of_mem he)
  · rintro (⟨e, he, hstatic⟩ | hne)
    · exact ⟨e, List.mem_append_left _ he, hstatic⟩
    · obtain ⟨e, he⟩ := List.exists_mem_of_ne_nil es hne
      exact ⟨e, List.mem_append_right _ he, h e he⟩

/-- The status is decided by the worst that was ever reported. -/
theorem exitStatus_iff (d : Diagnostics) :
    (d.exitStatus = 65 ↔ ∃ e ∈ d.toList, e.isStatic = true) ∧
    (d.exitStatus = 70 ↔ (∀ e ∈ d.toList, e.isStatic = false) ∧ d.toList ≠ []) ∧
    (d.exitStatus = 0 ↔ d.toList = []) := by
  have hnone : d.hasStatic = false ↔ ∀ e ∈ d.toList, e.isStatic = false := by
    rw [← Bool.not_eq_true, hasStatic_iff]
    simp
  rw [exitStatus, ← hasStatic_iff]
  cases hstatic : d.hasStatic with
  | true =>
    obtain ⟨e, he, -⟩ := hasStatic_iff.1 hstatic
    have hne : d.toList ≠ [] := List.ne_nil_of_mem he
    rw [← hnone, hstatic]
    simp [hne]
  | false =>
    have hall := hnone.1 hstatic
    cases hruntime : d.hasRuntime with
    | true =>
      obtain ⟨e, he, -⟩ := hasRuntime_iff.1 hruntime
      have hne : d.toList ≠ [] := List.ne_nil_of_mem he
      simp only [Bool.false_eq_true, if_false, if_true]
      exact ⟨by simp, by simp [hne]; exact hall, by simp [hne]⟩
    | false =>
      have hempty : d.toList = [] := by
        refine List.eq_nil_iff_forall_not_mem.2 fun e he => ?_
        have hno : ¬ ∃ e ∈ d.toList, e.isStatic = false := by
          rw [← hasRuntime_iff, hruntime]
          exact Bool.false_ne_true
        exact hno ⟨e, he, hall e he⟩
      simp [hempty]

end Diagnostics

/-- What breaks off an evaluation in a session. -/
def Abort.Outside (a : Abort) : Prop :=
  a = .stackExhausted ∨ a = .roundsExhausted ∨ a = .missingArgument

theorem Abort.outside_or_atUse (a : Abort) : a.Outside ∨ (Failure.abort a).AtUse := by
  cases a <;> simp [Outside, Failure.AtUse]

section
variable {m : Machine} {site : Site} {name : Token}

/-- Only a recorded use is looked for outside of the global scope. -/
theorem exists_hops_of_holder (h : Run.holder m site name = .error .pastGlobal) :
    ∃ hops, m.table.lookup site = some hops ∧ m.store.ancestor? hops m.scope = none := by
  unfold Run.holder at h
  split at h
  · next hops hlookup =>
    refine ⟨hops, hlookup, ?_⟩
    unfold Store.holderAt at h
    split at h
    · assumption
    · split at h <;> cases h
  · unfold Store.holder at h
    split at h <;> cases h

theorem exists_hops_of_lookUp (h : Fails (Run.lookUp site name) m (.abort .pastGlobal)) :
    ∃ hops, m.table.lookup site = some hops ∧ m.store.ancestor? hops m.scope = none := by
  obtain ⟨m', h⟩ := h
  suffices hpast : Run.holder m site name = .error .pastGlobal from exists_hops_of_holder hpast
  unfold Run.lookUp at h
  cases hholder : Run.holder m site name with
  | error fault =>
    rw [hholder] at h
    cases fault with
    | undefined => cases h
    | pastGlobal => rfl
  | ok id =>
    rw [hholder] at h
    have hget : ∀ fault, m.store.getIn id name.lexeme = .error fault → fault = .undefined := by
      intro fault hfault
      unfold Store.getIn at hfault
      split at hfault <;> cases hfault
      rfl
    cases hvalue : m.store.getIn id name.lexeme with
    | ok v =>
      simp only [bind, Except.bind, hvalue] at h
      cases h
    | error fault =>
      obtain rfl := hget fault hvalue
      simp only [bind, Except.bind, hvalue] at h
      cases h

theorem exists_hops_of_assign {v : Value}
    (h : Fails (Run.assign site name v) m (.abort .pastGlobal)) :
    ∃ hops, m.table.lookup site = some hops ∧ m.store.ancestor? hops m.scope = none := by
  obtain ⟨m', h⟩ := h
  suffices hpast : Run.holder m site name = .error .pastGlobal from exists_hops_of_holder hpast
  unfold Run.assign at h
  cases hholder : Run.holder m site name with
  | ok id =>
    rw [hholder] at h
    cases h
  | error fault =>
    rw [hholder] at h
    cases fault with
    | undefined => cases h
    | pastGlobal => rfl

end

namespace Session

variable {limits : Limits} {clock : Clock} {hosts : List HostFunction} {s : Session}
  {us : List Code} {vs : List Value} {p : Point} {a : Abort} {unit : Code} {m : Machine}

/-- No evaluation of a session fails for want of a scope, of a token, or of a function. -/
theorem Sound.not_failsAt (h : Sound limits s us vs) (hp : Begins limits s us vs p)
    (ha : (Failure.abort a).AtUse) : ¬ p.FailsAt limits.rounds (.abort a) := by
  intro hfails
  obtain ⟨q, site, token, hreaches, hraises⟩ := hfails.exists_raises ha
  have hreached : Reached limits s us vs q := ⟨p, hp, hreaches⟩
  obtain ⟨fault, hfault⟩ := hraises.exists_fault
  obtain rfl : a = .pastGlobal := by cases fault <;> cases hfault; rfl
  cases hraises with
  | access hfail =>
    obtain ⟨hops, hlookup, hnone⟩ := exists_hops_of_lookUp hfail
    obtain ⟨id, hid, -⟩ := h.exists_ancestor hreached rfl .access (.refl _) hlookup
    exact Option.some_ne_none id (hid.symm.trans hnone)
  | @assign room e m P v m₁ hv hfail =>
    obtain ⟨hops, hlookup, hnone⟩ := exists_hops_of_assign hfail
    have hlater := (goesOn_evaluate limits.rounds room m e).ok hv
    obtain ⟨id, hid, -⟩ := h.exists_ancestor hreached rfl .assignment hlater hlookup
    exact Option.some_ne_none id (hid.symm.trans hnone)

/-- Units of a session break off for reasons outside of them only. -/
theorem Sound.outside_of_execution (h : Sound limits s us vs) (hunit : unit ∈ us)
    (hend : execution limits unit s.machine = .error (.abort a) m) : a.Outside := by
  refine a.outside_or_atUse.resolve_right fun ha => ?_
  have hfails : Fails (execution limits unit) s.machine (.abort a) := ⟨m, hend⟩
  match unit, hunit, hfails with
  | .program ss, hunit, hfails =>
    obtain hfails | ⟨_, _, -, hfails⟩ := hfails.of_bind
    · exact h.not_failsAt (.program hunit) ha hfails
    · exact not_fails_pure _ hfails
  | .expression none, _, hfails => exact not_fails_pure _ hfails
  | .expression (some e), hunit, hfails =>
    obtain hfails | ⟨v, m₁, -, hfails⟩ := hfails.of_bind
    · exact h.not_failsAt (.expression hunit) ha hfails
    · obtain ⟨m', hprint⟩ := hfails
      cases hprint

/-- Something static is reported by the time a text could be executed: before it came, when it was
read, or when its names were bound. -/
def Faulty (limits : Limits) (r : Code.Reading) (s : Session) : Prop :=
  s.diagnostics.hasStatic = true ∨ r.diagnostics ≠ [] ∨ (resolve limits.room r.code).reports ≠ []

/-- A step does nothing but report, and perhaps bind names. -/
structure Refused (r : Code.Reading) (s s' : Session) (new : List Diagnostic) : Prop where
  machine : s'.machine = { s.machine with table := s'.machine.table }
  static : ∀ d ∈ new, d.isStatic = true
  /-- Names are bound only if there was nothing static after the reading. -/
  table : s'.machine.table = s.machine.table ∨ s.diagnostics.hasStatic = false ∧ r.diagnostics = []

/-- A step executes its text. -/
structure Executed (limits : Limits) (r : Code.Reading) (s s' : Session)
    (new : List Diagnostic) : Prop where
  /-- One failure at most is reported. -/
  once : new = [] ∨ ∃ line message, new = [.runtime line message]
  printed : s.machine.printed <+: s'.machine.printed
  /-- What was printed by some point of the execution stays. -/
  kept : r.code.depth ≤ limits.room →
    ∀ q, Reached limits (named limits r.code (taken r s)) [r.code] [] q →
      q.machine.printed <+: s'.machine.printed

/-- What a step answers. -/
inductive Answered (mode : Mode) (s s' : Session) (new : List Diagnostic) :
    EStateM.Result Failure Session (Option String) → Prop where
  /-- A program has no text, and an expression has none if something is reported. -/
  | nothing (h : mode = .expression → s.diagnostics.hasStatic = true ∨ new ≠ []) :
    Answered mode s s' new (.ok none s')
  /-- An expression has the text that was printed last. -/
  | text {earlier text} (hmode : mode = .expression) (hstatic : s.diagnostics.hasStatic = false)
      (hnew : new = []) (hprinted : s'.machine.printed = s.machine.printed ++ earlier ++ [text]) :
    Answered mode s s' new (.ok (some text) s')
  | broken {a : Abort} (h : a.Outside) : Answered mode s s' new (.error (.abort a) s')

section
variable {mode : Mode} {source : String} {r : Code.Reading} {text : Option String}

theorem printed_isPrefix {m m' : Machine} (h : m.output <:+ m'.output) :
    m.printed <+: m'.printed :=
  List.reverse_prefix.2 h

theorem toList_named (limits : Limits) (r : Code.Reading) (s : Session) :
    (named limits r.code (taken r s)).diagnostics.toList = s.diagnostics.toList ++ r.diagnostics ++
      (resolve limits.room r.code).reports.map (·.diagnostic) := by
  simp [named, told, taken]

theorem hasStatic_taken_iff (hr : ∀ d ∈ r.diagnostics, d.isStatic = true) :
    (taken r s).diagnostics.hasStatic = true ↔
      s.diagnostics.hasStatic = true ∨ r.diagnostics ≠ [] :=
  Diagnostics.hasStatic_addAll_iff hr

/-- The gate before the execution is closed for a faulty text only. -/
theorem hasStatic_named_iff (hr : ∀ d ∈ r.diagnostics, d.isStatic = true) :
    (named limits r.code (taken r s)).diagnostics.hasStatic = true ↔ Faulty limits r s := by
  have hbound : ∀ d ∈ (resolve limits.room r.code).reports.map (·.diagnostic),
      d.isStatic = true := by
    rintro _ hd
    obtain ⟨_, -, rfl⟩ := List.mem_map.1 hd
    rfl
  refine (Diagnostics.hasStatic_addAll_iff hbound).trans ?_
  rw [hasStatic_taken_iff hr, Faulty, or_assoc]
  simp

/-- A text is read as what it should be. -/
theorem mode_of_ofSource? {room : Nat} {site : Site}
    (h : Code.ofSource? mode room site source = some r) :
    mode = .program ∧ (∃ ss, r.code = .program ss) ∨
      mode = .expression ∧ ∃ tree, r.code = .expression tree := by
  simp only [Code.ofSource?, Code.ofTokens?] at h
  cases mode with
  | program =>
    obtain ⟨_, ⟨_, -, rfl⟩, rfl⟩ := by simpa only [Option.map_eq_some_iff] using h
    exact .inl ⟨rfl, _, rfl⟩
  | expression =>
    obtain ⟨_, ⟨_, -, rfl⟩, rfl⟩ := by simpa only [Option.map_eq_some_iff] using h
    exact .inr ⟨rfl, _, rfl⟩

/-- An execution that ends gives the text of its expression, which is printed last. -/
theorem result_of_execution (h : execution limits unit s.machine = .ok text m) :
    ((∃ ss, unit = .program ss) ∨ unit.isMissing = true) ∧ text = none ∨
      ∃ e earlier t, unit = .expression (some e) ∧ text = some t ∧
        m.printed = s.machine.printed ++ earlier ++ [t] := by
  match unit with
  | .program ss =>
    obtain ⟨_, _, -, hend⟩ := ok_of_bind h
    cases hend
    exact .inl ⟨.inl ⟨ss, rfl⟩, rfl⟩
  | .expression none =>
    cases h
    exact .inl ⟨.inr rfl, rfl⟩
  | .expression (some e) =>
    obtain ⟨v, m₁, hv, hend⟩ := ok_of_bind h
    cases hend
    obtain ⟨texts, htexts⟩ := ((goesOn_evaluate limits.rounds limits.room s.machine e).ok hv).output
    refine .inr ⟨e, texts.reverse, v.display, rfl, rfl, ?_⟩
    simp [Machine.printed, htexts]

/-- What was printed by some point of an execution stays. -/
theorem output_of_reached {q : Point} (hq : Reached limits s [unit] [] q) :
    q.machine.output <:+ ((execution limits unit).leaves s.machine).output := by
  obtain ⟨p, hbegins, hreaches⟩ := hq
  refine (Point.output_reached hreaches).trans ?_
  cases hbegins with
  | program h =>
    obtain rfl := List.mem_singleton.1 h
    exact Run.output_leaves_bind fun _ _ => .result _
  | expression h =>
    obtain rfl := List.mem_singleton.1 h
    exact Run.output_leaves_bind fun v _ => .bind (.print _) fun _ _ => .result _
  | invoke h => cases h

/-- An execution ends, fails with one error, or breaks off for a reason outside of it. -/
theorem executed_interpret (hsound : Sound limits s us vs) (hunit : r.code ∈ us)
    (hmode : mode = .program ∧ (∃ ss, r.code = .program ss) ∨
      mode = .expression ∧ ∃ tree, r.code = .expression tree)
    (hmissing : r.code.isMissing = false) (hstatic : s.diagnostics.hasStatic = false) :
    ∃ s' new, s'.diagnostics.toList = s.diagnostics.toList ++ new ∧
      (new = [] ∨ ∃ line message, new = [.runtime line message]) ∧
      s'.machine = (execution limits r.code).leaves s.machine ∧
      Answered mode s s' new (interpret limits r.code s) := by
  cases hend : execution limits r.code s.machine with
  | ok text m =>
    refine ⟨{ s with machine := m }, [], (List.append_nil _).symm, .inl rfl, ?_, ?_⟩
    · rw [Run.leaves, hend]
    rw [interpret_of_ok hend]
    obtain ⟨⟨ss, hcode⟩ | hnone, rfl⟩ | ⟨e, earlier, t, hcode, rfl, ht⟩ :=
      result_of_execution hend
    · obtain ⟨rfl, -⟩ | ⟨-, _, htree⟩ := hmode
      · exact .nothing fun h => by cases h
      · cases hcode.symm.trans htree
    · exact absurd (hmissing.symm.trans hnone) Bool.false_ne_true
    · obtain ⟨-, _, htree⟩ | ⟨rfl, -⟩ := hmode
      · cases hcode.symm.trans htree
      · exact .text rfl hstatic rfl ht
  | error f m =>
    cases f with
    | error e =>
      refine ⟨{ s with machine := m, diagnostics := s.diagnostics.add e.diagnostic },
        [e.diagnostic], s.diagnostics.toList_add e.diagnostic, .inr ⟨_, _, rfl⟩, ?_, ?_⟩
      · rw [Run.leaves, hend]
      · rw [interpret_of_error hend]
        exact .nothing fun _ => .inr (List.cons_ne_nil _ _)
    | abort a =>
      refine ⟨{ s with machine := m }, [], (List.append_nil _).symm, .inl rfl, ?_, ?_⟩
      · rw [Run.leaves, hend]
      · rw [interpret_of_abort hend]
        exact .broken (hsound.outside_of_execution hunit hend)

/-- A step reports more, and either refuses its text or executes it. -/
theorem step_gated (ha : (Stage.first clock hosts).Leads limits ⟨s, us, vs⟩)
    (hr : Code.ofSource? mode limits.room s.nextSite source = some r) :
    ∃ s' new, s'.diagnostics.toList = s.diagnostics.toList ++ new ∧
      (Faulty limits r s → Refused r s s' new) ∧
      (¬ Faulty limits r s → Executed limits r s s' new) ∧
      Answered mode s s' new (perform limits mode source s) := by
  obtain ⟨r', hr', -, hstatic, hnone⟩ := Code.exists_reading mode limits.room s.nextSite source
  obtain rfl : r = r' := Option.some.inj (hr.symm.trans hr')
  have hbound : ∀ d ∈ (resolve limits.room r.code).reports.map (·.diagnostic),
      d.isStatic = true := by
    rintro _ hd
    obtain ⟨_, -, rfl⟩ := List.mem_map.1 hd
    rfl
  have hall : ∀ d ∈ r.diagnostics ++ (resolve limits.room r.code).reports.map (·.diagnostic),
      d.isStatic = true := List.forall_mem_append.2 ⟨hstatic, hbound⟩
  have hnamed := toList_named limits r s
  rw [List.append_assoc] at hnamed
  -- What is known when the first gate is open.
  have hopen (h : (taken r s).diagnostics.hasStatic = false) :
      s.diagnostics.hasStatic = false ∧ r.diagnostics = [] := by
    rw [← Bool.not_eq_true, hasStatic_taken_iff hstatic] at h
    simpa using h
  have htakes := takes_perform hr
  generalize perform limits mode source s = ending at htakes ⊢
  cases htakes with
  | unread h =>
    have hfault : s.diagnostics.hasStatic = true ∨ r.diagnostics ≠ [] :=
      h.elim (hasStatic_taken_iff hstatic).1 fun hm => .inr (hnone hm)
    refine ⟨taken r s, r.diagnostics, Diagnostics.toList_addAll _ _, fun _ => ?_, fun hok => ?_, ?_⟩
    · exact ⟨rfl, hstatic, .inl rfl⟩
    · exact absurd (hfault.imp_right .inl) hok
    · exact .nothing fun _ => hfault
  | tooDeep h _ hdepth =>
    refine ⟨told limits r.code (taken r s), _, hnamed, fun _ => ?_, fun hok => ?_, ?_⟩
    · exact ⟨rfl, hall, .inl rfl⟩
    · obtain ⟨-, hread, hreports⟩ : s.diagnostics.hasStatic = false ∧ r.diagnostics = [] ∧
          (resolve limits.room r.code).reports = [] := by simpa [Faulty] using hok
      refine ⟨.inl ?_, List.prefix_refl _, fun hle => absurd hle hdepth⟩
      rw [hread, hreports]
      rfl
    · exact .broken (.inl rfl)
  | rejected h _ hdepth hclosed =>
    have hfault := (hasStatic_named_iff hstatic).1 hclosed
    refine ⟨named limits r.code (taken r s), _, hnamed, fun _ => ?_, fun hok => ?_, ?_⟩
    · exact ⟨rfl, hall, .inr (hopen h)⟩
    · exact absurd hfault hok
    · refine .nothing fun _ => hfault.imp_right fun hne hnil => ?_
      obtain ⟨hread, hreports⟩ := List.append_eq_nil_iff.1 hnil
      exact hne.elim (· hread) (· (List.map_eq_nil_iff.1 hreports))
  | executed hmissing hdepth hopened =>
    have hok : ¬ Faulty limits r s := by
      rw [← hasStatic_named_iff hstatic, hopened]
      exact Bool.false_ne_true
    obtain ⟨hs, hread, hreports⟩ : s.diagnostics.hasStatic = false ∧ r.diagnostics = [] ∧
        (resolve limits.room r.code).reports = [] := by simpa [Faulty] using hok
    have hsame : (named limits r.code (taken r s)).diagnostics.toList = s.diagnostics.toList := by
      rw [hnamed, hread, hreports]
      exact List.append_nil _
    have hsound := Stage.sound (ha.trans (Stage.leads_named (Stage.sound ha) hr hdepth))
    obtain ⟨s', new, hnew, honce, hmachine, hanswer⟩ :=
      executed_interpret hsound (by simp) (mode_of_ofSource? hr) hmissing hopened
    rw [hsame] at hnew
    refine ⟨s', new, hnew, fun h => absurd h hok, fun _ => ⟨honce, ?_, ?_⟩, ?_⟩
    · obtain ⟨texts, htexts⟩ :=
        (goesOn_execution limits r.code (named limits r.code (taken r s)).machine).leaves.output
      rw [hmachine]
      exact printed_isPrefix ⟨texts, htexts.symm⟩
    · intro _ q hq
      refine printed_isPrefix ?_
      rw [hmachine]
      exact output_of_reached hq
    · generalize interpret limits r.code (named limits r.code (taken r s)) = ending at hanswer
      cases hanswer with
      | nothing h => exact .nothing fun hm => by rw [hs, ← hopened]; exact h hm
      | text hm _ hn hp => exact .text hm hs hn hp
      | broken h => exact .broken h

end

section
variable (limits) (s)

theorem diagnostics_interpret (unit : Code) : s.diagnostics.toList <+:
    (behind (interpret limits unit) s).diagnostics.toList := by
  rw [behind]
  cases hend : execution limits unit s.machine with
  | ok text m =>
    rewrite [interpret_of_ok hend]
    exact List.prefix_refl _
  | error f m =>
    cases f with
    | error e =>
      rw [interpret_of_error hend]
      exact ⟨[e.diagnostic], (s.diagnostics.toList_add _).symm⟩
    | abort a =>
      rewrite [interpret_of_abort hend]
      exact List.prefix_refl _

/-- What is reported while a text is read is reported when it is performed. -/
theorem diagnostics_taken {mode : Mode} {source : String} {r : Code.Reading}
    (hr : Code.ofSource? mode limits.room s.nextSite source = some r) :
    (taken r s).diagnostics.toList <+:
      (behind (perform limits mode source) s).diagnostics.toList := by
  have htold : (taken r s).diagnostics.toList <+:
      (told limits r.code (taken r s)).diagnostics.toList :=
    ⟨_, ((taken r s).diagnostics.toList_addAll _).symm⟩
  have htakes := takes_perform hr
  rw [behind]
  generalize perform limits mode source s = ending at htakes
  cases htakes with
  | unread => exact List.prefix_refl _
  | tooDeep => exact htold
  | rejected => exact htold
  | executed =>
    exact htold.trans (diagnostics_interpret limits (named limits r.code (taken r s)) r.code)

theorem diagnostics_perform (mode : Mode) (source : String) : s.diagnostics.toList <+:
    (behind (perform limits mode source) s).diagnostics.toList := by
  obtain ⟨r, hr, -⟩ := Code.exists_reading mode limits.room s.nextSite source
  have htaken : s.diagnostics.toList <+: (taken r s).diagnostics.toList :=
    ⟨r.diagnostics, (s.diagnostics.toList_addAll _).symm⟩
  exact htaken.trans (diagnostics_taken limits s hr)

theorem Turn.diagnostics_after (turn : Turn) :
    s.diagnostics.toList <+: (turn.after limits s).diagnostics.toList := by
  cases turn with
  | run source =>
    rw [Turn.after, behind_run]
    exact diagnostics_perform limits s .program source
  | evaluate source => exact diagnostics_perform limits s .expression source
  | invoke f arguments =>
    rw [Turn.after, behind, Session.invoke, onMachine]
    cases Eval.invoke limits.rounds limits.room f arguments s.machine with
    | ok v m => exact List.prefix_refl _
    | error e m => exact List.prefix_refl _

theorem diagnostics_afterTurns (turns : List Turn) :
    s.diagnostics.toList <+: (afterTurns limits s turns).diagnostics.toList := by
  induction turns generalizing s with
  | nil => exact List.prefix_refl _
  | cons turn turns ih => exact (turn.diagnostics_after limits s).trans (ih _)

end

/-- Static diagnostics close the way to execution: a text that has some, or that comes when there
are some, prints nothing and changes no variable. Any other text is executed, its failure is
reported once and last, and what was printed before stays. An expression has no text if something is
reported, and else the text that it printed last; but a step may also break off for a reason outside
of it, as when the stack does not suffice. Diagnostics are never taken back, and the worst of them
decides the status. -/
theorem Stage.gated {a : Stage} (ha : (Stage.first clock hosts).Leads limits a) :
    (∀ mode source, ∃ r s' new,
      Code.ofSource? mode limits.room a.session.nextSite source = some r ∧
      s'.diagnostics.toList = a.session.diagnostics.toList ++ new ∧
      (Faulty limits r a.session → Refused r a.session s' new) ∧
      (¬ Faulty limits r a.session → Executed limits r a.session s' new) ∧
      Answered mode a.session s' new (perform limits mode source a.session)) ∧
    ∀ turns, let d := (afterTurns limits a.session turns).diagnostics
      a.session.diagnostics.toList <+: d.toList ∧
      (d.exitStatus = 65 ↔ ∃ e ∈ d.toList, e.isStatic = true) ∧
      (d.exitStatus = 70 ↔ (∀ e ∈ d.toList, e.isStatic = false) ∧ d.toList ≠ []) ∧
      (d.exitStatus = 0 ↔ d.toList = []) := by
  refine ⟨fun mode source => ?_, fun turns => ?_⟩
  · obtain ⟨r, hr, -⟩ := Code.exists_reading mode limits.room a.session.nextSite source
    obtain ⟨s', new, hstep⟩ := step_gated (s := a.session) ha hr
    exact ⟨r, s', new, hr, hstep⟩
  · exact ⟨diagnostics_afterTurns limits a.session turns, Diagnostics.exitStatus_iff _⟩

/-- A text that reads a variable. -/
def unknownReading : Code.Reading :=
  ⟨.expression (some (.access 0 ⟨.identifier, "x", .nil, 1⟩)), [], 1⟩

theorem Stage.gated_unknown :
    (Stage.first 0 []).Leads ⟨60, 1⟩ (Stage.first 0 []) ∧
      ∃ s', perform ⟨60, 1⟩ .expression "x" (Stage.first 0 []).session = .ok none s' ∧
        Executed ⟨60, 1⟩ unknownReading (Stage.first 0 []).session s'
          [.runtime 1 "Undefined variable 'x'."] := by
  let s := (Stage.first 0 []).session
  have hends : resultsOf (perform ⟨60, 1⟩ .expression "x") s = [none] := by decide +kernel
  have hreported : (behind (perform ⟨60, 1⟩ .expression "x") s).diagnostics.toList =
      [.runtime 1 "Undefined variable 'x'."] := by decide +kernel
  have hscan : Token.scan "x" = ⟨[⟨.identifier, "x", .nil, 1⟩, ⟨.eof, "", .nil, 1⟩], []⟩ := by
    decide +kernel
  have hread : Code.ofSource? .expression 60 0 "x" = some unknownReading := by
    simp only [Code.ofSource?, Code.ofTokens?, hscan]
    rfl
  have hclean : ¬ Faulty ⟨60, 1⟩ unknownReading s := by
    rintro (h | h | h)
    · exact absurd h (by decide +kernel)
    · exact h rfl
    · exact h (by decide +kernel)
  refine ⟨.refl, ?_⟩
  have hfirst : (Stage.first 0 []).Leads ⟨60, 1⟩ (Stage.first 0 []) := .refl
  obtain ⟨hstep, -⟩ := Stage.gated hfirst
  obtain ⟨r, s', new, hr, hnew, -, hexecuted, hanswer⟩ := hstep .expression "x"
  obtain rfl : unknownReading = r := Option.some.inj (hread.symm.trans hr)
  have hempty : s.diagnostics.toList = [] := by decide +kernel
  rw [resultsOf] at hends
  rw [behind] at hreported
  generalize perform ⟨60, 1⟩ .expression "x" (Stage.first 0 []).session = ending
    at hanswer hends hreported ⊢
  cases hanswer with
  | nothing =>
    obtain rfl : new = [.runtime 1 "Undefined variable 'x'."] := by
      rw [← hreported, hnew, hempty, List.nil_append]
    exact ⟨s', rfl, hexecuted hclean⟩
  | text => cases hends
  | broken => cases hends

/-- A logical operator with as many operands as make it too deep to be evaluated. -/
def longDisjunction : String :=
  String.ofList ((List.replicate 13 "nil or ".toList).flatten ++ "nil".toList)

/-- No error is made of a stack that logical operators exhaust, though one is of a stack that other
operators or calls exhaust: the step has no result, and nothing is reported. -/
theorem Stage.exhausted_unreported :
    let s := (Stage.first 0 []).session
    (match perform ⟨24, 1⟩ .expression longDisjunction s with
      | .ok _ _ => none
      | .error f _ => some f) = some (.abort .stackExhausted) ∧
      (behind (perform ⟨24, 1⟩ .expression longDisjunction) s).diagnostics.toList = [] := by
  decide +kernel

end Session
end Lox
