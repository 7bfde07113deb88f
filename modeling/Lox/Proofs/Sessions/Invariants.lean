import Lox.Proofs.Sessions.Depths

/-!
# Invariants of sessions

An invariant of evaluation that does not ask which code is evaluated, only where, is an invariant
of sessions: if any code may be evaluated in the global scope, whatever happens in a session keeps
it, and it holds at every point of every evaluation.
-/
namespace Lox

/-- Any code may be evaluated in the global scope. -/
def Invariant.OfAnyCode (I : Invariant) : Prop := ∀ s n, I.store s → I.node s Store.global n

section
variable {I : Invariant} {s : Store Value}

/-- A global variable may be defined to any value that the invariant holds of. -/
theorem Invariant.OfAnyCode.define (hI : I.OfAnyCode) (hs : I.store s) {v : Value}
    (hv : I.value s v) (name : String) : I.store (s.define Store.global name v) :=
  I.define hs (hI s (.statement (.block [])) hs) hv

/-- The invariant holds of the value of a global variable. -/
theorem Invariant.OfAnyCode.get (hI : I.OfAnyCode) (hs : I.store s) {name : String} {v : Value}
    (h : s.get Store.global name = .ok v) : I.value s v := by
  -- Code that reads this name, with no entry for its use in the table, finds just this value.
  let m : Machine := ⟨s, Store.global, [], [], 0, 0⟩
  cases hholder : s.holder Store.global name with
  | error fault => simp [Store.get, hholder, bind, Except.bind] at h
  | ok id =>
    have hvalue : s.valueIn? id name = some v := by
      cases hv : s.valueIn? id name with
      | none => simp [Store.get, hholder, bind, Except.bind, Store.getIn, hv] at h
      | some w => simpa [Store.get, hholder, bind, Except.bind, Store.getIn, hv] using h
    have hm : Run.holder m 0 (Session.outsideName name) = .ok id := hholder
    exact I.lookUp hs (hI s _ hs) hm hvalue

theorem Invariant.OfAnyCode.start (hI : I.OfAnyCode) (hinitial : I.store Store.initial)
    (hosts : List HostFunction) (clock : Clock) : I.store (Machine.start hosts clock).store :=
  Machine.start_induction hinitial
    (fun s host hs => hI.define hs (I.plain fun c hc => by cases hc) host.name) hosts clock

end

namespace Session

/-- An invariant holds of the store of a session and of the values that were handed out. -/
structure Respects (I : Invariant) (s : Session) (vs : List Value) : Prop where
  scope : s.machine.scope = Store.global
  store : I.store s.machine.store
  held : ∀ v ∈ vs, I.value s.machine.store v

namespace Respects

variable {I : Invariant} {limits : Limits} {s s' : Session} {us : List Code} {vs : List Value}

theorem of_machine (h : Respects I s vs) (hm : s'.machine.store = s.machine.store)
    (hscope : s'.machine.scope = s.machine.scope) : Respects I s' vs :=
  ⟨hscope.trans h.scope, hm ▸ h.store, hm ▸ h.held⟩

theorem offered (h : Respects I s vs) {v : Value} (hv : Offered vs v) :
    I.value s.machine.store v :=
  hv.elim (h.held v) fun hplain => I.plain hplain

theorem node (h : Respects I s vs) (hI : I.OfAnyCode) (n : Node) :
    I.node s.machine.store s.machine.scope n :=
  h.scope ▸ hI _ n h.store

/-- What a step does on the machine keeps the invariant, and so do its results. -/
theorem onMachine {α : Type} {act : Run α} {Q : Store Value → α → Prop} (h : Respects I s vs)
    (hk : I.Keeps act s.machine Q) :
    Respects I (behind (Session.onMachine act) s) vs ∧
      ∀ a ∈ resultsOf (Session.onMachine act) s,
        Q (behind (Session.onMachine act) s).machine.store a := by
  cases hact : act s.machine with
  | ok a m =>
    obtain ⟨hl, hs, ha⟩ := hk.ok hact
    have hrun : Session.onMachine act s = .ok a { s with machine := m } := by
      simp only [Session.onMachine, hact]
    rw [behind, resultsOf, hrun]
    exact ⟨⟨hl.scope.trans h.scope, hs, fun v hv => I.value_later hl.store (h.held v hv)⟩,
      by simpa using ha⟩
  | error f m =>
    obtain ⟨hl, hs⟩ := hk.error hact
    have hrun : Session.onMachine act s = .error f { s with machine := m } := by
      simp only [Session.onMachine, hact]
    rw [behind, resultsOf, hrun]
    exact ⟨⟨hl.scope.trans h.scope, hs, fun v hv => I.value_later hl.store (h.held v hv)⟩,
      by simp⟩

theorem hold (h : Respects I s vs) {ws : List Value} (hw : ∀ v ∈ ws, I.value s.machine.store v) :
    Respects I s (ws ++ vs) :=
  ⟨h.scope, h.store, fun v hv => (List.mem_append.1 hv).elim (hw v) (h.held v)⟩

/-- The execution of a unit keeps the invariant. -/
theorem execution (h : Respects I s vs) (hI : I.OfAnyCode) (limits : Limits) (unit : Code) :
    I.Keeps (Session.execution limits unit) s.machine fun _ _ => True := by
  have hk := I.keptBy limits.rounds limits.room
  match unit with
  | .program ss =>
    exact (hk.executeAll h.store fun _ _ => h.node hI _).bind fun _ _ _ hs _ => .result hs trivial
  | .expression none => exact .result h.store trivial
  | .expression (some e) =>
    refine (hk.evaluate e s.machine h.store (h.node hI _)).bind fun v m₁ _ hs₁ _ => ?_
    exact (Invariant.keeps_print hs₁ v.display).bind fun _ _ _ hs₂ _ => .result hs₂ trivial

theorem interpret (h : Respects I s vs) (hI : I.OfAnyCode) (limits : Limits) (unit : Code) :
    Respects I (behind (Session.interpret limits unit) s) vs := by
  obtain ⟨hr, -⟩ := h.onMachine (h.execution hI limits unit)
  cases hrun : Session.execution limits unit s.machine with
  | ok text m =>
    rw [behind, interpret_of_ok hrun]
    simpa only [behind, Session.onMachine, hrun] using hr
  | error f m =>
    have hr' : Respects I { s with machine := m } vs := by
      simpa only [behind, Session.onMachine, hrun] using hr
    cases f with
    | error e =>
      rw [behind, interpret_of_error hrun]
      exact hr'.of_machine rfl rfl
    | abort a =>
      rw [behind, interpret_of_abort hrun]
      exact hr'

theorem define (h : Respects I s vs) (hI : I.OfAnyCode) (name : String) {v : Value}
    (hv : Offered vs v) : Respects I (behind (Session.define name v) s) vs := by
  refine (h.onMachine (Q := fun _ _ => True) ?_).1
  exact ⟨.of_store (.define _ _ _ _), hI.define h.store (h.offered hv) name, trivial⟩

theorem value (h : Respects I s vs) (hI : I.OfAnyCode) (name : String) :
    Respects I (behind (Session.value name) s) (resultsOf (Session.value name) s ++ vs) := by
  have hboth : Respects I (behind (Session.value name) s) vs ∧
      ∀ v ∈ resultsOf (Session.value name) s,
        I.value (behind (Session.value name) s).machine.store v := by
    refine h.onMachine ?_
    cases hget : s.machine.store.get Store.global name with
    | ok v =>
      refine .of_ok (a := v) ?_ ⟨.refl s.machine, h.store, hI.get h.store hget⟩
      simp only [hget]
    | error fault =>
      refine .of_error (e := Run.accessFailure (outsideName name) fault) ?_
        ⟨.refl s.machine, h.store⟩
      simp only [hget]
  exact hboth.1.hold hboth.2

theorem invoke (h : Respects I s vs) {f : Function} {arguments : List Value}
    (hf : .function f ∈ vs) (ha : ∀ v ∈ arguments, Offered vs v) :
    Respects I (behind (Session.invoke limits f arguments) s)
      (resultsOf (Session.invoke limits f arguments) s ++ vs) := by
  obtain ⟨hr, hheld⟩ := h.onMachine <| (I.keptBy limits.rounds limits.room).invoke f arguments
    s.machine h.store (h.held _ hf) fun v hv => h.offered (ha v hv)
  exact hr.hold hheld

/-- An invariant is kept whatever happens next. -/
theorem next {a b : Stage} (h : Respects I a.session a.held) (hI : I.OfAnyCode)
    (hstep : a.Next limits b) : Respects I b.session b.held := by
  cases hstep with
  | read mode source =>
    have hm := machine_behind_read limits mode source
    exact h.of_machine (by rw [hm]) (by rw [hm])
  | reserve => exact h.of_machine rfl rfl
  | clearDiagnostics => exact h.of_machine rfl rfl
  | bindNames | bindTooDeep =>
    obtain ⟨table, hm⟩ := machine_behind_bindNames limits _ _
    exact h.of_machine (by rw [hm]) (by rw [hm])
  | interpret => exact h.interpret hI limits _
  | define name hv => exact h.define hI name hv
  | value name => exact h.value hI name
  | invoke hf ha => exact h.invoke hf ha

theorem leads {a b : Stage} (h : Respects I a.session a.held) (hI : I.OfAnyCode)
    (hab : a.Leads limits b) : Respects I b.session b.held := by
  induction hab with
  | refl => exact h
  | tail _ hstep ih => exact ih.next hI hstep

/-- The invariant holds at every point of every evaluation in a session. -/
theorem at_reached (h : Respects I s vs) (hI : I.OfAnyCode) {p : Point}
    (hp : Reached limits s us vs p) : I.At s.machine p := by
  obtain ⟨p₀, hbegins, hreaches⟩ := hp
  refine Invariant.At.reaches ?_ hreaches
  cases hbegins with
  | program => exact ⟨h.store, fun _ _ => h.node hI _, .refl _, rfl⟩
  | expression => exact ⟨h.store, h.node hI _, .refl _, rfl⟩
  | invoke hf ha => exact ⟨h.store, ⟨h.held _ hf, fun v hv => h.offered (ha v hv)⟩, .refl _, rfl⟩

/-- An invariant of the first store holds of a session at its beginning. -/
theorem start (hI : I.OfAnyCode) (hinitial : I.store Store.initial) (clock : Clock)
    (hosts : List HostFunction) : Respects I (Session.start clock hosts) [] :=
  ⟨rfl, hI.start hinitial _ _, nofun⟩

end Respects

end Session

/-- What holds of the stores that come after a given one. -/
def Invariant.since (s₀ : Store Value) : Invariant where
  store s := s₀.Later s
  value _ _ := True
  node _ _ _ := True
  value_later _ _ := trivial
  node_later _ _ := trivial
  part _ _ := trivial
  plain _ := trivial
  lookUp _ _ _ _ := trivial
  assign hs _ _ _ := hs.trans (.define _ _ _ _)
  define hs _ _ := hs.trans (.define _ _ _ _)
  close _ _ _ := trivial
  block hs _ := ⟨hs.trans (.fork _ _), fun _ _ => trivial⟩
  frame hs _ _ := ⟨hs.trans (.frame _ _ _ _), fun _ _ => trivial⟩

/-- No session loses a scope or a name, and no scope gets another parent. -/
theorem Session.Stage.Leads.later {limits : Limits} {a b : Session.Stage}
    (ha : a.session.machine.scope = Store.global) (h : a.Leads limits b) :
    a.session.machine.store.Later b.session.machine.store := by
  have hstart : Session.Respects (.since a.session.machine.store) a.session a.held :=
    ⟨ha, .refl _, fun _ _ => trivial⟩
  exact (hstart.leads (fun _ _ _ => trivial) h).store

end Lox
