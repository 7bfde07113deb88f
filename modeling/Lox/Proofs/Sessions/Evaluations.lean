import Lox.Proofs.Evaluation.Courses
import Lox.Proofs.Sessions.Exhaustion
import Lox.Proofs.Sessions.Invariants

/-!
# The evaluations of a session

A session evaluates one thing after the other: what its units begin with, and the functions that its
host calls. `Stage.Runs` lists these evaluations in order, and beside them everything that happens
in them and what the host defines in between. These events lead from the store of the session at its
beginning to the one at its end.
-/
namespace Lox.Session

open Relation (ReflTransGen)

/-- What happens next in a session, with the evaluations that begin then and all the events. -/
inductive Stage.Evaluates (limits : Limits) :
    Stage → List Point → List StoreEvent → Stage → Prop where
  | read {s us vs} (mode : Mode) (source : String) :
    Evaluates limits ⟨s, us, vs⟩ [] [] ⟨behind (Session.read limits mode source) s, us, vs⟩
  | reserve {s us vs next} (h : s.nextSite ≤ next) :
    Evaluates limits ⟨s, us, vs⟩ [] [] ⟨{ s with nextSite := next }, us, vs⟩
  | clearDiagnostics {s us vs} :
    Evaluates limits ⟨s, us, vs⟩ [] [] ⟨behind Session.clearDiagnostics s, us, vs⟩
  | bindNames {s us vs unit} (hdepth : unit.depth ≤ limits.room) (hnodup : unit.sites.Nodup)
    (hnew : ∀ site ∈ unit.sites, site < s.nextSite ∧ ∀ u ∈ us, site ∉ u.sites) :
    Evaluates limits ⟨s, us, vs⟩ [] []
      ⟨behind (Session.bindNames limits unit) s, us ++ [unit], vs⟩
  | bindTooDeep {s us vs unit} (hdepth : ¬ unit.depth ≤ limits.room) :
    Evaluates limits ⟨s, us, vs⟩ [] [] ⟨behind (Session.bindNames limits unit) s, us, vs⟩
  | interpret {s us vs unit} (h : unit ∈ us) :
    Evaluates limits ⟨s, us, vs⟩ (unit.beginning? limits.room s.machine).toList
      ((unit.beginning? limits.room s.machine).toList.flatMap (Point.events limits.rounds))
      ⟨behind (Session.interpret limits unit) s, us, vs⟩
  | define {s us vs v} (name : String) (h : Offered vs v) :
    Evaluates limits ⟨s, us, vs⟩ [] [.stores Store.global name v]
      ⟨behind (Session.define name v) s, us, vs⟩
  | value {s us vs} (name : String) :
    Evaluates limits ⟨s, us, vs⟩ [] []
      ⟨behind (Session.value name) s, us, resultsOf (Session.value name) s ++ vs⟩
  | invoke {s us vs f arguments} (hf : .function f ∈ vs) (ha : ∀ v ∈ arguments, Offered vs v) :
    Evaluates limits ⟨s, us, vs⟩ [⟨.call limits.room f arguments, s.machine, []⟩]
      (Point.events limits.rounds ⟨.call limits.room f arguments, s.machine, []⟩)
      ⟨behind (invoke limits f arguments) s, us, resultsOf (invoke limits f arguments) s ++ vs⟩

/-- What happens in a session for a while: the evaluations in this time, and all the events. -/
inductive Stage.Runs (limits : Limits) (a : Stage) :
    List Point → List StoreEvent → Stage → Prop where
  | refl : Runs limits a [] [] a
  | tail {E H ps es b c} (h : Runs limits a E H b) (hstep : b.Evaluates limits ps es c) :
    Runs limits a (E ++ ps) (H ++ es) c

/-- An evaluation that is a part of these or one of them. -/
def Within (limits : Limits) (E : List Point) (q : Point) : Prop :=
  ∃ p ∈ E, ReflTransGen (Point.Enters limits.rounds) p q

theorem Within.enters {limits : Limits} {E : List Point} {q r : Point} (h : Within limits E q)
    (hr : q.Enters limits.rounds r) : Within limits E r := by
  obtain ⟨p, hp, hreaches⟩ := h
  exact ⟨p, hp, hreaches.tail hr⟩

theorem Within.append {limits : Limits} {E ps : List Point} {q : Point} :
    Within limits (E ++ ps) q ↔ Within limits E q ∨ Within limits ps q := by
  simp only [Within, List.mem_append, or_and_right, exists_or]

section
variable {limits : Limits} {s : Session}

theorem machine_behind_onMachine {α : Type} (act : Run α) (s : Session) :
    (behind (onMachine act) s).machine = act.leaves s.machine := by
  cases hact : act s.machine <;> simp only [behind, onMachine, Run.leaves, hact]

theorem machine_behind_define (name : String) (v : Value) (s : Session) :
    (behind (Session.define name v) s).machine =
      { s.machine with store := s.machine.store.define Store.global name v } :=
  machine_behind_onMachine _ s

/-- Asking for the value of a global changes nothing. -/
theorem machine_behind_value (name : String) (s : Session) :
    (behind (Session.value name) s).machine = s.machine ∧
      ∀ v ∈ resultsOf (Session.value name) s, s.machine.store.get Store.global name = .ok v := by
  cases hget : s.machine.store.get Store.global name with
  | ok v =>
    have hrun : Session.value name s = .ok v s := by
      simp only [Session.value, onMachine, hget]
    rw [behind, resultsOf, hrun]
    exact ⟨rfl, fun w hw => by rw [List.mem_singleton.1 hw]⟩
  | error fault =>
    have hrun : Session.value name s =
        .error (Run.accessFailure (outsideName name) fault) s := by
      simp only [Session.value, onMachine, hget]
    rw [behind, resultsOf, hrun]
    exact ⟨rfl, fun v hv => by cases hv⟩

theorem machine_of_beginning? {room : Nat} {unit : Code} {m : Machine} {p : Point}
    (h : unit.beginning? room m = some p) : p.machine = m := by
  match unit, h with
  | .program ss, h => exact Option.some.inj h ▸ rfl
  | .expression (some e), h => exact Option.some.inj h ▸ rfl

theorem machine_behind_interpret (limits : Limits) (unit : Code) (s : Session) :
    (behind (interpret limits unit) s).machine = (execution limits unit).leaves s.machine := by
  cases hrun : execution limits unit s.machine with
  | ok text m => rw [behind, interpret_of_ok hrun, Run.leaves, hrun]
  | error f m =>
    cases f with
    | error e => rw [behind, interpret_of_error hrun, Run.leaves, hrun]
    | abort a => rw [behind, interpret_of_abort hrun, Run.leaves, hrun]

/-- What does not change the store may come behind an action. -/
theorem store_leaves_bind {α β : Type} {act : Run α} {next : α → Run β} {m : Machine}
    (hn : ∀ a m', ((next a).leaves m').store = m'.store) :
    ((act >>= next).leaves m).store = (act.leaves m).store := by
  cases hact : act m with
  | ok a m' => rw [Run.leaves_of_ok hact, hn, Run.leaves, hact]
  | error f m' => rw [Run.leaves, Run.leaves, hact, bind_of_error hact]

/-- The execution of a unit leaves the store that the evaluation leaves with which it begins. -/
theorem store_leaves_execution (limits : Limits) (unit : Code) (m : Machine) :
    ((execution limits unit).leaves m).store =
      ((unit.beginning? limits.room m).elim m fun p => p.leaves limits.rounds).store := by
  match unit with
  | .program ss => exact store_leaves_bind fun _ _ => rfl
  | .expression none => rfl
  | .expression (some e) => exact store_leaves_bind fun _ _ => rfl

end

namespace Stage

variable {limits : Limits} {clock : Clock} {hosts : List HostFunction} {a b : Stage}
  {E ps : List Point} {H es : List StoreEvent} {p q : Point} {e : StoreEvent}

theorem Evaluates.next (h : a.Evaluates limits ps es b) : a.Next limits b := by
  cases h with
  | read mode source => exact .read mode source
  | reserve h => exact .reserve h
  | clearDiagnostics => exact .clearDiagnostics
  | bindNames hdepth hnodup hnew => exact .bindNames hdepth hnodup hnew
  | bindTooDeep hdepth => exact .bindTooDeep hdepth
  | interpret h => exact .interpret h
  | define name h => exact .define name h
  | value name => exact .value name
  | invoke hf ha => exact .invoke hf ha

theorem Next.exists_evaluates (h : a.Next limits b) : ∃ ps es, a.Evaluates limits ps es b := by
  cases h with
  | read mode source => exact ⟨_, _, .read mode source⟩
  | reserve h => exact ⟨_, _, .reserve h⟩
  | clearDiagnostics => exact ⟨_, _, .clearDiagnostics⟩
  | bindNames hdepth hnodup hnew => exact ⟨_, _, .bindNames hdepth hnodup hnew⟩
  | bindTooDeep hdepth => exact ⟨_, _, .bindTooDeep hdepth⟩
  | interpret h => exact ⟨_, _, .interpret h⟩
  | define name h => exact ⟨_, _, .define name h⟩
  | value name => exact ⟨_, _, .value name⟩
  | invoke hf ha => exact ⟨_, _, .invoke hf ha⟩

theorem Runs.leads (h : a.Runs limits E H b) : a.Leads limits b := by
  induction h with
  | refl => exact .refl
  | tail _ hstep ih => exact ih.tail hstep.next

theorem Leads.exists_runs (h : a.Leads limits b) : ∃ E H, a.Runs limits E H b := by
  induction h with
  | refl => exact ⟨[], [], .refl⟩
  | tail _ hstep ih =>
    obtain ⟨E, H, hE⟩ := ih
    obtain ⟨ps, es, hps⟩ := hstep.exists_evaluates
    exact ⟨E ++ ps, H ++ es, hE.tail hps⟩

/-- What is evaluated in a step begins on the machine of the session. -/
theorem Evaluates.begins (h : a.Evaluates limits ps es b) (hp : p ∈ ps) :
    Begins limits a.session a.units a.held p := by
  cases h with
  | @interpret s us vs unit hunit =>
    match unit, hunit, hp with
    | .program ss, hunit, hp => exact List.mem_singleton.1 hp ▸ .program hunit
    | .expression (some e), hunit, hp => exact List.mem_singleton.1 hp ▸ .expression hunit
  | invoke hf ha => exact List.mem_singleton.1 hp ▸ .invoke hf ha
  | _ => cases hp

/-- What happens in a step is what happens in its evaluation. -/
theorem Evaluates.events_eq (h : a.Evaluates limits ps es b) (hp : p ∈ ps) :
    es = p.events limits.rounds := by
  cases h with
  | interpret =>
    rw [Option.mem_toList.1 hp, Option.toList_some, List.flatMap_singleton]
  | invoke => rw [List.mem_singleton.1 hp]
  | _ => cases hp

/-- If there is none, then the host defines a global. -/
theorem Evaluates.mem_events (h : a.Evaluates limits ps es b) (he : e ∈ es) :
    (∃ p ∈ ps, e ∈ p.events limits.rounds) ∨
      ∃ name v, Offered a.held v ∧ e = .stores Store.global name v := by
  cases h with
  | interpret => exact .inl (List.mem_flatMap.1 he)
  | define name hv => exact .inr ⟨name, _, hv, List.mem_singleton.1 he⟩
  | invoke => exact .inl ⟨_, List.mem_singleton_self _, he⟩
  | _ => cases he

/-- A step ends with the store that its evaluation leaves. -/
theorem Evaluates.store_leaves (h : a.Evaluates limits ps es b) (hp : p ∈ ps) :
    (p.leaves limits.rounds).store = b.session.machine.store := by
  cases h with
  | interpret =>
    rw [machine_behind_interpret, store_leaves_execution, Option.mem_toList.1 hp]
    rfl
  | invoke =>
    rw [List.mem_singleton.1 hp, Session.invoke, machine_behind_onMachine]
    rfl
  | _ => cases hp

/-- The events of a step lead from its store to the next one. -/
theorem Evaluates.course (h : a.Evaluates limits ps es b)
    (hscope : a.session.machine.scope < a.session.machine.store.size)
    (hglobal : Store.global < a.session.machine.store.size) :
    Course limits.rounds a.session.machine.store es b.session.machine.store := by
  have hsame {s s' : Session} (hm : s'.machine.store = s.machine.store) :
      Course limits.rounds s.machine.store [] s'.machine.store := hm ▸ .nil
  cases h with
  | read mode source => exact hsame (by rw [machine_behind_read])
  | reserve => exact .nil
  | clearDiagnostics => exact .nil
  | bindNames | bindTooDeep =>
    obtain ⟨table, hm⟩ := machine_behind_bindNames limits _ _
    exact hsame (by rw [hm])
  | @interpret s us vs unit =>
    rw [machine_behind_interpret, store_leaves_execution]
    cases hp : unit.beginning? limits.room s.machine with
    | none => exact .nil
    | some p =>
      have hm : p.machine = s.machine := machine_of_beginning? hp
      have hcourse := p.happens limits.rounds (by rwa [hm])
      rw [Point.Happens, hm] at hcourse
      simpa using hcourse
  | define name hv =>
    rw [machine_behind_define]
    exact .stores hglobal .nil
  | value name => exact hsame (by rw [(machine_behind_value _ _).1])
  | @invoke s us vs f arguments =>
    rw [Session.invoke, machine_behind_onMachine]
    exact Point.happens _ ⟨.call limits.room f arguments, s.machine, []⟩ hscope

/-- The current scope of a session is there. -/
theorem Leads.scope_lt (h : (first clock hosts).Leads limits a) :
    a.session.machine.scope < a.session.machine.store.size := by
  have hstart : Store.global < (Session.start clock hosts).machine.store.size :=
    Machine.start_induction (P := fun s => Store.global < s.size) (by decide) (by simp) _ clock
  rw [(sound h).scope]
  exact Nat.lt_of_lt_of_le hstart (Leads.later rfl h).size

/-- The events of a session lead from its store to the one that it has when they are over. -/
theorem Runs.course (ha : (first clock hosts).Leads limits a) (h : a.Runs limits E H b) :
    Course limits.rounds a.session.machine.store H b.session.machine.store := by
  induction h with
  | refl => exact .nil
  | tail hruns hstep ih =>
    have hb := ha.trans hruns.leads
    have hscope := Leads.scope_lt hb
    exact ih.append (hstep.course hscope ((sound hb).scope ▸ hscope))

/-- What happens in an evaluation of a session happens in the session, and in one piece. -/
theorem Runs.events_of_within (h : a.Runs limits E H b) (hq : Within limits E q) :
    ∃ us vs, H = us ++ q.events limits.rounds ++ vs := by
  induction h with
  | refl =>
    obtain ⟨p, hp, -⟩ := hq
    cases hp
  | @tail E H ps es b c hruns hstep ih =>
    rcases Within.append.1 hq with hq | ⟨p, hp, hreaches⟩
    · obtain ⟨us, vs, rfl⟩ := ih hq
      exact ⟨us, vs ++ es, by simp⟩
    · obtain ⟨us, vs, hevents⟩ := Point.events_of_reaches hreaches
      exact ⟨H ++ us, vs, by rw [hstep.events_eq hp, hevents]; simp⟩

/-- What happens in a session happens in one of its evaluations, or the host defines a global. -/
theorem Runs.mem_events (h : a.Runs limits E H b) (he : e ∈ H) :
    (∃ q, Within limits E q ∧
      (e = .begins q ∨ e ∈ q.opening ∨ e ∈ q.closing limits.rounds ∨ e = .ends q)) ∨
    ∃ E₁ H₁ a₁ name v, a.Runs limits E₁ H₁ a₁ ∧ H₁ <+: H ∧ Offered a₁.held v ∧
      e = .stores Store.global name v := by
  induction h with
  | refl => cases he
  | @tail E H ps es b c hruns hstep ih =>
    rcases List.mem_append.1 he with he | he
    · refine (ih he).imp ?_ ?_
      · rintro ⟨q, hq, hown⟩
        exact ⟨q, Within.append.2 (.inl hq), hown⟩
      · rintro ⟨E₁, H₁, a₁, name, v, hruns₁, hH, hv, heq⟩
        exact ⟨E₁, H₁, a₁, name, v, hruns₁, hH.trans (List.prefix_append _ _), hv, heq⟩
    · rcases hstep.mem_events he with ⟨p, hp, he⟩ | ⟨name, v, hv, heq⟩
      · obtain ⟨q, hreaches, hown⟩ := Point.mem_events_iff.1 he
        exact .inl ⟨q, Within.append.2 (.inr ⟨p, hp, hreaches⟩), hown⟩
      · exact .inr ⟨E, H, b, name, v, hruns, List.prefix_append _ _, hv, heq⟩

end Stage

end Lox.Session
