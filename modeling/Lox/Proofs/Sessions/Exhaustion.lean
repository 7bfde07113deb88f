import Lox.Proofs.Evaluation.Exhaustion
import Lox.Proofs.Sessions.History

/-!
# An exhausted stack in a session

Where the stack is exhausted inside an operator or a called function, the error is at the innermost
of them. A session reports it once, and its next unit begins in the global scope again.
-/
namespace Lox

open Relation (ReflTransGen)

/-- Where the execution of a unit on a machine begins. -/
def Code.beginning? (room : Nat) (m : Machine) : Code → Option Point
  | .program ss => some ⟨.statements room ss, m, []⟩
  | .expression e => e.map fun e => ⟨.expression room e, m, []⟩

namespace Point

variable {rounds : Nat} {p q r r' : Point} {guards : List Token}

/-- A path that passes an operator or call notes it. -/
theorem exists_path_through (hp : ReflTransGen (Enters rounds) p r) (h : r.Enters rounds r')
    (hq : ReflTransGen (Enters rounds) r' q) :
    ∃ outer inner, p.Path rounds (outer ++ ((r.guard? r').toList ++ inner)) q := by
  obtain ⟨outer, houter⟩ := exists_path_of_reaches hp
  obtain ⟨inner, hinner⟩ := exists_path_of_reaches hq
  exact ⟨outer, inner, houter.trans (.inwards h hinner)⟩

/-- A stopped evaluation has nothing that catches an exhausted stack around the exhausted point. -/
theorem FailsAt.guard?_eq_none (h : p.FailsAt rounds (.abort .stackExhausted))
    (hp : ReflTransGen (Enters rounds) p r) (henters : r.Enters rounds r')
    (hq : ReflTransGen (Enters rounds) r' q) (hexhausted : q.Exhausted) : r.guard? r' = none := by
  obtain ⟨outer, inner, hpath⟩ := exists_path_through hp henters hq
  have heq := h.unique (hpath.fails hexhausted)
  have hnil := (Failure.exhaustion_eq_abort_iff _).1 heq.symm
  simp only [List.append_eq_nil_iff, Option.toList_eq_nil_iff] at hnil
  exact hnil.2.1

/-- The innermost operator or call on the way is where the error is. -/
theorem Path.fails_innermost {outer : List Token} {t : Token}
    (h : p.Path rounds (outer ++ [t]) q) (hq : q.Exhausted) :
    p.FailsAt rounds (.error ⟨t, .stackOverflow⟩) := by
  simpa [Failure.exhaustion] using h.fails hq

end Point

namespace Session

variable {limits : Limits} {unit : Code} {p q : Point} {f : Failure} {m : Machine}

/-- The execution of a unit fails as its beginning does. -/
theorem execution_fails (hp : unit.beginning? limits.room m = some p)
    (h : p.FailsAt limits.rounds f) : Fails (execution limits unit) m f := by
  cases unit with
  | program ss =>
    cases hp
    exact Fails.bind h
  | expression e =>
    cases e with
    | none => cases hp
    | some e =>
      cases hp
      exact Fails.bind h

/-- An error that an execution fails with is reported, and the scope is the one before. -/
theorem interpret_of_fails {s : Session} {e : RuntimeError}
    (h : Fails (execution limits unit) s.machine (.error e)) :
    ∃ s', interpret limits unit s = .ok none s' ∧
      s'.diagnostics.toList = s.diagnostics.toList ++ [e.diagnostic] ∧
      s'.machine.scope = s.machine.scope := by
  obtain ⟨m', hfail⟩ := h
  refine ⟨_, interpret_of_error hfail, Diagnostics.toList_add _ _, ?_⟩
  exact ((goesOn_execution limits unit s.machine).error hfail).scope

/-- An evaluation that is stopped because the stack is exhausted comes to an exhausted point without
passing an operator around its operand or a call around the run of its function. Where it passes one
of them, the innermost is where it fails with a stack overflow; and a unit that fails so reports
just this, in a session that is in the global scope before and afterwards. -/
theorem exhaustion_caught (limits : Limits) :
    (∀ p : Point, p.FailsAt limits.rounds (.abort .stackExhausted) →
      (∃ q, p.Path limits.rounds [] q ∧ q.Exhausted) ∧
      ∀ r r' q, ReflTransGen (Point.Enters limits.rounds) p r → r.Enters limits.rounds r' →
        ReflTransGen (Point.Enters limits.rounds) r' q → q.Exhausted →
          (∀ room operator e, r.task ≠ .expression room (.unary operator e)) ∧
          (∀ room left operator right, r.task ≠ .expression room (.binary left operator right)) ∧
          ∀ room callee paren es room' g vs,
            ¬ (r.task = .expression room (.call callee paren es) ∧ r'.task = .call room' g vs)) ∧
    (∀ (p q : Point) outer t, p.Path limits.rounds (outer ++ [t]) q → q.Exhausted →
      p.FailsAt limits.rounds (.error ⟨t, .stackOverflow⟩)) ∧
    (∀ (s : Session) unit p q outer t, unit.beginning? limits.room s.machine = some p →
      p.Path limits.rounds (outer ++ [t]) q → q.Exhausted →
        ∃ s', interpret limits unit s = .ok none s' ∧
          s'.diagnostics.toList = s.diagnostics.toList ++ [.runtime t.line "Stack overflow."] ∧
          s'.machine.scope = s.machine.scope) ∧
    ∀ clock hosts a, (Stage.first clock hosts).Leads limits a →
      a.session.machine.scope = Store.global := by
  refine ⟨fun p hp => ⟨?_, fun r r' q hr henters hq hexhausted => ?_⟩, ?_, ?_, ?_⟩
  · have hstack : (Failure.abort .stackExhausted).OfStack := trivial
    obtain ⟨guards, q, hpath, hq, heq⟩ := hp.exists_path hstack
    obtain rfl := (Failure.exhaustion_eq_abort_iff guards).1 heq.symm
    exact ⟨q, hpath, hq⟩
  · have hguard := hp.guard?_eq_none hr henters hq hexhausted
    refine ⟨fun room operator e h => ?_, fun room left operator right h => ?_, ?_⟩
    · simp [Point.guard?, h] at hguard
    · simp [Point.guard?, h] at hguard
    · rintro room callee paren es room' g vs ⟨h, h'⟩
      simp [Point.guard?, h, h'] at hguard
  · exact fun p q outer t hpath hq => hpath.fails_innermost hq
  · intro s unit p q outer t hp hpath hq
    exact interpret_of_fails (execution_fails hp (hpath.fails_innermost hq))
  · exact fun clock hosts a ha => (Stage.sound ha).scope

/-- The minus sign in front of `(nil)`. -/
def minusSign : Token := ⟨.minus, "-", .nil, 1⟩

/-- Just enough stack to begin with the operand, but not with the `nil` in it. -/
theorem exhaustion_caught_operand :
    ∃ s', interpret ⟨3, 1⟩ (.expression (some (.unary minusSign (.grouping (.literal .nil)))))
        (Session.start 0 []) = .ok none s' ∧
      s'.diagnostics.toList = [.runtime 1 "Stack overflow."] ∧ s'.machine.scope = Store.global ∧
      ∃ q, (Point.mk (.expression 1 (.unary minusSign (.grouping (.literal .nil))))
        (Session.start 0 []).machine []).Path 1 [] q ∧ q.Exhausted := by
  obtain ⟨hstopped, -, hreported, hglobal⟩ := exhaustion_caught ⟨3, 1⟩
  obtain ⟨hpath, -⟩ := hstopped ⟨.expression 1 (.unary minusSign (.grouping (.literal .nil))),
    (Session.start 0 []).machine, []⟩ ⟨_, rfl⟩
  obtain ⟨s', hs', hdiagnostics, hscope⟩ := hreported (Session.start 0 [])
    (.expression (some (.unary minusSign (.grouping (.literal .nil))))) _ _ [] minusSign rfl
    (.inwards .operand (.inwards .grouping (.here _))) (Nat.zero_lt_one)
  exact ⟨s', hs', hdiagnostics, hscope.trans (hglobal 0 [] _ .refl), hpath⟩

end Session

end Lox
