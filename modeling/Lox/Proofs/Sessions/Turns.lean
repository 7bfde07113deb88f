import Lox.Proofs.Sessions.History

/-!
# Turns

A host may run programs, evaluate expressions and call functions, in any order. Every turn ends in
the scope in which it began, however it ends, so that the next one finds the session as it should
be.
-/
namespace Lox.Session

/-- What a host does with a session: it runs a program, evaluates an expression, or calls any
function with any arguments. -/
inductive Turn where
  | run (source : String)
  | evaluate (source : String)
  | invoke (f : Function) (arguments : List Value)

/-- The session behind a turn, however it ends. -/
def Turn.after (limits : Limits) (s : Session) : Turn → Session
  | .run source => behind (Session.run limits source) s
  | .evaluate source => behind (Session.evaluate limits source) s
  | .invoke f arguments => behind (Session.invoke limits f arguments) s

/-- The session behind one turn after another. -/
def afterTurns (limits : Limits) (s : Session) (turns : List Turn) : Session :=
  turns.foldl (Turn.after limits) s

section
variable (limits : Limits) (s : Session)

theorem scope_perform (mode : Mode) (source : String) :
    (behind (perform limits mode source) s).machine.scope = s.machine.scope := by
  obtain ⟨r, hread, -⟩ := Code.exists_reading mode limits.room s.nextSite source
  have htakes := takes_perform hread
  rw [behind]
  generalize perform limits mode source s = ending at htakes
  cases htakes with
  | executed => exact (later_interpret limits (named limits r.code (taken r s)) r.code).scope
  | _ => rfl

theorem Turn.scope_after (turn : Turn) : (turn.after limits s).machine.scope = s.machine.scope := by
  cases turn with
  | run source => rw [Turn.after, behind_run, scope_perform]
  | evaluate source => exact scope_perform limits s .expression source
  | invoke f arguments =>
    have hrestores := (goesOn_invoke limits.rounds limits.room s.machine f arguments).restores
    rw [Turn.after, behind, Session.invoke, onMachine]
    cases h : Eval.invoke limits.rounds limits.room f arguments s.machine with
    | ok v m => exact hrestores.ok h
    | error e m => exact hrestores.error h

theorem scope_afterTurns (turns : List Turn) :
    (afterTurns limits s turns).machine.scope = s.machine.scope := by
  induction turns generalizing s with
  | nil => rfl
  | cons turn turns ih => exact (ih _).trans (turn.scope_after limits s)

end

/-- The current scope is restored on every exit. On any machine, with any room and any rounds, an
evaluation ends in the scope in which it began, whether it ends with a value, with a `return` on its
way out, with an error, or with an abort. So a session is in the scope it began in after any turns,
whatever came of them, and a new one in the global scope. -/
theorem scope_restored :
    (∀ rounds room m,
      (∀ e, Restores (Eval.evaluate rounds room e) m) ∧
      (∀ st, Restores (Eval.execute rounds room st) m) ∧
      (∀ scope ss, Restores (Eval.block rounds room scope ss) m) ∧
      ∀ f arguments, Restores (Eval.invoke rounds room f arguments) m) ∧
    (∀ limits s turns, (afterTurns limits s turns).machine.scope = s.machine.scope) ∧
    ∀ limits clock hosts turns,
      (afterTurns limits (start clock hosts) turns).machine.scope = Store.global := by
  refine ⟨fun rounds room m => ⟨fun e => ?_, fun st => ?_, fun scope ss => ?_, fun f vs => ?_⟩,
    scope_afterTurns, fun limits clock hosts turns => ?_⟩
  · exact (goesOn_evaluate rounds room m e).restores
  · exact (goesOn_execute rounds room m st).restores
  · exact (goesOn_block rounds room m scope ss).restores
  · exact (goesOn_invoke rounds room m f vs).restores
  · exact scope_afterTurns limits (start clock hosts) turns

end Lox.Session
