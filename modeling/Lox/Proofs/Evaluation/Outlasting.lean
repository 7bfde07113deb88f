import Lox.Eval
import Lox.Proofs.Ending

/-!
# More stack

An evaluation that does not exhaust the stack does the same with more of it, step by step. One that
does exhaust it says so: it is stopped, or it fails with an error of the program that stands for an
exhausted stack. Then nothing is said of an evaluation that has more.
-/
namespace Lox

/-- Whether a failure says that the stack was exhausted. -/
def Failure.OfStack : Failure → Prop
  | .abort .stackExhausted => True
  | .error e => e.fault = .stackOverflow
  | _ => False

namespace Run

variable {α β : Type}

/-- `act'` does what `act` does, unless that exhausts the stack. -/
def Outlasts (act' act : Run α) : Prop :=
  ∀ m, Ends act m (fun a m' => act' m = .ok a m') fun f m' => f.OfStack ∨ act' m = .error f m'

variable {act act' : Run α} {next next' : α → Run β}

namespace Outlasts

theorem refl (act : Run α) : act.Outlasts act := by
  intro m
  cases h : act m with
  | ok a m' => exact .of_ok h rfl
  | error f m' => exact .of_error h (.inr rfl)

theorem abort (act : Run α) : act.Outlasts (Run.abort .stackExhausted) :=
  fun _ => .inl trivial

theorem bind (h : act'.Outlasts act) (hn : ∀ a, (next' a).Outlasts (next a)) :
    (act' >>= next').Outlasts (act >>= next) := by
  refine fun m => (ends_bind ..).2 ((h m).imp (fun a m' ha => ?_) fun f m' hf => ?_)
  · rw [bind_of_ok ha]
    exact hn a m'
  · exact hf.imp_right bind_of_error

/-- What a guard tells of is still an exhausted stack. -/
theorem guardStack (h : act'.Outlasts act) (token : Token) :
    (Run.guardStack token act').Outlasts (Run.guardStack token act) := by
  intro m
  cases hact : act m with
  | ok a m' => exact .of_ok (guardStack_of_ok hact) (guardStack_of_ok ((h m).ok hact))
  | error f m' =>
    refine .of_error (guardStack_of_error hact) (((h m).error hact).imp (fun hf => ?_) fun hf => ?_)
    · cases f with
      | error e => exact hf
      | abort a =>
        cases a with
        | stackExhausted => exact rfl
        | _ => exact hf.elim
    · exact guardStack_of_error hf

theorem within (h : act'.Outlasts act) (scope : ScopeId) :
    (Run.within scope act').Outlasts (Run.within scope act) := by
  intro m
  cases hact : act { m with scope := scope } with
  | ok a m' =>
    have hact' := (h _).ok hact
    exact .of_ok (by simp only [Run.within, hact]; rfl) (by simp only [Run.within, hact'])
  | error f m' =>
    refine .of_error (by simp only [Run.within, hact]; rfl) (((h _).error hact).imp id fun hf => ?_)
    simp only [Run.within, hf]

end Outlasts

/-- The action fails for want of stack. -/
def Exhausts (act : Run α) (m : Machine) : Prop := ∃ f m', act m = .error f m' ∧ f.OfStack

theorem Outlasts.exhausts_or_eq (h : act'.Outlasts act) (m : Machine) :
    act.Exhausts m ∨ act' m = act m := by
  cases hact : act m with
  | ok a m' => exact .inr ((h m).ok hact)
  | error f m' => exact ((h m).error hact).imp_left fun hf => ⟨f, m', hact, hf⟩

end Run

namespace Eval

open Run

/-- What is evaluated with some room comes out the same with more. -/
structure Outlasting (rounds room room' : Nat) : Prop where
  evaluate : ∀ e, (evaluate rounds room' e).Outlasts (evaluate rounds room e)
  invoke : ∀ f vs, (invoke rounds room' f vs).Outlasts (invoke rounds room f vs)
  execute : ∀ st, (execute rounds room' st).Outlasts (execute rounds room st)

section
variable {rounds room room' more : Nat}

namespace Outlasting

theorem evaluateAll (h : Outlasting rounds room room') (es : List Expr) :
    (evaluateAll (Eval.evaluate rounds room') es).Outlasts
      (evaluateAll (Eval.evaluate rounds room) es) := by
  induction es with
  | nil => exact .refl _
  | cons e es ih => exact (h.evaluate e).bind fun _ => ih.bind fun _ => .refl _

theorem executeAll (h : Outlasting rounds room room') (ss : List Statement) :
    (executeAll (Eval.execute rounds room') ss).Outlasts
      (executeAll (Eval.execute rounds room) ss) := by
  induction ss with
  | nil => exact .refl _
  | cons st ss ih =>
    refine (h.execute st).bind fun completion => ?_
    cases completion with
    | normal => exact ih
    | returned v => exact .refl _

theorem repeatWhile (h : Outlasting rounds room room') (condition : Expr) (body : Statement)
    (n : Nat) :
    (repeatWhile (Eval.evaluate rounds room' condition) (Eval.execute rounds room' body) n).Outlasts
      (repeatWhile (Eval.evaluate rounds room condition) (Eval.execute rounds room body) n) := by
  induction n with
  | zero => exact .refl _
  | succ n ih =>
    refine (h.evaluate condition).bind fun v => ?_
    split
    · refine (h.execute body).bind fun completion => ?_
      cases completion with
      | normal => exact ih
      | returned v => exact .refl _
    · exact .refl _

theorem block (h : ∀ r < room, Outlasting rounds r (r + more)) (scope : ScopeId)
    (ss : List Statement) :
    (block rounds (room + more) scope ss).Outlasts (block rounds room scope ss) := by
  match room, h with
  | 0, _ => exact .abort _
  | room + 1, h =>
    rw [Nat.add_right_comm]
    exact ((h room (Nat.lt_succ_self _)).executeAll ss).within scope

theorem call (h : ∀ r < room, Outlasting rounds r (r + more)) (callee : Expr) (paren : Token)
    (es : List Expr) :
    (call rounds (room + more) callee paren es).Outlasts (call rounds room callee paren es) := by
  match room, h with
  | 0, _ | 1, _ => exact .abort _
  | room + 2, h =>
    have h₁ := h (room + 1) (by omega)
    rw [Nat.add_right_comm] at h₁ ⊢
    refine (h₁.evaluate callee).bind fun v => ((h room (by omega)).evaluateAll es).bind
      fun vs => ?_
    cases v with
    | function f =>
      dsimp only
      split
      · exact (h₁.invoke f vs).guardStack paren
      · exact .refl _
    | _ => exact .refl _

theorem evaluate_of_below (h : ∀ r < room, Outlasting rounds r (r + more)) (e : Expr) :
    (Eval.evaluate rounds (room + more) e).Outlasts (Eval.evaluate rounds room e) := by
  match room, e, h with
  | 0, _, _ | 1, .unary _ _, _ | 1, .binary _ _ _, _ | 1, .logical _ _ _, _ | 1, .assign _ _ _, _ =>
    exact .abort _
  | room + 1, .literal _, _ | room + 1, .access _ _, _ | room + 1, .function _ _ _, _ =>
    rw [Nat.add_right_comm]
    exact .refl _
  | room + 1, .grouping e, h =>
    rw [Nat.add_right_comm]
    exact (h room (Nat.lt_succ_self _)).evaluate e
  | room + 2, .unary operator e, h =>
    rw [Nat.add_right_comm]
    exact (((h room (by omega)).evaluate e).guardStack operator).bind fun _ => .refl _
  | room + 2, .binary left operator right, h =>
    have h₀ := h room (by omega)
    rw [Nat.add_right_comm]
    exact ((h₀.evaluate left).guardStack operator).bind fun _ =>
      ((h₀.evaluate right).guardStack operator).bind fun _ => .refl _
  | room + 2, .logical left operator right, h =>
    have h₀ := h room (by omega)
    rw [Nat.add_right_comm]
    refine (h₀.evaluate left).bind fun v => ?_
    split
    · exact .refl _
    · exact h₀.evaluate right
  | room + 1, .ternary condition a b, h =>
    have h₀ := h room (Nat.lt_succ_self _)
    rw [Nat.add_right_comm]
    refine (h₀.evaluate condition).bind fun v => ?_
    split
    · exact h₀.evaluate a
    · exact h₀.evaluate b
  | room + 2, .assign site name e, h =>
    rw [Nat.add_right_comm]
    exact ((h room (by omega)).evaluate e).bind fun _ => .refl _
  | room + 1, .call callee paren es, h =>
    rw [Nat.add_right_comm]
    exact call (fun r hr => h r (by omega)) callee paren es

theorem invoke_of_below (h : ∀ r < room, Outlasting rounds r (r + more)) (f : Function)
    (vs : List Value) :
    (Eval.invoke rounds (room + more) f vs).Outlasts (Eval.invoke rounds room f vs) := by
  match room, h with
  | 0, _ => exact .abort _
  | room + 1, h =>
    rw [Nat.add_right_comm]
    cases f with
    | host _ => exact .refl _
    | closure c => exact (Outlasts.refl _).bind fun frame =>
        (block (fun r hr => h r (by omega)) frame c.body).bind fun _ => .refl _

theorem execute_of_below (h : ∀ r < room, Outlasting rounds r (r + more)) (st : Statement) :
    (Eval.execute rounds (room + more) st).Outlasts (Eval.execute rounds room st) := by
  match room, h with
  | 0, _ => exact .abort _
  | room + 1, h =>
    have h₁ := h room (Nat.lt_succ_self _)
    rw [Nat.add_right_comm]
    cases st with
    | block ss =>
      refine (Outlasts.refl _).bind fun _ => (Outlasts.refl _).bind fun inner => ?_
      exact block (fun r hr => h r (by omega)) inner ss
    | expression e => exact (h₁.evaluate e).bind fun _ => .refl _
    | function => exact .refl _
    | ifElse condition a b =>
      refine (h₁.evaluate condition).bind fun v => ?_
      split
      · exact h₁.execute a
      · cases b with
        | none => exact .refl _
        | some b => exact h₁.execute b
    | print e => exact (h₁.evaluate e).bind fun _ => .refl _
    | «return» keyword value =>
      cases value with
      | none => exact .refl _
      | some e => exact (h₁.evaluate e).bind fun _ => .refl _
    | var name initializer =>
      cases initializer with
      | none => exact .refl _
      | some e => exact (h₁.evaluate e).bind fun _ => .refl _
    | «while» condition body => exact h₁.repeatWhile condition body rounds

end Outlasting

/-- More room makes no difference to an evaluation that gets along with less. -/
theorem outlasting (rounds room more : Nat) : Outlasting rounds room (room + more) := by
  induction room using Nat.strongRecOn with
  | ind room ih =>
    exact {
      evaluate := Outlasting.evaluate_of_below ih
      invoke := Outlasting.invoke_of_below ih
      execute := Outlasting.execute_of_below ih }

end

end Eval
end Lox
