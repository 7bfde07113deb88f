import Lox.Proofs.Evaluation.Keeping

/-!
# The current scope

A block and the body of a function are executed in a scope of their own, and so is every block and
call in them. Whatever ends them, a last statement, a `return`, an error or an exhausted stack, the
scope that was current before is current again. This needs no assumption about the machine: the
scopes and the table may be anything, and so may the functions that are called.
-/
namespace Lox

/-- What holds of anything. All that is kept then is that machines go on. -/
def Invariant.anything : Invariant where
  store _ := True
  value _ _ := True
  node _ _ _ := True
  value_later _ _ := trivial
  node_later _ _ := trivial
  part _ _ := trivial
  plain _ := trivial
  lookUp _ _ _ _ := trivial
  assign _ _ _ _ := trivial
  define _ _ _ := trivial
  close _ _ _ := trivial
  block _ _ := ⟨trivial, fun _ _ => trivial⟩
  frame _ _ _ := ⟨trivial, fun _ _ => trivial⟩

/-- An action leads to a later machine, however it ends. -/
def GoesOn {α : Type} (act : Run α) (m : Machine) : Prop :=
  Ends act m (fun _ m' => m.Later m') fun _ m' => m.Later m'

/-- An action ends in the scope in which it began, however it ends. -/
def Restores {α : Type} (act : Run α) (m : Machine) : Prop :=
  Ends act m (fun _ m' => m'.scope = m.scope) fun _ m' => m'.scope = m.scope

section
variable {α : Type} {act : Run α} {m : Machine}

theorem Invariant.Keeps.goesOn {I : Invariant} {Q : Store Value → α → Prop} (h : I.Keeps act m Q) :
    GoesOn act m :=
  Ends.imp h (fun _ _ h => h.1) fun _ _ h => h.1

theorem GoesOn.restores (h : GoesOn act m) : Restores act m :=
  Ends.imp h (fun _ _ h => h.scope) fun _ _ h => h.scope

end

section
variable (rounds room : Nat) (m : Machine)

theorem goesOn_evaluate (e : Expr) : GoesOn (Eval.evaluate rounds room e) m :=
  ((Invariant.anything.keptBy rounds room).evaluate e m trivial trivial).goesOn

theorem goesOn_execute (st : Statement) : GoesOn (Eval.execute rounds room st) m :=
  ((Invariant.anything.keptBy rounds room).execute st m trivial trivial).goesOn

theorem goesOn_executeAll (ss : List Statement) :
    GoesOn (Eval.executeAll (Eval.execute rounds room) ss) m :=
  ((Invariant.anything.keptBy rounds room).executeAll trivial fun _ _ => trivial).goesOn

theorem goesOn_block (scope : ScopeId) (ss : List Statement) :
    GoesOn (Eval.block rounds room scope ss) m :=
  (Invariant.KeptBy.block (fun r _ => Invariant.anything.keptBy rounds r) trivial
    fun _ _ => trivial).goesOn

theorem goesOn_invoke (f : Function) (vs : List Value) :
    GoesOn (Eval.invoke rounds room f vs) m :=
  ((Invariant.anything.keptBy rounds room).invoke f vs m trivial trivial fun _ _ => trivial).goesOn

end
end Lox
