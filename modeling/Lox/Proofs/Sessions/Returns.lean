import Lox.Proofs.Evaluation.Activation
import Lox.Proofs.Sessions.Performing

/-!
# Returns stay in their calls

When no `return` outside of functions is reported, none comes out of a statement of a program, and
all of its statements are executed in turn. Inside of functions, a `return` ends its own call and
nothing else.
-/
namespace Lox

open Binding (resolve)

/-- Statements that end normally are all executed, one after the other. -/
theorem executeAll_eq_forM {execute : Statement → Run Completion} {ss : List Statement}
    (h : ∀ s ∈ ss, EndsNormally (execute s)) :
    Eval.executeAll execute ss = (do
      ss.forM fun s => discard (execute s)
      pure .normal) := by
  induction ss with
  | nil => rfl
  | cons s ss ih =>
    have hrest := ih fun s' hs' => h s' (List.mem_cons_of_mem s hs')
    have hforM : (s :: ss).forM (fun s => discard (execute s)) =
        discard (execute s) >>= fun _ => ss.forM fun s => discard (execute s) := rfl
    rw [hforM, bind_assoc]
    funext m
    cases hs : execute s m with
    | error f m₁ =>
      have hdiscard : discard (execute s) m = .error f m₁ := bind_of_error hs
      exact (bind_of_error hs).trans (bind_of_error hdiscard).symm
    | ok c m₁ =>
      obtain rfl := h s List.mem_cons_self m c m₁ hs
      have hdiscard : discard (execute s) m = .ok () m₁ := bind_of_ok hs
      rw [bind_of_ok hdiscard]
      exact (bind_of_ok hs).trans (congrFun hrest m₁)

/-- A `return` of which nothing is reported is inside of a function. -/
theorem endsNormally_of_unreported {room : Nat} {ss : List Statement}
    (hcomplete : (resolve room (.program ss)).complete = true)
    (hreturn : ∀ r ∈ (resolve room (.program ss)).reports, r.fault ≠ .returnOutsideFunction)
    (rounds room' : Nat) : ∀ s ∈ ss, EndsNormally (Eval.execute rounds room' s) := by
  rw [Binding.resolve_eq_walk ((Binding.resolve_complete_iff _ _).1 hcomplete)] at hreturn
  have hinside : Binding.ReturnsInside (Statement.allVisits ss false) :=
    Binding.returnsInside_of_unreported fun r hr => hreturn r (List.mem_reverse.2 hr)
  exact fun s hs => endsNormally_execute rounds room' s (hinside.statements s hs)

namespace Session

/-- A `return` is confined to its call. Let names be bound in any statements, to their end and
without a report of a `return` outside of functions. Then, on any machine, none of the statements
ends with a `return`, and to interpret them is to execute them all in turn, up to a failure. And of
every call of a function of a program, on any machine: the call is what is watched of it, and ends
in the scope of its caller. If it has a value, then either a `return` with this value is the last
event of the activation and the only one of its kind, and nothing but the current scope changes
behind it, or there is no `return` and the value is nil. The call expression of the caller has this
value. If the call fails, no `return` came up to its value. -/
theorem return_confined {room : Nat} {ss : List Statement}
    (hcomplete : (resolve room (.program ss)).complete = true)
    (hreturn : ∀ r ∈ (resolve room (.program ss)).reports, r.fault ≠ .returnOutsideFunction) :
    (∀ rounds room s, s ∈ ss → ∀ m c m', Eval.execute rounds room s m = .ok c m' → c = .normal) ∧
    (∀ limits, interpret limits (.program ss) = reporting (onMachine do
      ss.forM fun s => discard (Eval.execute limits.rounds limits.room s)
      pure none)) ∧
    ∀ rounds room c arguments m, Ends (Watch.invoke rounds room c arguments) ⟨m, []⟩
      (fun v b => Eval.invoke rounds room (.closure c) arguments m = .ok v b.machine ∧
        b.machine.scope = m.scope ∧
        ((∃ before m₁, b.events.reverse = before ++ [.returned v m₁] ∧ NoReturn before ∧
            b.machine = { m₁ with scope := m.scope }) ∨
          NoReturn b.events ∧ v = .nil) ∧
        ∀ below callee paren es m₀ m₁, room = below + 1 →
          Eval.evaluate rounds room callee m₀ = .ok (.function (.closure c)) m₁ →
          Eval.evaluateAll (Eval.evaluate rounds below) es m₁ = .ok arguments m →
          arguments.length = c.parameters.length →
          Eval.evaluate rounds (below + 3) (.call callee paren es) m₀ = .ok v b.machine ∧
            b.machine.scope = m₀.scope)
      fun f b => Eval.invoke rounds room (.closure c) arguments m = .error f b.machine ∧
        b.machine.scope = m.scope ∧ NoReturn b.events := by
  refine ⟨fun rounds room' s hs => endsNormally_of_unreported hcomplete hreturn rounds room' s hs,
    fun limits => ?_, fun rounds room c arguments m => ?_⟩
  · have hall := executeAll_eq_forM
      (endsNormally_of_unreported hcomplete hreturn limits.rounds limits.room)
    simp only [interpret, hall, bind_assoc, pure_bind]
  · have hrestores := (goesOn_invoke rounds room m (.closure c) arguments).restores
    refine Ends.imp (watches_invoke rounds room c arguments ⟨m, []⟩)
      (fun v b ⟨hact, new, hnew, hcloses⟩ => ?_) fun f b ⟨hact, new, hnew, hno⟩ => ?_
    · rw [List.append_nil] at hnew
      subst hnew
      have hscope : b.machine.scope = m.scope := hrestores.ok hact
      refine ⟨hact, hscope, hcloses.imp_left ?_, ?_⟩
      · rintro ⟨before, m₁, heq, hbefore, hm⟩
        refine ⟨before.reverse, m₁, by rw [heq, List.reverse_cons], fun v' m' hmem => ?_, ?_⟩
        · exact hbefore v' m' (List.mem_reverse.1 hmem)
        · rwa [hscope] at hm
      · rintro below callee paren es m₀ m₁ rfl hcallee harguments harity
        refine ⟨evaluate_call hcallee harguments harity hact, hscope.trans ?_⟩
        have hk := Invariant.anything.keptBy rounds below
        have hall : ∀ e ∈ es, Invariant.anything.node m₁.store m₁.scope (.expression e) :=
          fun _ _ => trivial
        have hes := (hk.evaluateAll trivial hall).goesOn.restores
        exact (hes.ok harguments).trans
          ((goesOn_evaluate rounds (below + 1) m₀ callee).restores.ok hcallee)
    · rw [List.append_nil] at hnew
      subst hnew
      exact ⟨hact, hrestores.error hact, hno⟩

/-- The body of a function that returns out of a block in an endless loop. -/
def loopingBody : List Statement :=
  let yes : Expr := .literal (.bool true)
  [.while yes (.block [.return ⟨.return, "return", .nil, 1⟩ (some yes), .print yes]), .print yes]

/-- A call of the function, which has no name, as a statement. -/
def looping : List Statement :=
  [.expression (.call (.function ⟨.fun, "fun", .nil, 1⟩ [] loopingBody)
    ⟨.rightParen, ")", .nil, 1⟩ [])]

theorem return_confined_looping :
    let m := Machine.start [] 0
    (resolve 20 (.program looping)).complete = true ∧
    (∀ r ∈ (resolve 20 (.program looping)).reports, r.fault ≠ .returnOutsideFunction) ∧
    (∀ s ∈ looping, ∀ c m', Eval.execute 9 20 s m = .ok c m' → c = .normal) ∧
    ∃ b before m₁, Watch.invoke 9 20 ⟨0, none, [], loopingBody, 0⟩ [] ⟨m, []⟩ = .ok (.bool true) b ∧
      before.length = 4 ∧ b.events.reverse = before ++ [.returned (.bool true) m₁] ∧
      m₁.scope = 2 ∧ b.machine = { m₁ with scope := 0 } ∧
      Eval.invoke 9 20 (.closure ⟨0, none, [], loopingBody, 0⟩) [] m =
        .ok (.bool true) b.machine := by
  intro m
  have hcomplete : (resolve 20 (.program looping)).complete = true := by decide
  have hreturn : ∀ r ∈ (resolve 20 (.program looping)).reports,
      r.fault ≠ .returnOutsideFunction := by decide
  obtain ⟨hnormal, -, hcalls⟩ := return_confined hcomplete hreturn
  refine ⟨hcomplete, hreturn, fun s hs c m' => hnormal 9 20 s hs m c m', ?_⟩
  have hcall := hcalls 9 20 ⟨0, none, [], loopingBody, 0⟩ [] m
  obtain ⟨hact, -, hreturned, -⟩ := hcall.ok rfl
  rcases hreturned with ⟨before, m₁, hevents, -, hm⟩ | ⟨-, hnil⟩
  · refine ⟨_, before, m₁, rfl, ?_, hevents, ?_, hm, hact⟩
    · simpa using congrArg List.length hevents.symm
    · cases (congrArg List.getLast? hevents).trans List.getLast?_concat
      rfl
  · cases hnil

end Session
end Lox
