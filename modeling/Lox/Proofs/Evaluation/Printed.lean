import Lox.Proofs.Evaluation.Cursor
import Lox.Proofs.Scoping.Points

/-!
# What was printed

Whatever a run has printed by some point of it is still there when the run ends, and nothing comes
before it. This also holds if the run fails later: a failure takes nothing back.
-/
namespace Lox

/-- The machine that an action leaves behind, however it ends. -/
def Run.leaves {α : Type} (act : Run α) (m : Machine) : Machine :=
  match act m with
  | .ok _ m' => m'
  | .error _ m' => m'

section
variable {α β : Type} {act : Run α} {next : α → Run β} {m m₁ : Machine}

namespace GoesOn

theorem result (a : α) : GoesOn (pure a) m := .refl m

theorem bind (h : GoesOn act m) (hn : ∀ a m', GoesOn (next a) m') : GoesOn (act >>= next) m := by
  refine (ends_bind act next m _ _).2 (Ends.imp h (fun a m₁ hl => ?_) fun _ _ hl => hl)
  exact Ends.imp (hn a m₁) (fun _ _ hl' => hl.trans hl') fun _ _ hl' => hl.trans hl'

theorem guardStack (h : GoesOn act m) (token : Token) : GoesOn (Run.guardStack token act) m := by
  have hkeeps : Invariant.anything.Keeps act m fun _ _ => True :=
    Ends.imp h (fun _ _ hl => ⟨hl, trivial, trivial⟩) fun _ _ hl => ⟨hl, trivial⟩
  exact (hkeeps.guardStack token).goesOn

theorem resultAt (operator : Token) (r : Except RuntimeFault Value) :
    GoesOn (Eval.resultAt operator r) m := by
  cases r with
  | ok v => exact .refl m
  | error fault => exact .refl m

theorem print (text : String) : GoesOn (Run.print text) m :=
  ⟨.refl _, rfl, rfl, Nat.le_refl _, [text], rfl⟩

theorem define (name : String) (v : Value) : GoesOn (Run.define name v) m :=
  .of_store (.define _ _ _ _)

theorem assign {site : Site} {name : Token} (v : Value) : GoesOn (Run.assign site name v) m := by
  have hkeeps : Invariant.anything.Keeps (Run.assign site name v) m fun _ _ => True :=
    Invariant.keeps_assign (e := .literal .nil) trivial trivial trivial
  exact hkeeps.goesOn

theorem leaves (h : GoesOn act m) : m.Later (act.leaves m) := by
  unfold Run.leaves
  cases hact : act m with
  | ok a m' => exact h.ok hact
  | error f m' => exact h.error hact

end GoesOn

namespace Run

theorem leaves_of_ok {a : α} (h : act m = .ok a m₁) :
    (act >>= next).leaves m = (next a).leaves m₁ := by
  rw [leaves, bind_of_ok h]
  rfl

/-- What a first step prints is kept by the steps behind it. -/
theorem output_leaves_bind (hn : ∀ a m', GoesOn (next a) m') :
    (act.leaves m).output <:+ ((act >>= next).leaves m).output := by
  cases hact : act m with
  | ok a m' =>
    obtain ⟨texts, htexts⟩ := (hn a m').leaves.output
    rw [leaves_of_ok hact, leaves, hact]
    exact ⟨texts, htexts.symm⟩
  | error f m' =>
    rewrite [leaves, leaves, hact, bind_of_error hact]
    exact List.suffix_refl _

@[simp] theorem leaves_guardStack (token : Token) (act : Run α) (m : Machine) :
    (guardStack token act).leaves m = act.leaves m := by
  unfold leaves guardStack
  cases act m with
  | ok a m' => rfl
  | error f m' =>
    cases f with
    | error e => rfl
    | abort a => cases a <;> rfl

theorem output_leaves_guardStack_bind {token : Token} (hn : ∀ a m', GoesOn (next a) m') :
    (act.leaves m).output <:+ ((guardStack token act >>= next).leaves m).output := by
  have h : ((guardStack token act).leaves m).output <:+
      ((guardStack token act >>= next).leaves m).output := output_leaves_bind hn
  rwa [leaves_guardStack] at h

@[simp] theorem output_leaves_within (scope : ScopeId) (act : Run α) (m : Machine) :
    ((within scope act).leaves m).output = (act.leaves { m with scope := scope }).output := by
  unfold leaves within
  cases act { m with scope := scope } <;> rfl

end Run

end

/-- What is done with a function and its arguments. -/
theorem goesOn_application (rounds room : Nat) (paren : Token) (v : Value) (vs : List Value)
    (m : Machine) : GoesOn (match v with
      | .function f =>
        if vs.length = f.arity then Run.guardStack paren (Eval.invoke rounds room f vs)
        else Run.fail paren (.wrongArity f.arity vs.length)
      | _ => Run.fail paren .notCallable) m := by
  cases v with
  | function f =>
    dsimp only
    split
    · exact (goesOn_invoke rounds room m f vs).guardStack paren
    · exact .refl m
  | _ => exact .refl m

namespace Point

/-- What a point leaves behind when its task is done. -/
def leaves (rounds : Nat) (p : Point) : Machine :=
  match p.task with
  | .expression room e => (Eval.evaluate rounds room e).leaves p.machine
  | .expressions room es => (Eval.evaluateAll (Eval.evaluate rounds room) es).leaves p.machine
  | .call room f vs => (Eval.invoke rounds room f vs).leaves p.machine
  | .statement room s => (Eval.execute rounds room s).leaves p.machine
  | .statements room ss => (Eval.executeAll (Eval.execute rounds room) ss).leaves p.machine
  | .loop room n condition body =>
    (Eval.repeatWhile (Eval.evaluate rounds room condition) (Eval.execute rounds room body)
      n).leaves p.machine

variable {rounds : Nat} {p q : Point}

theorem later_leaves (rounds : Nat) (p : Point) : p.machine.Later (p.leaves rounds) := by
  obtain ⟨task, m, P⟩ := p
  cases task with
  | expression room e => exact (goesOn_evaluate rounds room m e).leaves
  | expressions room es =>
    exact ((Invariant.anything.keptBy rounds room).evaluateAll trivial
      fun _ _ => trivial).goesOn.leaves
  | call room f vs => exact (goesOn_invoke rounds room m f vs).leaves
  | statement room s => exact (goesOn_execute rounds room m s).leaves
  | statements room ss => exact (goesOn_executeAll rounds room m ss).leaves
  | loop room n condition body =>
    exact ((Invariant.anything.keptBy rounds room).repeatWhile trivial trivial
      trivial).goesOn.leaves

/-- What a part of an expression prints is kept by the whole. -/
theorem Enters.output (h : p.Enters rounds q) :
    (q.leaves rounds).output <:+ (p.leaves rounds).output := by
  have hanything := Invariant.anything.keptBy rounds
  have hevaluate (room : Nat) (e : Expr) (m : Machine) := goesOn_evaluate rounds room m e
  have hexecute (room : Nat) (s : Statement) (m : Machine) := goesOn_execute rounds room m s
  have hall (room : Nat) (es : List Expr) (m : Machine) :
      GoesOn (Eval.evaluateAll (Eval.evaluate rounds room) es) m :=
    ((hanything room).evaluateAll trivial fun _ _ => trivial).goesOn
  have hagain (room n : Nat) (condition : Expr) (body : Statement) (m : Machine) :
      GoesOn (Eval.repeatWhile (Eval.evaluate rounds room condition)
        (Eval.execute rounds room body) n) m :=
    ((hanything room).repeatWhile trivial trivial trivial).goesOn
  cases h with
  | grouping => exact List.suffix_refl _
  | operand => exact Run.output_leaves_guardStack_bind fun _ _ => .resultAt _ _
  | binaryLeft =>
    exact Run.output_leaves_guardStack_bind fun _ m =>
      .bind ((hevaluate _ _ m).guardStack _) fun _ _ => .resultAt _ _
  | @binaryRight room left operator right m P u m₁ hl =>
    show _ <:+ ((Run.guardStack operator (Eval.evaluate rounds room left) >>= _).leaves m).output
    rw [Run.leaves_of_ok (Run.guardStack_of_ok hl)]
    exact Run.output_leaves_guardStack_bind fun _ _ => .resultAt _ _
  | logicalLeft =>
    refine Run.output_leaves_bind fun v m => ?_
    split
    · exact .result v
    · exact hevaluate _ _ m
  | @logicalRight room left operator right m P u m₁ hl hd =>
    show _ <:+ ((Eval.evaluate rounds room left >>= _).leaves m).output
    rw [Run.leaves_of_ok hl, hd]
    exact List.suffix_refl _
  | ternaryCondition =>
    refine Run.output_leaves_bind fun v m => ?_
    split
    · exact hevaluate _ _ m
    · exact hevaluate _ _ m
  | @ternaryBranch room condition a b m P u m₁ hc =>
    show _ <:+ ((Eval.evaluate rounds room condition >>= _).leaves m).output
    rw [Run.leaves_of_ok hc]
    cases u.truthy <;> simp [leaves]
  | assigned =>
    exact Run.output_leaves_bind fun v m => .bind (.assign v) fun _ _ => .result v
  | callee =>
    exact Run.output_leaves_bind fun v m =>
      .bind (hall _ _ m) fun vs m => goesOn_application rounds _ _ v vs m
  | @arguments room e paren es m P u m₁ hc =>
    show _ <:+ ((Eval.evaluate rounds (room + 1) e >>= _).leaves m).output
    rw [Run.leaves_of_ok hc]
    exact Run.output_leaves_bind fun vs m => goesOn_application rounds _ _ u vs m
  | @call room e paren es m P f m₁ vs m₂ hc ha hlen =>
    show _ <:+ ((Eval.evaluate rounds (room + 1) e >>= _).leaves m).output
    rw [Run.leaves_of_ok hc, Run.leaves_of_ok ha]
    simp [leaves, hlen]
  | firstExpression =>
    exact Run.output_leaves_bind fun v m => .bind (hall _ _ m) fun vs _ => .result (v :: vs)
  | @nextExpressions room e es m P u m₁ he =>
    show _ <:+ ((Eval.evaluate rounds room e >>= _).leaves m).output
    rw [Run.leaves_of_ok he]
    exact Run.output_leaves_bind fun vs _ => .result (u :: vs)
  | @functionBody room c vs m P frame m₁ ho =>
    show _ <:+ ((Run.openFrame c.scope c.parameters vs >>= _).leaves m).output
    have hbody : (leaves rounds ⟨.statements room c.body, { m₁ with scope := frame }, P⟩).output =
        ((Eval.block rounds (room + 1) frame c.body).leaves m₁).output :=
      (Run.output_leaves_within _ _ _).symm
    rw [Run.leaves_of_ok ho, hbody]
    refine Run.output_leaves_bind fun r m => ?_
    cases r with
    | normal => exact .result _
    | returned v => exact .result v
  | @blockBody room ss m P =>
    let m₁ : Machine := { m with store := m.store.fork m.scope }
    have hblock : (leaves rounds ⟨.statement (room + 2) (.block ss), m, P⟩).output =
        (leaves rounds ⟨.statements room ss, { m₁ with scope := m.store.size }, P⟩).output :=
      Run.output_leaves_within m.store.size (Eval.executeAll (Eval.execute rounds room) ss) m₁
    exact hblock ▸ List.suffix_refl _
  | expression => exact Run.output_leaves_bind fun _ _ => .result _
  | @ifCondition room condition a b m P =>
    refine Run.output_leaves_bind fun v m => ?_
    cases v.truthy with
    | true => exact hexecute _ a m
    | false =>
      cases b with
      | none => exact .result _
      | some b => exact hexecute _ b m
  | @thenBranch room condition a b m P u m₁ hc ht =>
    show _ <:+ ((Eval.evaluate rounds room condition >>= _).leaves m).output
    rw [Run.leaves_of_ok hc, ht]
    exact List.suffix_refl _
  | @elseBranch room condition a b m P u m₁ hc ht =>
    show _ <:+ ((Eval.evaluate rounds room condition >>= _).leaves m).output
    rw [Run.leaves_of_ok hc, ht]
    exact List.suffix_refl _
  | printed =>
    exact Run.output_leaves_bind fun v m => .bind (.print _) fun _ _ => .result _
  | returned => exact Run.output_leaves_bind fun v _ => .result _
  | initializer =>
    exact Run.output_leaves_bind fun v m => .bind (.define _ _) fun _ _ => .result _
  | loop => exact List.suffix_refl _
  | @loopCondition room n condition body m P =>
    refine Run.output_leaves_bind fun v m => ?_
    cases v.truthy with
    | true =>
      refine .bind (hexecute _ body m) fun r m => ?_
      cases r with
      | normal => exact hagain room n condition body m
      | returned v => exact .result _
    | false => exact .result _
  | @loopBody room n condition body m P u m₁ hc ht =>
    show _ <:+ ((Eval.evaluate rounds room condition >>= _).leaves m).output
    rw [Run.leaves_of_ok hc, ht]
    refine Run.output_leaves_bind fun r m => ?_
    cases r with
    | normal => exact hagain room n condition body m
    | returned v => exact .result _
  | @nextRound room n condition body m P u m₁ m₂ hc ht hb =>
    show _ <:+ ((Eval.evaluate rounds room condition >>= _).leaves m).output
    rw [Run.leaves_of_ok hc, ht]
    show _ <:+ ((Eval.execute rounds room body >>= _).leaves m₁).output
    rw [Run.leaves_of_ok hb]
    exact List.suffix_refl _
  | @firstStatement room s ss m P =>
    refine Run.output_leaves_bind fun r m => ?_
    cases r with
    | normal => exact goesOn_executeAll rounds _ m _
    | returned v => exact .result _
  | @nextStatements room s ss m P m₁ hs =>
    show _ <:+ ((Eval.execute rounds room s >>= _).leaves m).output
    rw [Run.leaves_of_ok hs]
    exact List.suffix_refl _

/-- What was printed by a point of a run stays, whatever happens behind it. -/
theorem output_reached (h : Relation.ReflTransGen (Enters rounds) p q) :
    q.machine.output <:+ (p.leaves rounds).output := by
  induction h using Relation.ReflTransGen.head_induction_on with
  | refl =>
    obtain ⟨texts, htexts⟩ := (later_leaves rounds q).output
    exact ⟨texts, htexts.symm⟩
  | head hstep _ ih => exact ih.trans hstep.output

end Point
end Lox
