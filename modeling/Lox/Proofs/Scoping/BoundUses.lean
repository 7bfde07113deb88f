import Lox.Proofs.Scoping.Points
import Lox.Proofs.Scoping.Programs

/-!
# Uses of bound variables

At every point of a run, a use that the table binds has its variable in the scope that the table
leads to. Only an assignment may come too early, while the initializer of the variable is still
being evaluated. The invariant behind it is that every point is linked to a place of the program, in
a world whose pending names are those of the point.
-/
namespace Lox.Scoping

open Binding (Names Table hops? readable marked declaring declaredIn withParameters FunctionBound)
open Lexical (Cell Env State)

variable {t : Table} {rounds : Nat}

/-- A task is bound among the names of a place. -/
def TaskBound (t : Table) (w : World) (sc : ScopeId) (Γ : List Names) : Task → Prop
  | .expression _ e => e.Bound t Γ
  | .expressions _ es => Expr.AllBound t es Γ
  | .call _ f vs => vs.length = f.arity ∧ (∃ f', Alike t w (.function f) (.function f')) ∧
      ∃ vs', List.Forall₂ (Alike t w) vs vs'
  | .statement _ st => st.Bound t Γ ∧ Frontier w sc Γ
  | .statements _ ss => Statement.AllBound t ss Γ ∧ Frontier w sc Γ
  | .loop _ _ condition body => (Statement.while condition body).Bound t Γ ∧ Frontier w sc Γ

/-- A point is linked to a place of the program. -/
structure PointLinked (t : Table) (p : Point) (w : World) (s : State) (Γ : List Names) (env : Env) :
    Prop where
  agrees : Agrees t w p.machine s
  pending : w.pending = p.pending
  linked : Linked w Γ env p.machine.scope
  placed : Placed Γ env
  bound : TaskBound t w p.machine.scope Γ p.task

section
variable {room : Nat} {w : World} {m m' : Machine} {s : State} {Γ : List Names} {env : Env}

theorem evaluated {e : Expr} {v : Value} (h : Agrees t w m s) (hlink : Linked w Γ env m.scope)
    (hb : e.Bound t Γ) (hok : Eval.evaluate rounds room e m = .ok v m') :
    ∃ w' s', Continues t none w m w' m' s' ∧ ∃ v', Alike t w' v v' := by
  have hm : Mirrored .machine t rounds rounds room room :=
    mirrored (Nat.le_refl _) (Nat.le_refl _)
  obtain ⟨v', s', -, w', hc, hv⟩ := (hm.evaluate e Γ env w m s h hlink hb).ok hok
  exact ⟨w', s', hc, v', hv⟩

theorem evaluatedAll {es : List Expr} {vs : List Value} (h : Agrees t w m s)
    (hlink : Linked w Γ env m.scope) (hb : Expr.AllBound t es Γ)
    (hok : Eval.evaluateAll (Eval.evaluate rounds room) es m = .ok vs m') :
    ∃ w' s', Continues t none w m w' m' s' ∧ ∃ vs', List.Forall₂ (Alike t w') vs vs' := by
  have hm : Mirrored .machine t rounds rounds room room :=
    mirrored (Nat.le_refl _) (Nat.le_refl _)
  obtain ⟨vs', s', -, w', hc, hvs⟩ := (mirrors_evaluateAll hm h hlink hb).ok hok
  exact ⟨w', s', hc, vs', hvs⟩

theorem executed {st : Statement} (h : Agrees t w m s) (hlink : Linked w Γ env m.scope)
    (hp : Placed Γ env) (hf : Frontier w m.scope Γ) (hb : st.Bound t Γ)
    (hok : Eval.execute rounds room st m = .ok .normal m') :
    ∃ w' s' env', Continues t (some m.scope) w m w' m' s' ∧
      Linked w' (st.scopesAfter Γ) env' m'.scope ∧ Placed (st.scopesAfter Γ) env' ∧
      Frontier w' m'.scope (st.scopesAfter Γ) := by
  have hm : Mirrored .machine t rounds rounds room room :=
    mirrored (Nat.le_refl _) (Nat.le_refl _)
  obtain ⟨⟨c', env'⟩, s', -, w', hc, -, hnormal⟩ :=
    (hm.execute st Γ env w m s h hlink (fun _ => hp) hf hb).ok hok
  rw [← hc.scope] at hnormal
  obtain ⟨hlink', hf', hinside⟩ := hnormal rfl
  exact ⟨w', s', env', hc, hlink', hp.scopesAfter hinside st, hf'⟩

/-- A point behind an evaluation is linked to the same place. -/
theorem PointLinked.behind {task task' : Task} {P : List (ScopeId × String)} {own : Option Nat}
    {w' : World} {s' : State} (hp : PointLinked t ⟨task, m, P⟩ w s Γ env)
    (hc : Continues t own w m w' m' s') (hb : TaskBound t w' m'.scope Γ task') :
    ∃ w' s' Γ' env', PointLinked t ⟨task', m', P⟩ w' s' Γ' env' :=
  ⟨w', s', Γ, env, hc.agrees, hc.pending.trans hp.pending, hc.linked hp.linked, hp.placed, hb⟩

/-- A point at the beginning of an evaluation is linked to the same place. -/
theorem PointLinked.begins {task task' : Task} {P : List (ScopeId × String)}
    (hp : PointLinked t ⟨task, m, P⟩ w s Γ env) (hb : TaskBound t w m.scope Γ task') :
    ∃ w' s' Γ' env', PointLinked t ⟨task', m, P⟩ w' s' Γ' env' :=
  ⟨w, s, Γ, env, hp.agrees, hp.pending, hp.linked, hp.placed, hb⟩

end

/-- The statements of a block are linked to the place at the beginning of the block. -/
theorem PointLinked.entersBlock {room : Nat} {ss : List Statement} {w : World} {m : Machine}
    {s : State} {Γ : List Names} {env : Env} {P : List (ScopeId × String)}
    (hp : PointLinked t ⟨.statement (room + 2) (.block ss), m, P⟩ w s Γ env) :
    ∃ w' s' Γ' env', PointLinked t ⟨.statements room ss,
      { m with store := m.store.fork m.scope, scope := m.store.size }, P⟩ w' s' Γ' env' := by
  have hstore : m.store = w.store := hp.agrees.store
  rw [hstore]
  have hfork := (hp.agrees.fork m.scope).moved w.store.size
  rw [hstore] at hfork
  exact ⟨_, s, [] :: Γ, env.enter, hfork, hp.pending, hp.linked.enter, rfl, hp.bound.1,
    frontier_enter hp.agrees _⟩

/-- The body of a function is linked to the place where the function was made. -/
theorem PointLinked.entersFunction {room : Nat} {c : Closure} {vs : List Value} {frame : Nat}
    {w : World} {m m₁ : Machine} {s : State} {Γ : List Names} {env : Env}
    {P : List (ScopeId × String)}
    (hp : PointLinked t ⟨.call (room + 2) (.closure c) vs, m, P⟩ w s Γ env)
    (ho : Run.openFrame c.scope c.parameters vs m = .ok frame m₁) :
    ∃ w' s' Γ' env', PointLinked t ⟨.statements room c.body, { m₁ with scope := frame }, P⟩
      w' s' Γ' env' := by
  obtain ⟨hlen, ⟨f', hf'⟩, vs', hvs⟩ := hp.bound
  cases hf' with
  | plain _ hplain => exact absurd rfl (hplain c)
  | closure hcaptured hbody hlinked =>
    obtain ⟨hnodup, hbody⟩ := hbody
    obtain ⟨w₁, env₁, s₁, -, hopen, hc, hlink, hplaced, hf⟩ :=
      openFrame_mirrored hp.agrees hlinked hvs hlen hnodup
    rw [hopen] at ho
    cases ho
    exact ⟨w₁, s₁, _, env₁, hc.agrees.moved _, hc.pending.trans hp.pending, hlink, hplaced, hbody,
      hf⟩

/-- Each part of an evaluation is linked to a place if the evaluation is. -/
theorem PointLinked.enters {p q : Point} {w : World} {s : State} {Γ : List Names} {env : Env}
    (hp : PointLinked t p w s Γ env) (h : p.Enters rounds q) :
    ∃ w' s' Γ' env', PointLinked t q w' s' Γ' env' := by
  obtain ⟨hagrees, hpending, hlink, hplaced, hbound⟩ := id hp
  cases h with
  | grouping => exact hp.begins hbound
  | operand => exact hp.begins hbound
  | binaryLeft => exact hp.begins hbound.1
  | binaryRight hl =>
    obtain ⟨w', s', hc, -⟩ := evaluated hagrees hlink hbound.1 hl
    exact hp.behind hc hbound.2
  | logicalLeft => exact hp.begins hbound.1
  | logicalRight hl hd =>
    obtain ⟨w', s', hc, -⟩ := evaluated hagrees hlink hbound.1 hl
    exact hp.behind hc hbound.2
  | ternaryCondition => exact hp.begins hbound.1
  | ternaryBranch hc =>
    obtain ⟨w', s', hc, -⟩ := evaluated hagrees hlink hbound.1 hc
    apply hp.behind hc
    split
    · exact hbound.2.1
    · exact hbound.2.2
  | assigned => exact hp.begins hbound.1
  | callee => exact hp.begins hbound.1
  | arguments hcallee =>
    obtain ⟨w', s', hc, -⟩ := evaluated hagrees hlink hbound.1 hcallee
    exact hp.behind hc hbound.2
  | call hcallee ha hlen =>
    obtain ⟨w₁, s₁, hc₁, v', hv⟩ := evaluated hagrees hlink hbound.1 hcallee
    obtain ⟨w₂, s₂, hc₂, hvs⟩ := evaluatedAll hc₁.agrees (hc₁.linked hlink) hbound.2 ha
    refine hp.behind (hc₁.trans hc₂) ⟨hlen, ?_, hvs⟩
    cases hv.mono hc₂.later with
    | plain _ hplain => exact ⟨_, .plain _ hplain⟩
    | closure hcaptured hbody hlinked => exact ⟨_, .closure hcaptured hbody hlinked⟩
  | firstExpression => exact hp.begins hbound.1
  | nextExpressions he =>
    obtain ⟨w', s', hc, -⟩ := evaluated hagrees hlink hbound.1 he
    exact hp.behind hc hbound.2
  | functionBody ho => exact hp.entersFunction ho
  | blockBody => exact hp.entersBlock
  | expression => exact hp.begins hbound.1
  | @ifCondition _ _ _ b =>
    apply hp.begins
    cases b <;> exact hbound.1.1
  | @thenBranch _ _ _ b _ _ _ _ hcondition ht =>
    obtain ⟨hbc, hbt⟩ : _ ∧ _ := by
      cases b with
      | none => exact ⟨hbound.1.1, hbound.1.2.1⟩
      | some _ => exact ⟨hbound.1.1, hbound.1.2.1⟩
    obtain ⟨w', s', hc, -⟩ := evaluated hagrees hlink hbc hcondition
    exact hp.behind hc ⟨hbt, hc.frontier hlink hbound.2⟩
  | elseBranch hcondition ht =>
    obtain ⟨⟨hbc, -, -, hbe, -⟩, hf⟩ := hbound
    obtain ⟨w', s', hc, -⟩ := evaluated hagrees hlink hbc hcondition
    exact hp.behind hc ⟨hbe, hc.frontier hlink hf⟩
  | printed => exact hp.begins hbound.1
  | returned => exact hp.begins hbound.1
  | initializer =>
    obtain ⟨⟨hnew, hb⟩, hf⟩ := hbound
    obtain ⟨w₁, env₁, s₁, -, hinside, hbegun⟩ := declare_begun hagrees hlink hplaced hf hnew
    exact ⟨w₁, s₁, _, env₁, hbegun.agrees, by rw [hbegun.pending, hpending], hbegun.linked,
      hplaced.marked hinside _ _, hb⟩
  | loop => exact hp.begins hbound
  | loopCondition => exact hp.begins hbound.1.1
  | loopBody hcondition ht =>
    obtain ⟨⟨hbc, hbb, -⟩, hf⟩ := hbound
    obtain ⟨w', s', hc, -⟩ := evaluated hagrees hlink hbc hcondition
    exact hp.behind hc ⟨hbb, hc.frontier hlink hf⟩
  | nextRound hcondition ht hbody =>
    obtain ⟨hb, hf⟩ := hbound
    obtain ⟨w₁, s₁, hc₁, -⟩ := evaluated hagrees hlink hb.1 hcondition
    obtain ⟨w₂, s₂, env₂, hc₂, -, -, hf₂⟩ :=
      executed hc₁.agrees (hc₁.linked hlink) hplaced (hc₁.frontier hlink hf) hb.2.1 hbody
    rw [Statement.scopesAfter_of_not_declaration hb.2.2] at hf₂
    exact hp.behind (hc₁.weaken.trans hc₂) ⟨hb, hf₂⟩
  | firstStatement => exact hp.begins ⟨hbound.1.1, hbound.2⟩
  | nextStatements hs =>
    obtain ⟨⟨hb, hrest⟩, hf⟩ := hbound
    obtain ⟨w', s', env', hc, hlink', hplaced', hf'⟩ := executed hagrees hlink hplaced hf hb hs
    exact ⟨w', s', _, env', hc.agrees, hc.pending.trans hpending, hlink', hplaced', hrest, hf'⟩

section
variable {limits : Limits} {source : String} {ss : List Statement} {hosts : List HostFunction}
  {clock : Clock} {p : Point}

/-- A point of the run of a program in a new session. -/
def Reached (limits : Limits) (ss : List Statement) (hosts : List HostFunction) (clock : Clock) :
    Point → Prop :=
  Relation.ReflTransGen (Point.Enters limits.rounds)
    ⟨.statements limits.room ss, startMachine limits ss hosts clock, []⟩

/-- Every point of a program without reports is linked to a place of the program. -/
theorem Reached.linked (h : Resolves limits source ss) (hp : Reached limits ss hosts clock p) :
    ∃ w s Γ env, PointLinked (tableOf limits ss) p w s Γ env := by
  induction hp with
  | refl => exact ⟨_, _, [], .top, agrees_start _ _ _, rfl, linked_start _ _, rfl, h.allBound,
      frontier_start _ _⟩
  | tail _ hstep ih =>
    obtain ⟨w, s, Γ, env, hp⟩ := ih
    exact hp.enters hstep

end

/-- A name that may be read is in the scope that the table leads to. -/
theorem PointLinked.access {room : Nat} {site : Site} {name : Token} {hops : Nat} {w : World}
    {m : Machine} {s : State} {Γ : List Names} {env : Env} {P : List (ScopeId × String)}
    (hp : PointLinked t ⟨.expression room (.access site name), m, P⟩ w s Γ env)
    (hentry : m.table.lookup site = some hops) :
    ∃ id v, m.store.ancestor? hops m.scope = some id ∧
      m.store.valueIn? id name.lexeme = some v ∧ Run.lookUp site name m = .ok v m := by
  obtain ⟨hagrees, -, hlink, -, hsite, hreadable⟩ := hp
  have hstore : m.store = w.store := hagrees.store
  have hhops : hops? name.lexeme Γ = some hops := by
    rw [← hsite, ← hentry, hagrees.table]
  obtain ⟨id, cell, hid, -, -, -, hholds⟩ := hlink.bound name.lexeme hops hhops
  rw [hreadable] at hholds
  obtain hsome | ⟨-, hready⟩ := hholds
  · obtain ⟨v, hv⟩ := Option.isSome_iff_exists.1 hsome
    rw [← hstore] at hid hv
    have hholder : Run.holder m site name = .ok id := by
      rw [Run.holder, hentry]
      simp only [Store.holderAt, hid, hv, Option.isSome_some, if_true]
    have hget : m.store.getIn id name.lexeme = .ok v := by rw [Store.getIn, hv]
    refine ⟨id, v, hid, hv, ?_⟩
    simp only [Run.lookUp, hholder, bind, Except.bind, hget]
  · cases hready

/-- Behind the value of an assignment its name is in the scope that the table leads to, or it is
pending there. -/
theorem PointLinked.assign {room : Nat} {site : Site} {name : Token} {e : Expr} {hops : Nat}
    {w : World} {m m' : Machine} {s : State} {Γ : List Names} {env : Env}
    {P : List (ScopeId × String)} {v : Value}
    (hp : PointLinked t ⟨.expression (room + 2) (.assign site name e), m, P⟩ w s Γ env)
    (hentry : m.table.lookup site = some hops)
    (hok : Eval.evaluate rounds room e m = .ok v m') :
    ∃ id, m.store.ancestor? hops m.scope = some id ∧
      (Run.assign site name v m' =
          .ok () { m' with store := m'.store.define id name.lexeme v } ∨
        (id, name.lexeme) ∈ P ∧ Run.assign site name v m' =
          .error (.error ⟨name, .undefinedVariable name.lexeme⟩) m') := by
  obtain ⟨hagrees, hpending, hlink, -, hb, hsite⟩ := hp
  have hstore : m.store = w.store := hagrees.store
  have hhops : hops? name.lexeme Γ = some hops := by
    rw [← hsite, ← hentry, hagrees.table]
  obtain ⟨w', s', hc, -⟩ := evaluated hagrees hlink hb hok
  obtain ⟨id, cell, hid, -, -, -, hholds⟩ := hlink.bound name.lexeme hops hhops
  have hid' : m'.store.ancestor? hops m'.scope = some id := by
    rw [hc.agrees.store, hc.scope]
    exact Store.ancestor?_mono hc.later.parents hid
  have hholder : Run.holder m' site name =
      (if (m'.store.valueIn? id name.lexeme).isSome then .ok id else .error .undefined) := by
    rw [Run.holder, hc.agrees.table, hsite, hhops]
    simp only [Store.holderAt, hid']
  have hheld : (m'.store.valueIn? id name.lexeme).isSome ∨ (id, name.lexeme) ∈ P := by
    have hpending' : w'.pending = P := hc.pending.trans hpending
    rw [hc.agrees.store, ← hpending']
    exact (hholds.mono hc.later).imp_right And.left
  refine ⟨id, by rwa [hstore], ?_⟩
  cases hsome : (m'.store.valueIn? id name.lexeme).isSome with
  | true =>
    left
    simp only [Run.assign, hholder, hsome, if_true]
  | false =>
    rw [hsome] at hholder hheld
    refine .inr ⟨hheld.resolve_left Bool.false_ne_true, ?_⟩
    simp only [Run.assign, hholder]
    rfl

/-- If a program without reports ends because a variable is undefined, then the variable is global,
or it was assigned to in its own initializer. -/
theorem undefined_of_run {limits : Limits} {source : String} {ss : List Statement}
    {hosts : List HostFunction} {clock : Clock} {token : Token} {name : String} {m : Machine}
    (h : Resolves limits source ss)
    (hrun : Eval.executeAll (Eval.execute limits.rounds limits.room) ss
      (startMachine limits ss hosts clock) = .error (.error ⟨token, .undefinedVariable name⟩) m) :
    ∃ p site, Reached limits ss hosts clock p ∧
      p.Raises limits.rounds (.error ⟨token, .undefinedVariable name⟩) site token ∧
      (p.machine.table.lookup site = none ∨ ∃ id, (id, token.lexeme) ∈ p.pending) := by
  have hfails : Point.FailsAt limits.rounds (.error ⟨token, .undefinedVariable name⟩)
      ⟨.statements limits.room ss, startMachine limits ss hosts clock, []⟩ := ⟨m, hrun⟩
  have huse : Failure.AtUse (.error ⟨token, .undefinedVariable name⟩) := trivial
  obtain ⟨p, site, use, hreached, hraises⟩ := hfails.exists_raises huse
  obtain rfl : token = use := by
    obtain ⟨fault, hfault⟩ := hraises.exists_fault
    cases fault <;> cases hfault
    rfl
  refine ⟨p, site, hreached, hraises, ?_⟩
  obtain ⟨w, s, Γ, env, hp⟩ := Reached.linked h hreached
  cases hentry : p.machine.table.lookup site with
  | none => exact .inl rfl
  | some hops =>
    right
    cases hraises with
    | access hfail =>
      obtain ⟨id, v, -, -, hok⟩ := hp.access hentry
      obtain ⟨m', hfail⟩ := hfail
      rw [hok] at hfail
      cases hfail
    | assign hv hfail =>
      obtain ⟨id, -, hmade | ⟨hearly, -⟩⟩ := hp.assign hentry hv
      · obtain ⟨m', hfail⟩ := hfail
        rw [hmade] at hfail
        cases hfail
      · exact ⟨id, hearly⟩

/-- Lookups of bound variables succeed: at every point of the run of a program without reports, an
access that has an entry finds its name as many scopes outwards as the entry says, and an assignment
that has an entry is either made there or comes while the declaration of the name in that scope
still waits for its initializer. -/
theorem Reached.bound_use {limits : Limits} {source : String} {ss : List Statement}
    {hosts : List HostFunction} {clock : Clock} {p : Point} (h : Resolves limits source ss)
    (hp : Reached limits ss hosts clock p) {site : Site} {name : Token} {hops : Nat}
    (hentry : p.machine.table.lookup site = some hops) :
    (∀ room, p.task = .expression (room + 1) (.access site name) →
      ∃ id v, p.machine.store.ancestor? hops p.machine.scope = some id ∧
        p.machine.store.valueIn? id name.lexeme = some v ∧
        Eval.evaluate limits.rounds (room + 1) (.access site name) p.machine = .ok v p.machine) ∧
    ∀ room e v m, p.task = .expression (room + 2) (.assign site name e) →
      Eval.evaluate limits.rounds room e p.machine = .ok v m →
      ∃ id, p.machine.store.ancestor? hops p.machine.scope = some id ∧
        (Eval.evaluate limits.rounds (room + 2) (.assign site name e) p.machine =
            .ok v { m with store := m.store.define id name.lexeme v } ∨
          (id, name.lexeme) ∈ p.pending ∧
            Eval.evaluate limits.rounds (room + 2) (.assign site name e) p.machine =
              .error (.error ⟨name, .undefinedVariable name.lexeme⟩) m) := by
  obtain ⟨w, s, Γ, env, hlinked⟩ := hp.linked h
  obtain ⟨task, machine, pending⟩ := p
  constructor
  · rintro room rfl
    exact hlinked.access hentry
  · rintro room e v m rfl hok
    obtain ⟨id, hid, hend⟩ := hlinked.assign hentry hok
    have hrun : Eval.evaluate limits.rounds (room + 2) (.assign site name e) machine =
        (do Run.assign site name v; pure v : Run Value) m := by
      show (do let value ← Eval.evaluate limits.rounds room e
               Run.assign site name value
               pure value : Run Value) machine = _
      simp only [bind, EStateM.bind, hok]
    refine ⟨id, hid, ?_⟩
    rw [hrun]
    rcases hend with hmade | ⟨hearly, hfail⟩
    · left
      simp only [bind, EStateM.bind, hmade]
      rfl
    · right
      simp only [bind, EStateM.bind, hfail, hearly, true_and]

/-- A program that reads an outer variable and assigns to an inner one in its own initializer. -/
def earlyAssignment : String := "\x7bvar a;\x7bvar b=(b=a);\x7d\x7d"

/-- A name on the first line. -/
def nameToken (text : String) : Token := ⟨.identifier, text, .nil, 1⟩

def earlyAssignmentStatements : List Statement :=
  [.block [.var (nameToken "a") none, .block [.var (nameToken "b")
    (some (.grouping (.assign 0 (nameToken "b") (.access 1 (nameToken "a")))))]]]

theorem resolves_earlyAssignment :
    Resolves ⟨60, 1⟩ earlyAssignment earlyAssignmentStatements := by
  have hscan : Token.scan earlyAssignment =
      ⟨[⟨.leftBrace, "\x7b", .nil, 1⟩, ⟨.var, "var", .nil, 1⟩, nameToken "a",
        ⟨.semicolon, ";", .nil, 1⟩, ⟨.leftBrace, "\x7b", .nil, 1⟩, ⟨.var, "var", .nil, 1⟩,
        nameToken "b", ⟨.equal, "=", .nil, 1⟩, ⟨.leftParen, "(", .nil, 1⟩, nameToken "b",
        ⟨.equal, "=", .nil, 1⟩, nameToken "a", ⟨.rightParen, ")", .nil, 1⟩,
        ⟨.semicolon, ";", .nil, 1⟩, ⟨.rightBrace, "\x7d", .nil, 1⟩, ⟨.rightBrace, "\x7d", .nil, 1⟩,
        ⟨.eof, "", .nil, 1⟩], []⟩ := by
    decide +kernel
  have hread : Code.ofSource? .program 60 0 earlyAssignment =
      some ⟨.program earlyAssignmentStatements, [], 2⟩ := by
    simp only [Code.ofSource?, Code.ofTokens?, hscan]
    rfl
  exact ⟨⟨2, hread⟩, by decide +kernel, by decide +kernel⟩

/-- The point where the program assigns to `b`. -/
def earlyAssignmentPoint : Point :=
  let m := startMachine ⟨60, 1⟩ earlyAssignmentStatements [] 0
  let store := ((m.store.fork Store.global).define 1 "a" .nil).fork 1
  ⟨.expression 54 (.assign 0 (nameToken "b") (.access 1 (nameToken "a"))),
    { m with store := store, scope := 2 }, [(2, "b")]⟩

theorem reached_earlyAssignment :
    Reached ⟨60, 1⟩ earlyAssignmentStatements [] 0 earlyAssignmentPoint := by
  have h₁ : Reached ⟨60, 1⟩ earlyAssignmentStatements [] 0 _ := .single .firstStatement
  have h₂ := (h₁.tail .blockBody).tail (.nextStatements rfl)
  have h₃ := (h₂.tail .firstStatement).tail .blockBody
  exact ((h₃.tail .firstStatement).tail .initializer).tail .grouping

theorem Reached.bound_use_earlyAssignment :
    let m := earlyAssignmentPoint.machine
    Resolves ⟨60, 1⟩ earlyAssignment earlyAssignmentStatements ∧
      Reached ⟨60, 1⟩ earlyAssignmentStatements [] 0 earlyAssignmentPoint ∧
      m.table.lookup 0 = some 0 ∧ m.table.lookup 1 = some 1 ∧
      (∃ id, m.store.ancestor? 0 m.scope = some id ∧ (id, "b") ∈ earlyAssignmentPoint.pending) ∧
      ∃ id v, m.store.ancestor? 1 m.scope = some id ∧ m.store.valueIn? id "a" = some v := by
  intro m
  have hassign : m.table.lookup 0 = some 0 := by decide +kernel
  have haccess : m.table.lookup 1 = some 1 := by decide +kernel
  refine ⟨resolves_earlyAssignment, reached_earlyAssignment, hassign, haccess, ?_, ?_⟩
  · obtain ⟨id, hid, hend⟩ := (@Reached.bound_use _ _ _ _ _ _ resolves_earlyAssignment
      reached_earlyAssignment 0 (nameToken "b") 0 hassign).2 52 (.access 1 (nameToken "a")) .nil
      m rfl rfl
    rcases hend with hmade | hearly
    · cases hmade
    · exact ⟨id, hid, hearly.1⟩
  · have hreached : Reached ⟨60, 1⟩ earlyAssignmentStatements [] 0
        { earlyAssignmentPoint with task := .expression 52 (.access 1 (nameToken "a")) } :=
      reached_earlyAssignment.tail .assigned
    obtain ⟨id, v, hid, hv, -⟩ := (@Reached.bound_use _ _ _ _ _ _ resolves_earlyAssignment
      hreached 1 (nameToken "a") 1 haccess).1 51 rfl
    exact ⟨id, v, hid, hv⟩

end Lox.Scoping
