import Lox.Proofs.Evaluation.Succession

/-!
# Invariants at the points of a run

What evaluation keeps, it keeps on the way: an invariant that holds where an evaluation begins
holds at every point that the evaluation gets to.
-/
namespace Lox
namespace Invariant

variable (I : Invariant)

/-- What is said of a task on a machine. -/
def task (m : Machine) : Task → Prop
  | .expression _ e => I.node m.store m.scope (.expression e)
  | .expressions _ es => ∀ e ∈ es, I.node m.store m.scope (.expression e)
  | .call _ f vs => I.value m.store (.function f) ∧ ∀ v ∈ vs, I.value m.store v
  | .statement _ st => I.node m.store m.scope (.statement st)
  | .statements _ ss => ∀ st ∈ ss, I.node m.store m.scope (.statement st)
  | .loop _ _ condition body =>
    I.node m.store m.scope (.expression condition) ∧ I.node m.store m.scope (.statement body)

/-- What is said of a point that was got to from a machine. -/
structure At (m : Machine) (p : Point) : Prop where
  store : I.store p.machine.store
  task : I.task p.machine p.task
  later : m.store.Later p.machine.store
  table : p.machine.table = m.table

variable {I} {m m₁ m₂ : Machine} {rounds room : Nat} {task₁ task₂ : Task}
  {P P' : List (ScopeId × String)}

theorem evaluated {e : Expr} {v : Value} (hs : I.store m₁.store)
    (hn : I.node m₁.store m₁.scope (.expression e))
    (h : Eval.evaluate rounds room e m₁ = .ok v m₂) :
    m₁.Later m₂ ∧ I.store m₂.store ∧ I.value m₂.store v :=
  ((I.keptBy rounds room).evaluate e m₁ hs hn).ok h

theorem evaluatedAll {es : List Expr} {vs : List Value} (hs : I.store m₁.store)
    (hn : ∀ e ∈ es, I.node m₁.store m₁.scope (.expression e))
    (h : Eval.evaluateAll (Eval.evaluate rounds room) es m₁ = .ok vs m₂) :
    m₁.Later m₂ ∧ I.store m₂.store ∧ ∀ v ∈ vs, I.value m₂.store v :=
  ((I.keptBy rounds room).evaluateAll hs hn).ok h

theorem executed {st : Statement} {c : Completion} (hs : I.store m₁.store)
    (hn : I.node m₁.store m₁.scope (.statement st))
    (h : Eval.execute rounds room st m₁ = .ok c m₂) :
    m₁.Later m₂ ∧ I.store m₂.store ∧ I.completion m₂.store c :=
  ((I.keptBy rounds room).execute st m₁ hs hn).ok h

/-- A part that is evaluated at once. -/
theorem At.begins (h : I.At m ⟨task₁, m₁, P⟩) (ht : I.task m₁ task₂) : I.At m ⟨task₂, m₁, P'⟩ :=
  ⟨h.store, ht, h.later, h.table⟩

/-- A part that is evaluated behind others. -/
theorem At.behind (h : I.At m ⟨task₁, m₁, P⟩) (hl : m₁.Later m₂) (hs : I.store m₂.store)
    (ht : I.task m₂ task₂) : I.At m ⟨task₂, m₂, P'⟩ :=
  ⟨hs, ht, h.later.trans hl.store, hl.table.trans h.table⟩

/-- Each part of an evaluation keeps an invariant. -/
theorem At.enters {p q : Point} (hp : I.At m p) (h : p.Enters rounds q) : I.At m q := by
  obtain ⟨hs, ht, -, -⟩ := id hp
  cases h with
  | grouping => exact hp.begins (I.part ht .grouping)
  | operand => exact hp.begins (I.part ht .operand)
  | binaryLeft => exact hp.begins (I.part ht .binaryLeft)
  | binaryRight hok =>
    obtain ⟨hl, hs₁, -⟩ := evaluated hs (I.part ht .binaryLeft) hok
    exact hp.behind hl hs₁ (node_of_later (I.part ht .binaryRight) hl)
  | logicalLeft => exact hp.begins (I.part ht .logicalLeft)
  | logicalRight hok hd =>
    obtain ⟨hl, hs₁, -⟩ := evaluated hs (I.part ht .logicalLeft) hok
    exact hp.behind hl hs₁ (node_of_later (I.part ht .logicalRight) hl)
  | ternaryCondition => exact hp.begins (I.part ht .ternaryCondition)
  | ternaryBranch hok =>
    obtain ⟨hl, hs₁, -⟩ := evaluated hs (I.part ht .ternaryCondition) hok
    apply hp.behind hl hs₁
    split
    · exact node_of_later (I.part ht .ternaryThen) hl
    · exact node_of_later (I.part ht .ternaryElse) hl
  | assigned => exact hp.begins (I.part ht .assigned)
  | callee => exact hp.begins (I.part ht .callee)
  | arguments hok =>
    obtain ⟨hl, hs₁, -⟩ := evaluated hs (I.part ht .callee) hok
    exact hp.behind hl hs₁ fun e he => node_of_later (I.part ht (.argument he)) hl
  | call hok hall hlen =>
    obtain ⟨hl₁, hs₁, hf⟩ := evaluated hs (I.part ht .callee) hok
    obtain ⟨hl₂, hs₂, hvs⟩ := evaluatedAll hs₁
      (fun e he => node_of_later (I.part ht (.argument he)) hl₁) hall
    exact hp.behind (hl₁.trans hl₂) hs₂ ⟨I.value_later hl₂.store hf, hvs⟩
  | firstExpression => exact hp.begins (ht _ (by simp))
  | nextExpressions hok =>
    obtain ⟨hl, hs₁, -⟩ := evaluated hs (ht _ (by simp)) hok
    exact hp.behind hl hs₁ fun e he => node_of_later (ht e (by simp [he])) hl
  | functionBody hopen =>
    cases hopen
    obtain ⟨hs', hbody⟩ := I.frame hs ht.1 ht.2
    exact ⟨hs', hbody, hp.later.trans (.frame _ _ _ _), hp.table⟩
  | blockBody =>
    obtain ⟨hs', hbody⟩ := I.block hs ht
    exact ⟨hs', hbody, hp.later.trans (.fork _ _), hp.table⟩
  | expression => exact hp.begins (I.part ht .value)
  | ifCondition => exact hp.begins (I.part ht .ifCondition)
  | thenBranch hok htrue =>
    obtain ⟨hl, hs₁, -⟩ := evaluated hs (I.part ht .ifCondition) hok
    exact hp.behind hl hs₁ (node_of_later (I.part ht .thenBranch) hl)
  | elseBranch hok hfalse =>
    obtain ⟨hl, hs₁, -⟩ := evaluated hs (I.part ht .ifCondition) hok
    exact hp.behind hl hs₁ (node_of_later (I.part ht .elseBranch) hl)
  | printed => exact hp.begins (I.part ht .printed)
  | returned => exact hp.begins (I.part ht .returned)
  | initializer => exact hp.begins (I.part ht .initializer)
  | loop => exact hp.begins ⟨I.part ht .loopCondition, I.part ht .loopBody⟩
  | loopCondition => exact hp.begins ht.1
  | loopBody hok htrue =>
    obtain ⟨hl, hs₁, -⟩ := evaluated hs ht.1 hok
    exact hp.behind hl hs₁ (node_of_later ht.2 hl)
  | nextRound hok htrue hbody =>
    obtain ⟨hl₁, hs₁, -⟩ := evaluated hs ht.1 hok
    obtain ⟨hl₂, hs₂, -⟩ := executed hs₁ (node_of_later ht.2 hl₁) hbody
    have hl := hl₁.trans hl₂
    exact hp.behind hl hs₂ ⟨node_of_later ht.1 hl, node_of_later ht.2 hl⟩
  | firstStatement => exact hp.begins (ht _ (by simp))
  | nextStatements hok =>
    obtain ⟨hl, hs₁, -⟩ := executed hs (ht _ (by simp)) hok
    exact hp.behind hl hs₁ fun st hst => node_of_later (ht st (by simp [hst])) hl

/-- Every point that an evaluation gets to keeps an invariant. -/
theorem At.reaches {p q : Point} (hp : I.At m p)
    (h : Relation.ReflTransGen (Point.Enters rounds) p q) : I.At m q := by
  induction h with
  | refl => exact hp
  | tail _ hstep ih => exact ih.enters hstep

theorem Keeps.leaves {α : Type} {act : Run α} {Q : Store Value → α → Prop} (h : I.Keeps act m Q) :
    I.store (act.leaves m).store := by
  cases hact : act m with
  | ok a m' =>
    rw [Run.leaves, hact]
    exact (h.ok hact).2.1
  | error f m' =>
    rw [Run.leaves, hact]
    exact (h.error hact).2

/-- The invariant holds of the values that come out of an action. -/
theorem Keeps.results {α : Type} {act : Run α} {Q : Store Value → α → Prop}
    {shows : α → List Value} (h : I.Keeps act m Q)
    (hshows : ∀ s a, Q s a → ∀ v ∈ shows a, I.value s v) :
    ∀ v ∈ act.results shows m, I.value (act.leaves m).store v := by
  cases hact : act m with
  | ok a m' =>
    rw [Run.results, Run.leaves, hact]
    exact hshows _ a (h.ok hact).2.2
  | error f m' =>
    rw [Run.results, hact]
    intro v hv
    cases hv

theorem value_of_completion (s : Store Value) (c : Completion) (h : I.completion s c) :
    ∀ v ∈ c.values, I.value s v := by
  cases c with
  | normal => exact nofun
  | returned v => exact List.forall_mem_singleton.2 h

/-- Where an evaluation ends the invariant holds again, and it holds of what comes out. -/
theorem At.leaves {p : Point} (hp : I.At m p) (rounds : Nat) :
    I.store (p.leaves rounds).store ∧
      ∀ v ∈ p.results rounds, I.value (p.leaves rounds).store v := by
  obtain ⟨hs, ht, -, -⟩ := hp
  obtain ⟨task, m₁, P⟩ := p
  cases task with
  | expression room e =>
    have hk := (I.keptBy rounds room).evaluate e m₁ hs ht
    exact ⟨hk.leaves, hk.results fun s a ha => by simpa using ha⟩
  | expressions room es =>
    have hk := (I.keptBy rounds room).evaluateAll hs ht
    exact ⟨hk.leaves, hk.results fun s vs hvs => hvs⟩
  | call room f vs =>
    have hk := (I.keptBy rounds room).invoke f vs m₁ hs ht.1 ht.2
    exact ⟨hk.leaves, hk.results fun s a ha => by simpa using ha⟩
  | statement room st =>
    have hk := (I.keptBy rounds room).execute st m₁ hs ht
    exact ⟨hk.leaves, hk.results value_of_completion⟩
  | statements room ss =>
    have hk := (I.keptBy rounds room).executeAll hs ht
    exact ⟨hk.leaves, hk.results value_of_completion⟩
  | loop room n condition body =>
    have hk := (I.keptBy rounds room).repeatWhile (n := n) hs ht.1 ht.2
    exact ⟨hk.leaves, hk.results value_of_completion⟩

end Invariant

namespace Point

variable {rounds : Nat} {p q : Point}

/-- What an evaluation comes to begins in a later store. -/
theorem later_reached (h : Relation.ReflTransGen (Enters rounds) p q) :
    p.machine.store.Later q.machine.store := by
  have hp : Invariant.anything.At p.machine p := by
    refine ⟨trivial, ?_, .refl _, rfl⟩
    cases p.task <;> simp [Invariant.task, Invariant.anything]
  exact (hp.reaches h).later

theorem Enters.later (h : p.Enters rounds q) : p.machine.store.Later q.machine.store :=
  later_reached (.single h)

/-- The scope inside which the task of a point opens a new one, if it does. -/
def opens? (p : Point) : Option ScopeId :=
  match p.task with
  | .statement _ (.block _) => some p.machine.scope
  | .call _ (.closure c) _ => some c.scope
  | _ => none

/-- An evaluation with a result ends in the scope in which it began. -/
theorem scope_evaluated {room : Nat} {e : Expr} {m m₁ : Machine} {v : Value}
    (h : Eval.evaluate rounds room e m = .ok v m₁) : m₁.scope = m.scope :=
  ((goesOn_evaluate rounds room m e).ok h).scope

theorem scope_executed {room : Nat} {st : Statement} {m m₁ : Machine} {c : Completion}
    (h : Eval.execute rounds room st m = .ok c m₁) : m₁.scope = m.scope :=
  ((goesOn_execute rounds room m st).ok h).scope

theorem scope_evaluatedAll {room : Nat} {es : List Expr} {m m₁ : Machine} {vs : List Value}
    (h : Eval.evaluateAll (Eval.evaluate rounds room) es m = .ok vs m₁) : m₁.scope = m.scope :=
  (Invariant.evaluatedAll (I := .anything) trivial (fun _ _ => trivial) h).1.scope

/-- A part begins in the scope of the whole, unless the task of that opens a new scope. -/
theorem Enters.scope (h : p.Enters rounds q) :
    p.opens? = none ∧ q.machine.scope = p.machine.scope ∨
      ∃ parent, p.opens? = some parent ∧ q.machine.scope = p.machine.store.size ∧
        (p.machine.store.fork parent).Later q.machine.store := by
  cases h with
  | functionBody hopen =>
    cases hopen
    exact .inr ⟨_, rfl, rfl, .frame_of_fork _ _ _ _⟩
  | blockBody => exact .inr ⟨_, rfl, rfl, .refl _⟩
  | binaryRight hl | logicalRight hl => exact .inl ⟨rfl, scope_evaluated hl⟩
  | ternaryBranch hc | arguments hc => exact .inl ⟨rfl, scope_evaluated hc⟩
  | call hc ha => exact .inl ⟨rfl, (scope_evaluatedAll ha).trans (scope_evaluated hc)⟩
  | nextExpressions he => exact .inl ⟨rfl, scope_evaluated he⟩
  | thenBranch hc | elseBranch hc | loopBody hc => exact .inl ⟨rfl, scope_evaluated hc⟩
  | nextRound hc _ hb => exact .inl ⟨rfl, (scope_executed hb).trans (scope_evaluated hc)⟩
  | nextStatements hs => exact .inl ⟨rfl, scope_executed hs⟩
  | _ => exact .inl ⟨rfl, rfl⟩

/-- The current scope is there at every point. -/
theorem Enters.scope_lt (h : p.Enters rounds q) (hp : p.machine.scope < p.machine.store.size) :
    q.machine.scope < q.machine.store.size := by
  rcases h.scope with ⟨-, hscope⟩ | ⟨parent, -, hscope, hlater⟩
  · rw [hscope]
    exact Nat.lt_of_lt_of_le hp h.later.size
  · rw [hscope]
    exact Nat.lt_of_lt_of_le (by simp) hlater.size

/-- A new scope was not there before, and its parent stays the scope that it was opened inside. -/
theorem Enters.fresh (h : p.Enters rounds q) {parent : ScopeId} (ho : p.opens? = some parent) :
    p.machine.store.scope? q.machine.scope = none ∧
      q.machine.store.parent? q.machine.scope = some parent := by
  rcases h.scope with ⟨hnone, -⟩ | ⟨parent', hsome, hscope, hlater⟩
  · rw [ho] at hnone
    cases hnone
  · rw [ho] at hsome
    cases hsome
    rw [hscope]
    refine ⟨p.machine.store.scope?_eq_none (Nat.le_refl _), ?_⟩
    rw [hlater.parents _ (by simp), Store.parent?_fork_self]

theorem scope_lt_of_reaches (h : Relation.ReflTransGen (Enters rounds) p q)
    (hp : p.machine.scope < p.machine.store.size) : q.machine.scope < q.machine.store.size := by
  induction h with
  | refl => exact hp
  | tail _ hstep ih => exact hstep.scope_lt ih

end Point

end Lox
