import Lox.Proofs.Scoping.BoundUses

/-!
# Loops with clauses

A `for` statement is read as a tree of blocks and a `while` loop. Under static scoping it has a
meaning of its own, without these blocks: the initializer is executed once, in an environment that
ends with the loop, and condition, body and increment are all at the place behind it. The tree and
this loop mirror each other, wherever the tree stands in a program.

The tree has a scope around the loop if there is an initializer, and in every round one more if
there is an increment. No name is ever declared in the latter, as the body of a loop is no
declaration. So it is one scope more to go outwards, and otherwise the place around it.
-/
namespace Lox

open Binding (Names Table)

/-- The body of a loop and, in a block with it, the increment. -/
def Statement.followedBy (body : Statement) : Option Expr → Statement
  | none => body
  | some e => .block [body, .expression e]

namespace Grammar

variable (condition increment : Option Expr) (body : Statement)

theorem forTree_none : forTree none condition increment body =
    .while (condition.getD (.literal (.bool true))) (body.followedBy increment) := by
  cases increment <;> rfl

theorem forTree_some (st : Statement) : forTree (some st) condition increment body =
    .block [st, forTree none condition increment body] :=
  rfl

end Grammar

namespace Lexical

section
variable (rounds fuel : Nat)

/-- The condition of a loop. Without one the loop goes on. -/
def forCondition (env : Env) : Option Expr → Action Value
  | none => pure (.bool true)
  | some e => evaluate rounds fuel env e

/-- A round of a loop. The increment is evaluated once if the body ended normally, and not at all if
the body returned. What the body declared is gone by then. -/
def forRound (env : Env) (increment : Option Expr) (body : Statement) : Action Completion := do
  match ← execute rounds fuel env body with
  | (.returned value, _) => pure (.returned value)
  | (.normal, _) =>
    match increment with
    | none => pure .normal
    | some e => do
      let _ ← evaluate rounds fuel env e
      pure .normal

/-- The rounds of a loop, all in the same environment. -/
def forRounds (env : Env) (condition increment : Option Expr) (body : Statement) :
    Action Completion :=
  repeatWhile (forCondition rounds fuel env condition)
    (do pure (← forRound rounds fuel env increment body, env)) rounds

/-- A `for` loop. What its initializer declares has one cell for all rounds, and is not there behind
the loop. -/
def forLoop (env : Env) (initializer : Option Statement) (condition increment : Option Expr)
    (body : Statement) : Action Completion :=
  match initializer with
  | none => forRounds rounds fuel env condition increment body
  | some st => do
    match ← execute rounds fuel env.enter st with
    | (.returned value, _) => pure (.returned value)
    | (.normal, env) => forRounds rounds fuel env condition increment body

end

end Lexical

namespace Run

/-- What is done in a new scope. -/
def inScope (act : Run Completion) : Run Completion := do
  within (← fork (← here)) act

/-- What is done next unless the first returned. -/
def followed (first next : Run Completion) : Run Completion := do
  match ← first with
  | .returned value => pure (.returned value)
  | .normal => next

/-- A round on the machine. With an increment it has a scope of its own. -/
def forRound (body : Run Completion) : Option (Run Value) → Run Completion
  | none => body
  | some increment => inScope (followed body (do let _ ← increment; pure .normal))

/-- A `for` loop on the machine. With an initializer it has a scope of its own. -/
def forLoop (initializer : Option (Run Completion)) (condition : Run Value)
    (round : Run Completion) (rounds : Nat) : Run Completion :=
  match initializer with
  | none => Eval.repeatWhile condition round rounds
  | some initializer => inScope (followed initializer (Eval.repeatWhile condition round rounds))

end Run

namespace Eval

/-- One statement is executed like a list of one. -/
theorem executeAll_singleton (execute : Statement → Run Completion) (st : Statement) :
    executeAll execute [st] = execute st := by
  rw [executeAll]
  conv_rhs => rw [← bind_pure (execute st)]
  congr 1
  funext c
  cases c <;> rfl

theorem executeAll_pair (execute : Statement → Run Completion) (first next : Statement) :
    executeAll execute [first, next] = Run.followed (execute first) (execute next) := by
  rw [executeAll, Run.followed]
  congr 1
  funext c
  cases c with
  | returned v => rfl
  | normal => exact executeAll_singleton execute next

variable (rounds : Nat) (initializer : Option Statement) (condition increment : Option Expr)
  (body : Statement)

/-- The body of the `while` loop is a round. -/
theorem execute_followedBy (room : Nat) : ∃ r₁ r₂, room ≤ r₁ ∧ room ≤ r₂ ∧
    execute rounds (room + 3) (body.followedBy increment) =
      Run.forRound (execute rounds r₁ body) (increment.map (evaluate rounds r₂)) := by
  cases increment with
  | none => exact ⟨room + 3, room, by omega, Nat.le_refl _, rfl⟩
  | some e =>
    refine ⟨room + 1, room, by omega, Nat.le_refl _, ?_⟩
    exact congrArg Run.inScope (executeAll_pair _ body (.expression e))

/-- A `while` loop over rounds is the loop without its initializer. -/
theorem execute_forTree_none (room : Nat) :
    ∃ r₁ r₂ r₃, room ≤ r₁ ∧ room ≤ r₂ ∧ room ≤ r₃ ∧
      execute rounds (room + 4) (Grammar.forTree none condition increment body) =
        repeatWhile (evaluate rounds r₁ (condition.getD (.literal (.bool true))))
          (Run.forRound (execute rounds r₂ body) (increment.map (evaluate rounds r₃))) rounds := by
  obtain ⟨r₂, r₃, h₂, h₃, hround⟩ := execute_followedBy rounds increment body room
  exact ⟨room + 3, r₂, r₃, by omega, h₂, h₃, by rw [Grammar.forTree_none, execute, hround]⟩

/-- The tree is the loop of the machine, for some room that its blocks leave to its parts. -/
theorem execute_forTree (room : Nat) :
    ∃ r₁ r₂ r₃ r₄, room ≤ r₁ ∧ room ≤ r₂ ∧ room ≤ r₃ ∧ room ≤ r₄ ∧
      execute rounds (room + 6) (Grammar.forTree initializer condition increment body) =
        Run.forLoop (initializer.map (execute rounds r₁))
          (evaluate rounds r₂ (condition.getD (.literal (.bool true))))
          (Run.forRound (execute rounds r₃ body) (increment.map (evaluate rounds r₄))) rounds := by
  cases initializer with
  | none =>
    obtain ⟨r₂, r₃, r₄, h₂, h₃, h₄, heq⟩ :=
      execute_forTree_none rounds condition increment body (room + 2)
    exact ⟨room, r₂, r₃, r₄, Nat.le_refl _, by omega, by omega, by omega, heq⟩
  | some st =>
    obtain ⟨r₂, r₃, r₄, h₂, h₃, h₄, heq⟩ :=
      execute_forTree_none rounds condition increment body room
    refine ⟨room + 4, r₂, r₃, r₄, by omega, h₂, h₃, h₄, ?_⟩
    rw [Grammar.forTree_some]
    exact congrArg Run.inScope ((executeAll_pair _ st _).trans (congrArg (Run.followed _) heq))

end Eval

namespace Scoping

open Grammar (forTree forTree_none forTree_some)
open Lexical (Env State Action)

variable {side : Side} {t : Table} {rounds rounds' room fuel : Nat} {w : World} {m : Machine}
  {s : State} {Γ : List Names} {env : Env}

/-- A place in a scope without names is seen from the same environment as the place around it. -/
theorem Linked.revisit {sc : ScopeId} (h : Linked w Γ env sc) :
    Linked { w with store := w.store.fork sc } ([] :: Γ) env w.store.size :=
  ⟨h.enter.live, h.enter.global, h.enter.bound, h.enter.free⟩

theorem mirrors_forCondition (hrounds : side.Suffices 1 0 rounds rounds')
    (hroom : side.Suffices 3 1 room fuel) {condition : Option Expr}
    (hb : (condition.getD (.literal (.bool true))).Bound t Γ) (h : Agrees t w m s)
    (hlink : Linked w Γ env m.scope) :
    Mirrors side t w (Eval.evaluate rounds room (condition.getD (.literal (.bool true))))
      (Lexical.forCondition rounds' fuel env condition) m s (ValueMirrored t w m) := by
  cases condition with
  | some e => exact (mirrored hrounds (hroom.forget 1)).evaluate e Γ env w m s h hlink hb
  | none =>
    match room, hroom with
    | 0, hroom => exact mirrors_stackExhausted hroom (by omega)
    | room + 1, _ => exact .result ⟨w, .refl h, .plain _ nofun⟩

section
variable {condition increment : Option Expr} {body : Statement}
  (hrounds : side.Suffices 1 0 rounds rounds') (hd : body.isDeclaration = false)

include hrounds hd

/-- The statements of a round that has a scope of its own. The increment is at the place of the
body, as the body has not declared anything in this scope. -/
theorem mirrors_bodyThenIncrement (hroom : side.Suffices 3 1 room fuel) {e : Expr}
    (hbb : body.Bound t Γ) (hbe : e.Bound t Γ) (h : Agrees t w m s) (hlink : Linked w Γ env m.scope)
    (hf : Frontier w m.scope Γ) :
    Mirrors side t w (Eval.executeAll (Eval.execute rounds room) [body, .expression e])
      (Lexical.forRound rounds' fuel env (some e) body) m s (BlockMirrored t w m) := by
  have hm : Mirrored side t rounds rounds' room fuel := mirrored hrounds (hroom.forget 1)
  apply (hm.execute body Γ env w m s h hlink (by simp [hd]) hf hbb).bind
  rintro c m₁ ⟨c', env₁⟩ s₁ ⟨w₁, hc₁, hend, -⟩
  cases hend with
  | returned hv => exact .result ⟨w₁, hc₁, .returned hv⟩
  | normal =>
    simp only [Eval.executeAll_singleton]
    match room, hroom with
    | 0, hroom => exact mirrors_stackExhausted hroom (by omega)
    | room + 1, hroom =>
      have hm' : Mirrored side t rounds rounds' room fuel := mirrored hrounds (hroom.spend 1)
      apply ((hm'.evaluate e Γ env w₁ m₁ s₁ hc₁.agrees (hc₁.linked hlink) hbe).since
        hc₁.later).bind
      rintro v m₂ v' s₂ ⟨w₂, hc₂, -⟩
      have hc₂' : Continues t (some m.scope) w₁ m₁ w₂ m₂ s₂ := hc₂.weaken
      exact .result ⟨w₂, hc₁.trans hc₂', .normal⟩

/-- The body of the `while` loop is a round, with or without a scope of its own. -/
theorem mirrors_forRound (hroom : side.Suffices 3 3 room fuel)
    (hb : (body.followedBy increment).Bound t Γ) (h : Agrees t w m s)
    (hlink : Linked w Γ env m.scope) (hf : Frontier w m.scope Γ) :
    Mirrors side t w (Eval.execute rounds room (body.followedBy increment))
      (do pure (← Lexical.forRound rounds' fuel env increment body, env)) m s
      (StatementMirrored t w m Γ env.inside) := by
  have hround : Mirrors side t w (Eval.execute rounds room (body.followedBy increment))
      (Lexical.forRound rounds' fuel env increment body) m s
      fun c m' c' s' => StatementMirrored t w m Γ env.inside c m' (c', env) s' := by
    cases increment with
    | none =>
      have hm : Mirrored side t rounds rounds' room fuel := mirrored hrounds (hroom.forget 3)
      rw [← bind_pure (Eval.execute rounds room (body.followedBy none))]
      apply (mirrors_branch hm (.refl h) hlink hf hb hd).bind
      rintro c m₁ ⟨c', env₁⟩ s₁ ⟨w₁, hc₁, hend, hnormal⟩
      cases hend with
      | returned hv => exact .result ⟨w₁, hc₁, .returned hv, nofun⟩
      | normal =>
        obtain ⟨-, hf₁, -⟩ := hnormal rfl
        exact .result ⟨w₁, hc₁, .normal, fun _ => ⟨hlink.mono hc₁.later, hf₁, rfl⟩⟩
    | some e =>
      obtain ⟨hbb, hbe, -⟩ := hb
      rw [Statement.scopesAfter_of_not_declaration hd] at hbe
      match room, hroom with
      | 0, hroom => exact mirrors_stackExhausted hroom (by omega)
      | 1, hroom => exact .of_exhausted (hroom.eq_machine (by omega)) rfl trivial
      | room + 2, hroom =>
        refine (mirrors_forked h (mirrors_bodyThenIncrement hrounds hd (hroom.spend 2) hbb hbe
          ((h.fork m.scope).moved _) hlink.revisit (frontier_enter h m.scope))).imp
          fun c m₁ c' s₁ ⟨w₁, hc₁, hend⟩ => ?_
        exact .of_continues hc₁ hend hlink hf
  exact hround.behind fun _ _ _ _ h => h

/-- The loop without its initializer. -/
theorem mirrors_forRounds (hroom : side.Suffices 3 4 room fuel)
    (hb : (forTree none condition increment body).Bound t Γ) (h : Agrees t w m s)
    (hlink : Linked w Γ env m.scope) (hf : Frontier w m.scope Γ) :
    Mirrors side t w (Eval.execute rounds room (forTree none condition increment body))
      (Lexical.forRounds rounds' fuel env condition increment body) m s
      fun c m' c' s' => StatementMirrored t w m Γ env.inside c m' (c', env) s' := by
  rw [forTree_none] at hb ⊢
  obtain ⟨hbc, hbr, -⟩ := hb
  match room, hroom with
  | 0, hroom => exact mirrors_stackExhausted hroom (by omega)
  | room + 1, hroom =>
    have hround : side.Suffices 3 3 room fuel := hroom.spend 1
    exact mirrors_repeatWhile
      (fun w m s h hlink => mirrors_forCondition hrounds (hround.forget 2) hbc h hlink)
      (fun w m s h hlink hf => mirrors_forRound hrounds hd hround hbr h hlink hf)
      hrounds h hlink hf

/-- The statements of the scope around a loop. -/
theorem mirrors_initializerThenRounds (hroom : side.Suffices 3 4 room fuel) {st : Statement}
    (hb : Statement.AllBound t [st, forTree none condition increment body] Γ)
    (h : Agrees t w m s) (hlink : Linked w Γ env.enter m.scope) (hp : Placed Γ env.enter)
    (hf : Frontier w m.scope Γ) :
    Mirrors side t w
      (Eval.executeAll (Eval.execute rounds room) [st, forTree none condition increment body])
      (Lexical.forLoop rounds' fuel env (some st) condition increment body) m s
      (BlockMirrored t w m) := by
  obtain ⟨hbi, hbl, -⟩ := hb
  have hm : Mirrored side t rounds rounds' room fuel := mirrored hrounds (hroom.forget 4)
  apply (hm.execute st Γ env.enter w m s h hlink (fun _ => hp) hf hbi).bind
  rintro c m₁ ⟨c', env₁⟩ s₁ ⟨w₁, hc₁, hend, hnormal⟩
  cases hend with
  | returned hv => exact .result ⟨w₁, hc₁, .returned hv⟩
  | normal =>
    obtain ⟨hlink₁, hf₁, -⟩ := hnormal rfl
    rw [← hc₁.scope] at hlink₁ hf₁
    simp only [Eval.executeAll_singleton]
    refine ((mirrors_forRounds hrounds hd hroom hbl hc₁.agrees hlink₁ hf₁).since hc₁.later).imp
      fun c m₂ c' s₂ ⟨w₂, hc₂, hend, _⟩ => ?_
    rw [hc₁.scope] at hc₂
    exact ⟨w₂, hc₁.trans hc₂, hend⟩

end

/-- A statement stands at a place that is seen from a machine and from an environment. -/
structure StatementLinked (t : Table) (st : Statement) (w : World) (m : Machine) (s : State)
    (Γ : List Names) (env : Env) : Prop where
  agrees : Agrees t w m s
  linked : Linked w Γ env m.scope
  frontier : Frontier w m.scope Γ
  bound : st.Bound t Γ

/-- Every statement of a program that is about to be executed stands at a place. -/
theorem Reached.statementLinked {limits : Limits} {source : String} {ss : List Statement}
    {hosts : List HostFunction} {clock : Clock} {st : Statement} {P : List (ScopeId × String)}
    (h : Resolves limits source ss)
    (hp : Reached limits ss hosts clock ⟨.statement room st, m, P⟩) :
    ∃ w s Γ env, StatementLinked (tableOf limits ss) st w m s Γ env := by
  obtain ⟨w, s, Γ, env, hp⟩ := Reached.linked h hp
  exact ⟨w, s, Γ, env, hp.agrees, hp.linked, hp.bound.2, hp.bound.1⟩

theorem mirrors_forTree (hrounds : side.Suffices 1 0 rounds rounds')
    (hroom : side.Suffices 3 6 room fuel) {initializer : Option Statement}
    {condition increment : Option Expr} {body : Statement} (hd : body.isDeclaration = false)
    (h : StatementLinked t (forTree initializer condition increment body) w m s Γ env) :
    Mirrors side t w (Eval.execute rounds room (forTree initializer condition increment body))
      (Lexical.forLoop rounds' fuel env initializer condition increment body) m s
      fun c m' c' s' => StatementMirrored t w m Γ env.inside c m' (c', env) s' := by
  obtain ⟨hagrees, hlink, hf, hb⟩ := h
  cases initializer with
  | none => exact mirrors_forRounds hrounds hd (hroom.forget 2) hb hagrees hlink hf
  | some st =>
    rw [forTree_some] at hb ⊢
    match room, hroom with
    | 0, hroom => exact mirrors_stackExhausted hroom (by omega)
    | 1, hroom => exact .of_exhausted (hroom.eq_machine (by omega)) rfl trivial
    | room + 2, hroom =>
      refine (mirrors_forked hagrees (mirrors_initializerThenRounds hrounds hd (hroom.spend 2) hb
        ((hagrees.fork m.scope).moved _) hlink.enter rfl (frontier_enter hagrees m.scope))).imp
        fun c m₁ c' s₁ ⟨w₁, hc₁, hend⟩ => ?_
      exact .of_continues hc₁ hend hlink hf

/-- What a `for` loop means. Wherever its tree stands, the tree on the machine and the loop under
static scoping end alike, with or without a result or with the same failure, in states that agree,
and behind both is the place before them. If one of them is not exhausted, neither is the other with
enough room or fuel; the tree needs some more, as its blocks take room that the loop has no use for.
Every `for` statement of a program that is about to be executed stands at such a place. And on the
machine the tree is a loop over its parts, so that any failure of a part ends it at once, an
exhausted stack as well. -/
theorem forTree_means_forLoop {initializer : Option Statement} {condition increment : Option Expr}
    {body : Statement} (hd : body.isDeclaration = false) :
    let tree := forTree initializer condition increment body
    (∀ side rounds rounds' room fuel t w m s Γ env, side.Suffices 1 0 rounds rounds' →
      side.Suffices 3 6 room fuel → StatementLinked t tree w m s Γ env →
      Mirrors side t w (Eval.execute rounds room tree)
        (Lexical.forLoop rounds' fuel env initializer condition increment body) m s
        fun c m' c' s' => StatementMirrored t w m Γ env.inside c m' (c', env) s') ∧
    (∀ limits source ss hosts clock room m P, Resolves limits source ss →
      Reached limits ss hosts clock ⟨.statement room tree, m, P⟩ →
      ∃ w s Γ env, StatementLinked (tableOf limits ss) tree w m s Γ env) ∧
    ∀ rounds room, ∃ r₁ r₂ r₃ r₄, room ≤ r₁ ∧ room ≤ r₂ ∧ room ≤ r₃ ∧ room ≤ r₄ ∧
      Eval.execute rounds (room + 6) tree =
        Run.forLoop (initializer.map (Eval.execute rounds r₁))
          (Eval.evaluate rounds r₂ (condition.getD (.literal (.bool true))))
          (Run.forRound (Eval.execute rounds r₃ body) (increment.map (Eval.evaluate rounds r₄)))
          rounds := by
  intro tree
  refine ⟨fun side rounds rounds' room fuel t w m s Γ env hrounds hroom h => ?_,
    fun limits source ss hosts clock room m P h hp => Reached.statementLinked h hp,
    fun rounds room => Eval.execute_forTree rounds initializer condition increment body room⟩
  exact mirrors_forTree hrounds hroom hd h

/-- A loop that prints its variable and then ends, by its increment. -/
def oneRound : String := "for(var go=true;go;go=false)print go;"

/-- What is made of the clauses of the loop and its body. -/
def ofOneRound {α : Type}
    (make : Option Statement → Option Expr → Option Expr → Statement → α) : α :=
  make (some (.var (nameToken "go") (some (.literal (.bool true)))))
    (some (.access 0 (nameToken "go")))
    (some (.assign 1 (nameToken "go") (.literal (.bool false))))
    (.print (.access 2 (nameToken "go")))

theorem resolves_oneRound : Resolves ⟨60, 2⟩ oneRound [ofOneRound forTree] := by
  have hscan : Token.scan oneRound =
      ⟨[⟨.for, "for", .nil, 1⟩, ⟨.leftParen, "(", .nil, 1⟩, ⟨.var, "var", .nil, 1⟩,
        nameToken "go", ⟨.equal, "=", .nil, 1⟩, ⟨.true, "true", .nil, 1⟩,
        ⟨.semicolon, ";", .nil, 1⟩, nameToken "go", ⟨.semicolon, ";", .nil, 1⟩, nameToken "go",
        ⟨.equal, "=", .nil, 1⟩, ⟨.false, "false", .nil, 1⟩, ⟨.rightParen, ")", .nil, 1⟩,
        ⟨.print, "print", .nil, 1⟩, nameToken "go", ⟨.semicolon, ";", .nil, 1⟩,
        ⟨.eof, "", .nil, 1⟩], []⟩ := by
    decide +kernel
  have hread : Code.ofSource? .program 60 0 oneRound =
      some ⟨.program [ofOneRound forTree], [], 3⟩ := by
    simp only [Code.ofSource?, Code.ofTokens?, hscan]
    rfl
  exact ⟨⟨3, hread⟩, by decide +kernel, by decide +kernel⟩

theorem forTree_means_forLoop_oneRound :
    let m := startMachine ⟨60, 2⟩ [ofOneRound forTree] [] 0
    Resolves ⟨60, 2⟩ oneRound [ofOneRound forTree] ∧
      Reached ⟨60, 2⟩ [ofOneRound forTree] [] 0 ⟨.statement 60 (ofOneRound forTree), m, []⟩ ∧
      ∃ w s Γ env, StatementLinked (tableOf ⟨60, 2⟩ [ofOneRound forTree]) (ofOneRound forTree)
          w m s Γ env ∧
        (Observation.ofRun State.seen (ofOneRound (Lexical.forLoop 2 60 env) s)).printed =
          ["true"] := by
  intro m
  have hreached : Reached ⟨60, 2⟩ [ofOneRound forTree] [] 0
      ⟨.statement 60 (ofOneRound forTree), m, []⟩ :=
    .single .firstStatement
  have hend : (Observation.ofRun Machine.seen
      (Eval.execute 2 60 (ofOneRound forTree) m)).exhausted = false := by
    decide +kernel
  have hprinted : (Observation.ofRun Machine.seen
      (Eval.execute 2 60 (ofOneRound forTree) m)).printed = ["true"] := by
    decide +kernel
  obtain ⟨hmeans, hstands, -⟩ := @forTree_means_forLoop
    (some (.var (nameToken "go") (some (.literal (.bool true)))))
    (some (.access 0 (nameToken "go")))
    (some (.assign 1 (nameToken "go") (.literal (.bool false))))
    (.print (.access 2 (nameToken "go"))) rfl
  obtain ⟨w, s, Γ, env, hplace⟩ := hstands _ _ _ _ _ _ _ _ resolves_oneRound hreached
  refine ⟨resolves_oneRound, hreached, w, s, Γ, env, hplace, ?_⟩
  rw [← hprinted]
  have hsame := (hmeans .machine 2 2 60 60 _ w m s Γ env (Nat.le_refl _) (Nat.le_refl _)
    hplace).ofRun (fun _ _ _ _ ⟨w', hc, _⟩ => ⟨w', hc.agrees⟩) hend
  exact congrArg Observation.printed hsame.symm

end Scoping
end Lox
