import Lox.Proofs.Evaluation.Succession

/-!
# Functions are handed on as they are

A function that comes out of an evaluation without being made in it was in a variable, was an
argument that the host gave back, or came out of a part, and it is the very same function. The body
of a function begins with the arguments in its parameters.
-/
namespace Lox

namespace Store

variable {α : Type}

theorem valueIn?_foldl_define {s : Store α} {id : ScopeId} (hid : id < s.size)
    (pairs : List (Token × α)) (name : String) :
    (pairs.foldl (fun s pair => s.define id pair.1.lexeme pair.2) s).valueIn? id name =
      ((pairs.reverse.find? (·.1.lexeme = name)).map (·.2)).or (s.valueIn? id name) := by
  induction pairs generalizing s with
  | nil => rfl
  | cons pair pairs ih =>
    rw [List.foldl_cons, ih (by simpa using hid), List.reverse_cons, List.find?_append]
    by_cases h : pair.1.lexeme = name
    · subst h
      rw [valueIn?_define_self _ hid]
      cases pairs.reverse.find? (·.1.lexeme = pair.1.lexeme) <;> simp
    · rw [valueIn?_define_of_ne _ _ fun _ => h]
      simp [h]

/-- The scope of a call has for each parameter its argument, and of equal parameters the last. -/
theorem valueIn?_frame (s : Store α) (parent : ScopeId) (parameters : List Token)
    (arguments : List α) (name : String) :
    (s.frame parent parameters arguments).valueIn? s.size name =
      ((parameters.zip arguments).reverse.find? (·.1.lexeme = name)).map (·.2) := by
  have hnone : (s.fork parent).valueIn? s.size name = none := by
    rw [valueIn?_fork, valueIn?, s.scope?_eq_none (Nat.le_refl _)]
    rfl
  rw [frame, valueIn?_foldl_define (by simp), hnone, Option.or_none]

end Store

theorem Run.exists_of_within {α : Type} {act : Run α} {scope : ScopeId} {m m' : Machine} {a : α}
    (h : Run.within scope act m = .ok a m') : ∃ m₁, act { m with scope := scope } = .ok a m₁ := by
  unfold Run.within at h
  split at h
  · next m₁ hact =>
    cases h
    exact ⟨m₁, hact⟩
  · cases h

/-- The value of a variable, if there is one. -/
def Run.content? (m : Machine) (site : Site) (name : Token) : Option Value :=
  (Run.holder m site name).toOption.bind fun id => m.store.valueIn? id name.lexeme

/-- The argument that the host gives back, if it does. -/
def HostFunction.given? (h : HostFunction) (vs : List Value) : Option Value :=
  match h.action with
  | .give (some i) => vs[i]?
  | _ => none

namespace Point

open Eval (evaluate evaluateAll invoke execute executeAll repeatWhile)

/-- What comes out of the last part of an evaluation. -/
def lastResults (rounds : Nat) (p : Point) : List Value :=
  (p.parts rounds).getLast?.elim [] (results rounds)

/-- Where the functions that come out of an evaluation are taken from. -/
def source (rounds : Nat) (p : Point) : List Value :=
  match p.task with
  | .expression _ (.grouping _) => p.lastResults rounds
  | .expression _ (.logical ..) => p.lastResults rounds
  | .expression _ (.ternary ..) => p.lastResults rounds
  | .expression _ (.access site name) => (Run.content? p.machine site name).toList
  | .expression _ (.assign ..) => p.lastResults rounds
  | .expression _ (.call ..) => p.lastResults rounds
  | .expression _ (.function ..) => (p.made?.map fun c => .function (.closure c)).toList
  | .expression _ _ => []
  | .expressions _ _ => (p.parts rounds).flatMap (results rounds)
  | .call _ (.closure _) _ => p.lastResults rounds
  | .call _ (.host h) vs => (h.given? vs).toList
  | .statement _ (.block _) => p.lastResults rounds
  | .statement _ (.ifElse ..) => p.lastResults rounds
  | .statement _ (.return ..) => p.lastResults rounds
  | .statement _ (.while ..) => p.lastResults rounds
  | .statement _ _ => []
  | .statements _ _ => p.lastResults rounds
  | .loop .. => p.lastResults rounds

/-- The functions that come out of an action are those among some values. -/
def Draws {α : Type} (act : Run α) (m : Machine) (shows : α → List Value)
    (vs : List Value) : Prop :=
  Ends act m (fun a _ => ∀ f : Function, .function f ∈ shows a ↔ .function f ∈ vs) fun _ _ => True

namespace Draws

variable {α β : Type} {act : Run α} {next : α → Run β} {m : Machine} {shows : α → List Value}
  {shows' : β → List Value} {vs : List Value}

theorem same (act : Run α) (m : Machine) (shows : α → List Value) :
    Draws act m shows (act.results shows m) := by
  unfold Draws Ends Run.results
  cases act m with
  | ok a m' => exact fun _ => Iff.rfl
  | error f m' => trivial

theorem result {a : α} (h : ∀ f : Function, .function f ∈ shows a ↔ .function f ∈ vs) :
    Draws (pure a) m shows vs := h

theorem nothing {a : α} (ha : shows a = []) : Draws (pure a) m shows [] :=
  .result fun f => by rw [ha]

theorem bind (hn : ∀ a m', act m = .ok a m' → Draws (next a) m' shows' vs) :
    Draws (act >>= next) m shows' vs := by
  have hrun : Ends act m (fun a m' => act m = .ok a m') fun _ _ => True := by
    unfold Ends
    cases act m <;> trivial
  exact (ends_bind act next m _ _).2 (hrun.imp (fun a m' hact => hn a m' hact) fun _ _ h => h)

theorem guardStack (h : Draws act m shows vs) (token : Token) :
    Draws (Run.guardStack token act) m shows vs := by
  cases hact : act m with
  | ok a m' => exact Ends.of_ok (Run.guardStack_of_ok hact) (h.ok hact)
  | error f m' => exact Ends.of_error (Run.guardStack_of_error hact) trivial

theorem resultAt {operator : Token} {r : Except RuntimeFault Value}
    (hr : ∀ f, r ≠ .ok (.function f)) : Draws (Eval.resultAt operator r) m ([·]) [] := by
  cases r with
  | ok v =>
    refine .result fun f => ⟨fun h => ?_, nofun⟩
    obtain rfl := List.mem_singleton.1 h
    exact absurd rfl (hr f)
  | error fault => trivial

theorem of_ok {a : α} {m' : Machine} (hact : act m = .ok a m')
    (h : ∀ f : Function, .function f ∈ shows a ↔ .function f ∈ vs) : Draws act m shows vs :=
  Ends.of_ok hact h

theorem of_error {f : Failure} {m' : Machine} (hact : act m = .error f m') : Draws act m shows vs :=
  Ends.of_error hact trivial

theorem within {scope : ScopeId} (h : Draws act { m with scope := scope } shows vs) :
    Draws (Run.within scope act) m shows vs := by
  unfold Draws Ends Run.within at *
  cases hact : act { m with scope := scope } <;> simp_all

/-- What the last part has as its result. -/
theorem last {rounds : Nat} {p : Point} (us : List Point) (q : Point)
    (hparts : p.parts rounds = us ++ [q]) (h : Draws act m shows (q.results rounds)) :
    Draws act m shows (p.lastResults rounds) := by
  have hlast : p.lastResults rounds = q.results rounds := by simp [lastResults, hparts]
  rwa [hlast]

/-- What came out of an expression comes out again. -/
theorem evaluated {rounds room : Nat} {e : Expr} {m₀ m₁ : Machine} {v : Value}
    {P : List (ScopeId × String)} {a : α} (h : evaluate rounds room e m₀ = .ok v m₁)
    (ha : shows a = [v]) : Draws (pure a) m shows (results rounds ⟨.expression room e, m₀, P⟩) := by
  refine .result fun f => ?_
  simp only [results, Run.results, h, ha]

theorem executed {rounds room : Nat} {s : Statement} {m₀ m₁ : Machine} {r : Completion}
    {P : List (ScopeId × String)} (h : execute rounds room s m₀ = .ok r m₁) :
    Draws (pure r) m Completion.values (results rounds ⟨.statement room s, m₀, P⟩) := by
  refine .result fun f => ?_
  simp only [results, Run.results, h]

/-- The body of a call. -/
theorem executedAll {rounds room : Nat} {ss : List Statement} {m₀ m₁ : Machine} {r : Completion}
    {P : List (ScopeId × String)} {a : α} (h : executeAll (execute rounds room) ss m₀ = .ok r m₁)
    (ha : ∀ f : Function, .function f ∈ shows a ↔ .function f ∈ r.values) :
    Draws (pure a) m shows (results rounds ⟨.statements room ss, m₀, P⟩) := by
  refine .result fun f => ?_
  simp only [results, Run.results, h]
  exact ha f

/-- Something false is no function. -/
theorem of_not_truthy {rounds room : Nat} {e : Expr} {m₀ m₁ : Machine} {u : Value}
    {P : List (ScopeId × String)} {a : α} (h : evaluate rounds room e m₀ = .ok u m₁)
    (hu : u.truthy = false) (ha : shows a = []) :
    Draws (pure a) m shows (results rounds ⟨.expression room e, m₀, P⟩) := by
  refine .result fun f => ?_
  have hne : Value.function f ≠ u := by
    rintro rfl
    cases hu
  simp [results, Run.results, h, ha, hne]

end Draws

section
variable {rounds room : Nat} {m : Machine} {P : List (ScopeId × String)}

theorem draws_expression {e : Expr} :
    Draws (evaluate rounds room e) m ([·]) (source rounds ⟨.expression room e, m, P⟩) := by
  match room, e with
  | 0, _ => exact .of_error rfl
  | _ + 1, .literal v => exact .result fun f => by cases v <;> simp [source, Literal.value]
  | room + 1, .grouping e => exact .same (evaluate rounds room e) m _
  | 1, .unary _ _ => exact .of_error rfl
  | room + 2, .unary operator e => exact .bind fun u m₁ _ => .resultAt unaryResult_ne_function
  | 1, .binary _ _ _ => exact .of_error rfl
  | room + 2, .binary left operator right =>
    exact .bind fun u m₁ _ => .bind fun v m₂ _ => .resultAt binaryResult_ne_function
  | 1, .logical _ _ _ => exact .of_error rfl
  | room + 2, .logical left operator right =>
    refine .bind fun u m₁ hl => ?_
    cases hd : Eval.decides operator u with
    | true =>
      exact .last [] _ (by simp [parts, Run.after_of_ok hl, hd]; rfl) (.evaluated hl rfl)
    | false =>
      refine .last [⟨.expression room left, m, P⟩] ⟨.expression room right, m₁, P⟩
        (by simp [parts, Run.after_of_ok hl, hd]) ?_
      exact .same (evaluate rounds room right) m₁ _
  | room + 1, .ternary condition a b =>
    refine .bind fun u m₁ hc => ?_
    refine .last [⟨.expression room condition, m, P⟩]
      ⟨.expression room (if u.truthy then a else b), m₁, P⟩
      (by simp [parts, Run.after_of_ok hc]) ?_
    cases u.truthy with
    | true => exact .same (evaluate rounds room a) m₁ _
    | false => exact .same (evaluate rounds room b) m₁ _
  | room + 1, .access site name =>
    refine (Run.ends_lookUp m site name).run.imp (fun v m' ⟨hrun, _⟩ f => ?_) fun _ _ _ => trivial
    obtain ⟨-, id, hholder, hv⟩ := Run.lookUp_eq_ok_iff.1 hrun
    simp [source, Run.content?, hholder, hv, Except.toOption, eq_comm]
  | 1, .assign _ _ _ => exact .of_error rfl
  | room + 2, .assign site name e =>
    refine .bind fun v m₁ he => .bind fun _ m₂ _ => ?_
    exact .last [] ⟨.expression room e, m, P⟩ rfl (.evaluated he rfl)
  | 1, .call _ _ _ => exact .of_error rfl
  | 2, .call _ _ _ => exact .of_error rfl
  | room + 3, .call callee paren es =>
    refine .bind fun u m₁ hc => .bind fun vs m₂ ha => ?_
    cases u with
    | function g =>
      dsimp only
      split
      · next hlen =>
        refine .last [⟨.expression (room + 1) callee, m, P⟩, ⟨.expressions room es, m₁, P⟩]
          ⟨.call (room + 1) g vs, m₂, P⟩
          (by simp [parts, Run.after_of_ok hc, Run.after_of_ok ha, hlen]) ?_
        exact (Draws.same (invoke rounds (room + 1) g vs) m₂ _).guardStack paren
      · exact .of_error rfl
    | _ => exact .of_error rfl
  | room + 1, .function _ _ _ => exact .of_ok rfl fun f => by simp [source, made?]

theorem draws_expressions {es : List Expr} :
    Draws (evaluateAll (evaluate rounds room) es) m id
      (source rounds ⟨.expressions room es, m, P⟩) := by
  cases es with
  | nil => exact .result fun f => by simp [source, parts]
  | cons e es =>
    refine .bind fun v m₁ he => .bind fun vs m₂ hes => .result fun f => ?_
    simp [source, parts, Run.after_of_ok he, results, Run.results, he, hes]

theorem draws_callHost {h : HostFunction} {vs : List Value} :
    Draws (Run.callHost h vs) m ([·]) (h.given? vs).toList := by
  obtain ⟨identity, name, arity, action⟩ := h
  match action with
  | .clock => exact .of_ok rfl fun f => by simp [HostFunction.given?]
  | .give none => exact .of_ok rfl fun f => by simp [HostFunction.given?]
  | .give (some i) =>
    unfold Draws Ends Run.callHost
    cases hv : vs[i]? <;> simp [HostFunction.given?, hv, eq_comm]

theorem draws_call {g : Function} {vs : List Value} :
    Draws (invoke rounds room g vs) m ([·]) (source rounds ⟨.call room g vs, m, P⟩) := by
  match room, g with
  | 0, _ => exact .of_error rfl
  | room + 1, .host h => exact draws_callHost
  | 1, .closure c => exact .bind fun _ m₁ _ => .of_error rfl
  | room + 2, .closure c =>
    refine .bind fun frame m₁ hopen => .bind fun r m₂ hr => ?_
    cases hopen
    obtain ⟨m₃, hbody⟩ := Run.exists_of_within hr
    refine .last [] ⟨.statements room c.body, _, P⟩ rfl ?_
    cases r with
    | normal => exact .executedAll hbody (by simp [Completion.values])
    | returned v => exact .executedAll hbody fun _ => Iff.rfl

theorem draws_statement {s : Statement} :
    Draws (execute rounds room s) m Completion.values
      (source rounds ⟨.statement room s, m, P⟩) := by
  match room, s with
  | 0, _ => exact .of_error rfl
  | 1, .block ss => exact .of_error rfl
  | room + 2, .block ss =>
    let m₁ : Machine := { m with store := m.store.fork m.scope, scope := m.store.size }
    refine .last [] ⟨.statements room ss, m₁, P⟩ rfl ?_
    exact .within (Draws.same (executeAll (execute rounds room) ss) m₁ _)
  | room + 1, .expression e => exact .bind fun v m₁ _ => .nothing rfl
  | _ + 1, .function name parameters body =>
    exact .bind fun v m₁ _ => .bind fun _ m₂ _ => .nothing rfl
  | room + 1, .ifElse condition a b =>
    refine .bind fun u m₁ hc => ?_
    cases hu : u.truthy with
    | true =>
      refine .last [⟨.expression room condition, m, P⟩] ⟨.statement room a, m₁, P⟩
        (by simp [parts, Run.after_of_ok hc, hu]) ?_
      exact .same (execute rounds room a) m₁ _
    | false =>
      cases b with
      | none =>
        -- The last part is the condition. It is false, so that no function comes out of it.
        exact .last [] ⟨.expression room condition, m, P⟩ (by simp [parts, Run.after_of_ok hc, hu])
          (.of_not_truthy hc hu rfl)
      | some b =>
        refine .last [⟨.expression room condition, m, P⟩] ⟨.statement room b, m₁, P⟩
          (by simp [parts, Run.after_of_ok hc, hu]) ?_
        exact .same (execute rounds room b) m₁ _
  | room + 1, .print e => exact .bind fun v m₁ _ => .bind fun _ m₂ _ => .nothing rfl
  | _ + 1, .return _ none =>
    exact .result fun f => by simp [source, Completion.values, lastResults, parts]
  | room + 1, .return _ (some e) =>
    exact .bind fun v m₁ he => .last [] ⟨.expression room e, m, P⟩ rfl (.evaluated he rfl)
  | _ + 1, .var name none => exact .bind fun _ m₁ _ => .nothing rfl
  | room + 1, .var name (some e) => exact .bind fun v m₁ _ => .bind fun _ m₂ _ => .nothing rfl
  | room + 1, .while condition body =>
    refine .last [] ⟨.loop room rounds condition body, m, P⟩ rfl ?_
    exact .same (repeatWhile (evaluate rounds room condition) (execute rounds room body) rounds) m _

theorem draws_statements {ss : List Statement} :
    Draws (executeAll (execute rounds room) ss) m Completion.values
      (source rounds ⟨.statements room ss, m, P⟩) := by
  cases ss with
  | nil => exact .result fun f => by simp [source, lastResults, parts, Completion.values]
  | cons s ss =>
    refine .bind fun r m₁ hs => ?_
    cases r with
    | normal =>
      refine .last [⟨.statement room s, m, P⟩] ⟨.statements room ss, m₁, P⟩
        (by simp [parts, Run.after_of_ok hs]) ?_
      exact .same (executeAll (execute rounds room) ss) m₁ _
    | returned v =>
      refine .last [] ⟨.statement room s, m, P⟩ (by simp [parts, Run.after_of_ok hs]) ?_
      exact .executed hs

theorem draws_loop {n : Nat} {condition : Expr} {body : Statement} :
    Draws (repeatWhile (evaluate rounds room condition) (execute rounds room body) n) m
      Completion.values (source rounds ⟨.loop room n condition body, m, P⟩) := by
  cases n with
  | zero => exact .of_error rfl
  | succ n =>
    refine .bind fun u m₁ hc => ?_
    cases hu : u.truthy with
    | true =>
      refine .bind fun r m₂ hb => ?_
      cases r with
      | normal =>
        refine .last [⟨.expression room condition, m, P⟩, ⟨.statement room body, m₁, P⟩]
          ⟨.loop room n condition body, m₂, P⟩
          (by simp [parts, Run.after_of_ok hc, hu, Run.after_of_ok hb]) ?_
        exact .same (repeatWhile (evaluate rounds room condition) (execute rounds room body) n) m₂ _
      | returned v =>
        refine .last [⟨.expression room condition, m, P⟩] ⟨.statement room body, m₁, P⟩
          (by simp [parts, Run.after_of_ok hc, hu, Run.after_of_ok hb]) ?_
        exact .executed hb
    | false =>
      exact .last [] ⟨.expression room condition, m, P⟩ (by simp [parts, Run.after_of_ok hc, hu])
        (.of_not_truthy hc hu rfl)

end

theorem Draws.mem_results_iff {α : Type} {act : Run α} {m : Machine} {shows : α → List Value}
    {vs : List Value} (h : Draws act m shows vs) (hok : ∀ e, ¬ Fails act m e) (f : Function) :
    .function f ∈ act.results shows m ↔ .function f ∈ vs := by
  unfold Run.results
  cases hact : act m with
  | ok a m' => exact h.ok hact f
  | error e m' => exact absurd ⟨m', hact⟩ (hok e)

variable {rounds : Nat} {p q : Point}

/-- The body of a function begins with the arguments in its parameters. -/
theorem Enters.parameter (h : p.Enters rounds q) {room : Nat} {c : Closure} {vs : List Value}
    (hp : p.task = .call room (.closure c) vs) (name : String) :
    q.machine.store.valueIn? q.machine.scope name =
      ((c.parameters.zip vs).reverse.find? (·.1.lexeme = name)).map (·.2) := by
  cases h with
  | functionBody ho =>
    cases hp
    cases ho
    exact Store.valueIn?_frame _ _ _ _ _
  | _ => cases hp

/-- The functions that come out of an evaluation with a result are those at its source. -/
theorem mem_results_iff (hok : ∀ e, ¬ p.FailsAt rounds e) (f : Function) :
    .function f ∈ p.results rounds ↔ .function f ∈ p.source rounds := by
  obtain ⟨task, m, P⟩ := p
  cases task with
  | expression => exact draws_expression.mem_results_iff hok f
  | expressions => exact draws_expressions.mem_results_iff hok f
  | call => exact draws_call.mem_results_iff hok f
  | statement => exact draws_statement.mem_results_iff hok f
  | statements => exact draws_statements.mem_results_iff hok f
  | loop => exact draws_loop.mem_results_iff hok f

end Point
end Lox
