import Lox.Proofs.Scoping.Declarations

/-!
# Evaluation by hops is static scoping

The evaluation of a bound tree on the machine and under static scoping mirror each other. If the
machine may be exhausted, static scoping needs at least as much fuel as the machine has room, and as
many rounds for its loops. If static scoping may be, the machine needs three times as much room: a
step down the tree costs static scoping one, and the machine up to three. The proof goes by
induction on the fuel, and along lists and loops within it.
-/
namespace Lox.Scoping

open Binding (Names Table hops? readable marked declaring declaredIn withParameters FunctionBound)
open Lexical (Cell Env State Action)

variable {side : Side} {t : Table}

/-- An evaluation has like values on both sides and leaves the scopes before it alone. -/
def ValueMirrored (t : Table) (w : World) (m : Machine) (v : Value) (m' : Machine) (v' : Value)
    (s' : State) : Prop :=
  ∃ w', Continues t none w m w' m' s' ∧ Alike t w' v v'

/-- Statements that end in the same way. -/
inductive AlikeCompletion (t : Table) (w : World) : Completion → Completion → Prop where
  | normal : AlikeCompletion t w .normal .normal
  | returned {v v' : Value} (h : Alike t w v v') : AlikeCompletion t w (.returned v) (.returned v')

/-- Statements that end in the same way and leave the scopes before them alone. -/
def CompletionMirrored (t : Table) (w : World) (m : Machine) (c : Completion) (m' : Machine)
    (c' : Completion) (s' : State) : Prop :=
  ∃ w', Continues t none w m w' m' s' ∧ AlikeCompletion t w' c c'

/-- Statements of a block that end in the same way, with further names only in the block's scope. -/
def BlockMirrored (t : Table) (w : World) (m : Machine) (c : Completion) (m' : Machine)
    (c' : Completion) (s' : State) : Prop :=
  ∃ w', Continues t (some m.scope) w m w' m' s' ∧ AlikeCompletion t w' c c'

/-- A statement that ends in the same way, with the place behind it among these scopes, and inside
of something if it was so before. -/
def StatementMirrored (t : Table) (w : World) (m : Machine) (Γ : List Names) (inside : Bool)
    (c : Completion) (m' : Machine) (r : Completion × Env) (s' : State) : Prop :=
  ∃ w', Continues t (some m.scope) w m w' m' s' ∧ AlikeCompletion t w' c r.1 ∧
    (c = .normal → Linked w' Γ r.2 m.scope ∧ Frontier w' m.scope Γ ∧ r.2.inside = inside)

/-- The functions of the evaluator with this much room are mirrored with this much fuel. -/
structure Mirrored (side : Side) (t : Table) (rounds rounds' room fuel : Nat) : Prop where
  evaluate : ∀ (e : Expr) (Γ : List Names) (env : Env) (w : World) (m : Machine) (s : State),
    Agrees t w m s → Linked w Γ env m.scope → e.Bound t Γ →
    Mirrors side t w (Eval.evaluate rounds room e) (Lexical.evaluate rounds' fuel env e) m s
      (ValueMirrored t w m)
  invoke : ∀ (f f' : Function) (vs vs' : List Value) (w : World) (m : Machine) (s : State),
    Agrees t w m s → Alike t w (.function f) (.function f') → List.Forall₂ (Alike t w) vs vs' →
    vs.length = f.arity →
    Mirrors side t w (Eval.invoke rounds room f vs) (Lexical.invoke rounds' fuel f' vs') m s
      (ValueMirrored t w m)
  execute : ∀ (st : Statement) (Γ : List Names) (env : Env) (w : World) (m : Machine) (s : State),
    Agrees t w m s → Linked w Γ env m.scope → (st.isDeclaration = true → Placed Γ env) →
    Frontier w m.scope Γ → st.Bound t Γ →
    Mirrors side t w (Eval.execute rounds room st) (Lexical.execute rounds' fuel env st) m s
      (StatementMirrored t w m (st.scopesAfter Γ) env.inside)

/-- With this much fuel everything is mirrored, whatever room suffices for it. -/
def MirroredWith (side : Side) (t : Table) (rounds rounds' fuel : Nat) : Prop :=
  ∀ room, side.Suffices 3 0 room fuel → Mirrored side t rounds rounds' room fuel

section
variable {w : World} {m : Machine} {s : State} {Γ : List Names} {env : Env}

/-- A place goes along with a world. -/
theorem Continues.linked {own : Option Nat} {w' : World} {m' : Machine} {s' : State}
    (hc : Continues t own w m w' m' s') (h : Linked w Γ env m.scope) :
    Linked w' Γ env m'.scope := by
  rw [hc.scope]
  exact h.mono hc.later

theorem Continues.frontier {w' : World} {m' : Machine} {s' : State}
    (hc : Continues t none w m w' m' s') (hlink : Linked w Γ env m.scope)
    (h : Frontier w m.scope Γ) : Frontier w' m'.scope Γ := by
  rw [hc.scope]
  exact h.mono fun name => hc.frame m.scope name hlink.live (by simp)

/-- What is evaluated last gives the value of the whole. -/
theorem Continues.mirrors_value {w₁ : World} {m₁ : Machine} {s₁ : State} {act : Run Value}
    {act' : Action Value} (hc : Continues t none w m w₁ m₁ s₁)
    (h : Mirrors side t w₁ act act' m₁ s₁ (ValueMirrored t w₁ m₁)) :
    Mirrors side t w act act' m₁ s₁ (ValueMirrored t w m) :=
  (h.since hc.later).imp fun _ _ _ _ ⟨w₂, hc₂, hv⟩ => ⟨w₂, hc.trans hc₂, hv⟩

/-- What leaves all scopes before it alone comes back to its place. -/
theorem StatementMirrored.of_continues {w' : World} {m' : Machine} {s' : State}
    {c c' : Completion} (hc : Continues t none w m w' m' s') (hend : AlikeCompletion t w' c c')
    (hlink : Linked w Γ env m.scope) (hf : Frontier w m.scope Γ) :
    StatementMirrored t w m Γ env.inside c m' (c', env) s' := by
  refine ⟨w', hc.weaken, hend, fun _ => ?_⟩
  rw [← hc.scope]
  exact ⟨hc.linked hlink, hc.frontier hlink hf, rfl⟩

/-- The machine has no room where it may lack it. -/
theorem mirrors_stackExhausted {α γ : Type} {act' : Action γ}
    {Q : α → Machine → γ → State → Prop} {spare room limit' : Nat}
    (h : side.Suffices 3 spare room limit') (hlt : room < 3 * limit' + spare) :
    Mirrors side t w (Run.abort .stackExhausted) act' m s Q :=
  .of_exhausted (h.eq_machine hlt) rfl trivial

theorem mirrors_fail {α γ : Type} {Q : α → Machine → γ → State → Prop} (h : Agrees t w m s)
    (token : Token) (fault : RuntimeFault) :
    Mirrors side t w (Run.fail token fault) (Lexical.fail token fault) m s Q :=
  .of_error rfl rfl h (.refl w)

theorem mirrors_resultAt {r : Except RuntimeFault Value} (h : Agrees t w m s) (operator : Token)
    (hplain : ∀ v, r = .ok v → ∀ c, v ≠ .function (.closure c)) :
    Mirrors side t w (Eval.resultAt operator r) (Lexical.resultAt operator r) m s
      (ValueMirrored t w m) := by
  cases r with
  | error fault => exact mirrors_fail h operator fault
  | ok v => exact .result ⟨w, .refl h, .plain v (hplain v rfl)⟩

theorem mirrors_read {site : Site} {name : Token} (h : Agrees t w m s)
    (hlink : Linked w Γ env m.scope) (hsite : t.lookup site = hops? name.lexeme Γ) :
    Mirrors side t w (Run.lookUp site name) (Lexical.read env name) m s (ValueMirrored t w m) := by
  obtain ⟨id, hholder, halike, -⟩ := h.use hlink hsite
  rw [← h.store] at hholder halike
  cases hv : m.store.valueIn? id name.lexeme with
  | none =>
    rw [hv] at hholder halike
    have hnone : s.value? env name.lexeme = none := by
      simpa using halike.isSome_eq.symm
    have hfail : Run.lookUp site name m =
        .error (.error ⟨name, .undefinedVariable name.lexeme⟩) m := by
      simp only [Run.lookUp, hholder, Option.isSome_none]
      rfl
    exact .of_error hfail (by simp [Lexical.read, hnone]) h (.refl w)
  | some v =>
    rw [hv] at hholder halike
    obtain ⟨v', hv', halike'⟩ := halike.exists_of_some
    have hok : Run.lookUp site name m = .ok v m := by
      have hget : m.store.getIn id name.lexeme = .ok v := by rw [Store.getIn, hv]
      simp only [Run.lookUp, hholder, Option.isSome_some, if_true, bind, Except.bind, hget]
    exact .of_ok hok (by simp [Lexical.read, hv']) ⟨w, .refl h, halike'⟩

theorem mirrors_write {site : Site} {name : Token} {v v' : Value} (h : Agrees t w m s)
    (hlink : Linked w Γ env m.scope) (hsite : t.lookup site = hops? name.lexeme Γ)
    (hv : Alike t w v v') :
    Mirrors side t w (Run.assign site name v) (Lexical.write env name v') m s
      fun _ m' _ s' => ∃ w', Continues t none w m w' m' s' := by
  obtain ⟨id, hholder, halike, hput⟩ := h.use hlink hsite
  have hsame : (w.store.valueIn? id name.lexeme).isSome = (s.value? env name.lexeme).isSome :=
    halike.isSome_eq
  cases hsome : (w.store.valueIn? id name.lexeme).isSome with
  | false =>
    rw [hsome] at hholder hsame
    have hfail : Run.assign site name v m =
        .error (.error ⟨name, .undefinedVariable name.lexeme⟩) m := by
      simp only [Run.assign, hholder]
      rfl
    exact .of_error hfail (by simp [Lexical.write, ← hsame]) h (.refl w)
  | true =>
    rw [hsome] at hholder hsame
    have hok : Run.assign site name v m =
        .ok () { m with store := m.store.define id name.lexeme v } := by
      simp only [Run.assign, hholder, if_true]
    have hok' : Lexical.write env name v' s = .ok () (s.put env name.lexeme v') := by
      simp only [Lexical.write, ← hsame, if_true]
    exact .of_ok hok hok'
      ⟨_, hput v v' hv, World.later_define id name.lexeme v, rfl, rfl, fun _ _ _ _ => rfl⟩

theorem mirrors_callHost {h : HostFunction} {vs vs' : List Value} (ha : Agrees t w m s)
    (hvs : List.Forall₂ (Alike t w) vs vs') :
    Mirrors side t w (Run.callHost h vs) (Lexical.callHost h vs') m s (ValueMirrored t w m) := by
  obtain ⟨identity, name, arity, action⟩ := h
  cases action with
  | clock =>
    refine .of_ok rfl rfl ⟨w, ⟨ha.tick, .refl w, rfl, rfl, fun _ _ _ _ => rfl⟩, ?_⟩
    rw [ha.clock]
    exact .plain _ nofun
  | give argument =>
    cases argument with
    | none => exact .of_ok rfl rfl ⟨w, .refl ha, .plain .nil nofun⟩
    | some i =>
      have halike := alike_getElem? hvs i
      cases hv : vs[i]? with
      | none =>
        rw [hv] at halike
        have hnone : vs'[i]? = none := by simpa using halike.isSome_eq.symm
        have hfail : Run.callHost ⟨identity, name, arity, .give (some i)⟩ vs m =
            .error (.abort .missingArgument) m := by
          simp only [Run.callHost, hv]
        exact .of_error hfail (by simp only [Lexical.callHost, hnone]) ha (.refl w)
      | some v =>
        rw [hv] at halike
        obtain ⟨v', hv', halike'⟩ := halike.exists_of_some
        exact .of_ok (by simp only [Run.callHost, hv]) (by simp only [Lexical.callHost, hv'])
          ⟨w, .refl ha, halike'⟩

end

section
variable {rounds rounds' room fuel : Nat}

theorem mirrors_evaluateAll (hm : Mirrored side t rounds rounds' room fuel) {es : List Expr}
    {Γ : List Names} {env : Env} {w : World} {m : Machine} {s : State} (h : Agrees t w m s)
    (hlink : Linked w Γ env m.scope) (hb : Expr.AllBound t es Γ) :
    Mirrors side t w (Eval.evaluateAll (Eval.evaluate rounds room) es)
      (Lexical.evaluateAll (Lexical.evaluate rounds' fuel env) es) m s fun vs m' vs' s' =>
        ∃ w', Continues t none w m w' m' s' ∧ List.Forall₂ (Alike t w') vs vs' := by
  induction es generalizing w m s with
  | nil => exact .result ⟨w, .refl h, .nil⟩
  | cons e es ih =>
    apply (hm.evaluate e Γ env w m s h hlink hb.1).bind
    rintro v m₁ v' s₁ ⟨w₁, hc₁, hv⟩
    apply ((ih hc₁.agrees (hc₁.linked hlink) hb.2).since hc₁.later).bind
    rintro vs m₂ vs' s₂ ⟨w₂, hc₂, hvs⟩
    exact .result ⟨w₂, hc₁.trans hc₂, .cons (hv.mono hc₂.later) hvs⟩

theorem mirrors_executeAll (hm : Mirrored side t rounds rounds' room fuel) {ss : List Statement}
    {Γ : List Names} {env : Env} {w : World} {m : Machine} {s : State} (h : Agrees t w m s)
    (hlink : Linked w Γ env m.scope) (hp : Placed Γ env) (hf : Frontier w m.scope Γ)
    (hb : Statement.AllBound t ss Γ) :
    Mirrors side t w (Eval.executeAll (Eval.execute rounds room) ss)
      (Lexical.executeAll (Lexical.execute rounds' fuel) env ss) m s (BlockMirrored t w m) := by
  induction ss generalizing Γ env w m s with
  | nil => exact .result ⟨w, .refl h, .normal⟩
  | cons st ss ih =>
    apply (hm.execute st Γ env w m s h hlink (fun _ => hp) hf hb.1).bind
    rintro c m₁ ⟨c', env₁⟩ s₁ ⟨w₁, hc₁, hend, hnormal⟩
    cases hend with
    | returned hv => exact .result ⟨w₁, hc₁, .returned hv⟩
    | normal =>
      obtain ⟨hlink₁, hf₁, hinside⟩ := hnormal rfl
      rw [← hc₁.scope] at hlink₁ hf₁
      apply ((ih hc₁.agrees hlink₁ (hp.scopesAfter hinside st) hf₁ hb.2).since hc₁.later).imp
      rintro c m₂ c' s₂ ⟨w₂, hc₂, hend⟩
      rw [hc₁.scope] at hc₂
      exact ⟨w₂, hc₁.trans hc₂, hend⟩

/-- A loop comes back to its place after every round. -/
theorem mirrors_repeatWhile {Γ : List Names} {env : Env} {condition : Run Value}
    {body : Run Completion} {condition' : Action Value} {body' : Action (Completion × Env)}
    (hcondition : ∀ w m s, Agrees t w m s → Linked w Γ env m.scope →
      Mirrors side t w condition condition' m s (ValueMirrored t w m))
    (hbody : ∀ w m s, Agrees t w m s → Linked w Γ env m.scope → Frontier w m.scope Γ →
      Mirrors side t w body body' m s (StatementMirrored t w m Γ env.inside))
    {n n' : Nat} (hn : side.Suffices 1 0 n n') {w : World} {m : Machine} {s : State}
    (h : Agrees t w m s) (hlink : Linked w Γ env m.scope) (hf : Frontier w m.scope Γ) :
    Mirrors side t w (Eval.repeatWhile condition body n) (Lexical.repeatWhile condition' body' n')
      m s fun c m' c' s' => StatementMirrored t w m Γ env.inside c m' (c', env) s' := by
  induction n' generalizing n w m s with
  | zero =>
    cases side with
    | machine =>
      obtain rfl : n = 0 := Nat.le_zero.1 hn
      exact .of_exhausted rfl rfl trivial
    | static => exact .of_exhausted' rfl rfl trivial
  | succ n' ih =>
    cases n with
    | zero => exact .of_exhausted (hn.eq_machine (by omega)) rfl trivial
    | succ n =>
      apply (hcondition w m s h hlink).bind
      rintro v m₁ v' s₁ ⟨w₁, hc₁, hv⟩
      rw [hv.truthy]
      by_cases htrue : v'.truthy = true
      · simp only [htrue, if_true]
        apply ((hbody w₁ m₁ s₁ hc₁.agrees (hc₁.linked hlink) (hc₁.frontier hlink hf)).since
          hc₁.later).bind
        rintro c m₂ ⟨c', env₂⟩ s₂ ⟨w₂, hc₂, hend, hnormal⟩
        rw [hc₁.scope] at hc₂
        have hc := hc₁.weaken.trans hc₂
        cases hend with
        | returned hv => exact .result ⟨w₂, hc, .returned hv, nofun⟩
        | normal =>
          obtain ⟨-, hf₂, -⟩ := hnormal rfl
          rw [hc₁.scope, ← hc.scope] at hf₂
          apply ((ih (hn.step 1 (by decide)) hc₂.agrees (hc.linked hlink) hf₂).since hc.later).imp
          rintro c m₃ c' s₃ ⟨w₃, hc₃, hend⟩
          rw [hc.scope] at hc₃ hend
          exact ⟨w₃, hc.trans hc₃, hend⟩
      · simp only [htrue]
        exact .result (.of_continues hc₁ .normal hlink hf)

end

section
variable {rounds rounds' room fuel : Nat} {w : World} {m : Machine} {s : State}
  {Γ : List Names} {env : Env}

/-- A function is applied if it is given as many arguments as it takes. -/
theorem mirrors_apply (hm : Mirrored side t rounds rounds' room fuel) (h : Agrees t w m s)
    {f f' : Function} {vs vs' : List Value} (hf : Alike t w (.function f) (.function f'))
    (hvs : List.Forall₂ (Alike t w) vs vs') (paren : Token) :
    Mirrors side t w
      (if vs.length = f.arity then Run.guardStack paren (Eval.invoke rounds room f vs)
        else Run.fail paren (.wrongArity f.arity vs.length))
      (if vs'.length = f'.arity then Lexical.invoke rounds' fuel f' vs'
        else Lexical.fail paren (.wrongArity f'.arity vs'.length)) m s (ValueMirrored t w m) := by
  rw [← hvs.length_eq, ← hf.arity]
  by_cases hlen : vs.length = f.arity
  · rw [if_pos hlen, if_pos hlen]
    exact (hm.invoke f f' vs vs' w m s h hf hvs hlen).guardStack paren
  · rw [if_neg hlen, if_neg hlen]
    exact mirrors_fail h paren _

section
variable (ih : MirroredWith side t rounds rounds' fuel)
  (hroom : side.Suffices 3 0 (room + 1) (fuel + 1)) (h : Agrees t w m s)
  (hlink : Linked w Γ env m.scope)

include ih hroom h hlink

theorem mirrors_unary {operator : Token} {operand : Expr} (hb : operand.Bound t Γ) :
    Mirrors side t w (Eval.unary rounds room operator operand)
      (Lexical.evaluate rounds' (fuel + 1) env (.unary operator operand)) m s
      (ValueMirrored t w m) := by
  match room, hroom with
  | 0, hroom => exact mirrors_stackExhausted hroom (by omega)
  | room + 1, hroom =>
    have hm := ih room (hroom.step 2 (by decide))
    apply ((hm.evaluate operand Γ env w m s h hlink hb).guardStack operator).bind
    rintro v m₁ v' s₁ ⟨w₁, hc₁, hv⟩
    rw [hv.unaryResult]
    apply hc₁.mirrors_value
    exact mirrors_resultAt hc₁.agrees operator fun r hr => unaryResult_plain hr

theorem mirrors_binary {operator : Token} {left right : Expr} (hl : left.Bound t Γ)
    (hr : right.Bound t Γ) :
    Mirrors side t w (Eval.binary rounds room left operator right)
      (Lexical.evaluate rounds' (fuel + 1) env (.binary left operator right)) m s
      (ValueMirrored t w m) := by
  match room, hroom with
  | 0, hroom => exact mirrors_stackExhausted hroom (by omega)
  | room + 1, hroom =>
    have hm := ih room (hroom.step 2 (by decide))
    apply ((hm.evaluate left Γ env w m s h hlink hl).guardStack operator).bind
    rintro u m₁ u' s₁ ⟨w₁, hc₁, hu⟩
    refine (((hm.evaluate right Γ env w₁ m₁ s₁ hc₁.agrees (hc₁.linked hlink) hr).guardStack
      operator).since hc₁.later).bind fun v m₂ v' s₂ ⟨w₂, hc₂, hv⟩ => ?_
    rw [(hu.mono hc₂.later).binaryResult hv]
    apply (hc₁.trans hc₂).mirrors_value
    exact mirrors_resultAt hc₂.agrees operator fun r hr => binaryResult_plain hr

theorem mirrors_logical {operator : Token} {left right : Expr} (hl : left.Bound t Γ)
    (hr : right.Bound t Γ) :
    Mirrors side t w (Eval.logical rounds room left operator right)
      (Lexical.evaluate rounds' (fuel + 1) env (.logical left operator right)) m s
      (ValueMirrored t w m) := by
  match room, hroom with
  | 0, hroom => exact mirrors_stackExhausted hroom (by omega)
  | room + 1, hroom =>
    have hm := ih room (hroom.step 2 (by decide))
    apply (hm.evaluate left Γ env w m s h hlink hl).bind
    rintro u m₁ u' s₁ ⟨w₁, hc₁, hu⟩
    have hdecides : Eval.decides operator u = Eval.decides operator u' := by
      simp only [Eval.decides, hu.truthy]
    rw [hdecides]
    by_cases hd : Eval.decides operator u' = true
    · simp only [hd, if_true]
      exact .result ⟨w₁, hc₁, hu⟩
    · simp only [hd]
      apply hc₁.mirrors_value
      exact hm.evaluate right Γ env w₁ m₁ s₁ hc₁.agrees (hc₁.linked hlink) hr

theorem mirrors_assign {site : Site} {name : Token} {e : Expr} (he : e.Bound t Γ)
    (hsite : t.lookup site = hops? name.lexeme Γ) :
    Mirrors side t w (Eval.assign rounds room site name e)
      (Lexical.evaluate rounds' (fuel + 1) env (.assign site name e)) m s
      (ValueMirrored t w m) := by
  match room, hroom with
  | 0, hroom => exact mirrors_stackExhausted hroom (by omega)
  | room + 1, hroom =>
    have hm := ih room (hroom.step 2 (by decide))
    apply (hm.evaluate e Γ env w m s h hlink he).bind
    rintro v m₁ v' s₁ ⟨w₁, hc₁, hv⟩
    apply ((mirrors_write hc₁.agrees (hc₁.linked hlink) hsite hv).since hc₁.later).bind
    rintro _ m₂ _ s₂ ⟨w₂, hc₂⟩
    exact .result ⟨w₂, hc₁.trans hc₂, hv.mono hc₂.later⟩

theorem mirrors_call {callee : Expr} {paren : Token} {arguments : List Expr}
    (hcallee : callee.Bound t Γ) (ha : Expr.AllBound t arguments Γ) :
    Mirrors side t w (Eval.call rounds room callee paren arguments)
      (Lexical.evaluate rounds' (fuel + 1) env (.call callee paren arguments)) m s
      (ValueMirrored t w m) := by
  match room, hroom with
  | 0, hroom | 1, hroom => exact mirrors_stackExhausted hroom (by omega)
  | room + 2, hroom =>
    have hm := ih (room + 1) (hroom.step 2 (by decide))
    have hm' := ih room (hroom.step 3 (by decide))
    apply (hm.evaluate callee Γ env w m s h hlink hcallee).bind
    rintro v m₁ v' s₁ ⟨w₁, hc₁, hv⟩
    apply ((mirrors_evaluateAll hm' hc₁.agrees (hc₁.linked hlink) ha).since hc₁.later).bind
    rintro vs m₂ vs' s₂ ⟨w₂, hc₂, hvs⟩
    have happly (f f' : Function) (hf : Alike t w₂ (.function f) (.function f')) :=
      (hc₁.trans hc₂).mirrors_value (mirrors_apply hm hc₂.agrees hf hvs paren)
    have hv₂ := hv.mono hc₂.later
    cases hv₂ with
    | plain v hplain =>
      cases v with
      | function f => exact happly f f (.plain _ hplain)
      | _ => exact (mirrors_fail hc₂.agrees paren _).since (hc₁.trans hc₂).later
    | closure hcaptured hbound hlinked => exact happly _ _ (.closure hcaptured hbound hlinked)

end

/-- A function is made, and captures its scope and its environment. -/
theorem mirrors_close {name : Option String} {parameters : List Token} {body : List Statement}
    (h : Agrees t w m s) (hlink : Linked w Γ env m.scope)
    (hb : FunctionBound t parameters body Γ) :
    Mirrors side t w (Run.close name parameters body) (Lexical.close env name parameters body) m s
      (ValueMirrored t w m) := by
  have hl : w.Later { w with captured := w.captured.push env } := World.later_capture env
  refine .of_ok rfl rfl ⟨_, ⟨h.capture env, hl, rfl, rfl, fun _ _ _ _ => rfl⟩, ?_⟩
  rw [h.identity]
  refine .closure ?_ hb (hlink.mono hl)
  rw [h.captured]
  simp

/-- What is done in a new scope adds no name to the scopes before it. -/
theorem Continues.leave {w₁ w' : World} {m₁ m' : Machine} {s' : State} {inner : Nat}
    (h : Continues t (some inner) w₁ m₁ w' m' s') (hinner : w.store.size ≤ inner)
    (hl : w.Later w₁) (hp : w₁.pending = w.pending)
    (hframe : ∀ id name, id < w.store.size → w₁.links id name = w.links id name) :
    Continues t none w m w' { m' with scope := m.scope } s' where
  agrees := h.agrees.moved m.scope
  later := hl.trans h.later
  pending := h.pending.trans hp
  scope := rfl
  frame id name hid _ := by
    have hne : some id ≠ some inner := fun heq => by
      have hlt : id = inner := Option.some.inj heq
      omega
    exact (h.frame id name (Nat.lt_of_lt_of_le hid hl.size) hne).trans (hframe id name hid)

/-- What is done in a scope that is newer than those of `w`. -/
theorem mirrors_within {act : Run Completion} {act' : Action Completion} {w₁ : World}
    {m₁ : Machine} {inner : Nat}
    (h : Mirrors side t w₁ act act' { m₁ with scope := inner } s
      (BlockMirrored t w₁ { m₁ with scope := inner }))
    (hinner : w.store.size ≤ inner) (hl : w.Later w₁) (hp : w₁.pending = w.pending)
    (hscope : m₁.scope = m.scope)
    (hframe : ∀ id name, id < w.store.size → w₁.links id name = w.links id name) :
    Mirrors side t w (Run.within inner act) act' m₁ s
      (CompletionMirrored t w m) := by
  refine .within ((h.since hl).imp fun c m' c' s' ⟨w', hc, hend⟩ => ⟨w', ?_, hend⟩)
  rw [hscope]
  exact hc.leave hinner hl hp hframe

/-- What is done in a new scope. -/
theorem mirrors_forked {act : Run Completion} {act' : Action Completion} (h : Agrees t w m s)
    (hact : Mirrors side t { w with store := w.store.fork m.scope } act act'
      { m with store := m.store.fork m.scope, scope := w.store.size } s
      (BlockMirrored t { w with store := w.store.fork m.scope }
        { m with store := m.store.fork m.scope, scope := w.store.size })) :
    Mirrors side t w (do Run.within (← Run.fork (← Run.here)) act) act' m s
      (CompletionMirrored t w m) := by
  have hrun : Mirrors side t w (Run.within w.store.size act) act'
      { m with store := m.store.fork m.scope } s
      (CompletionMirrored t w m) :=
    mirrors_within hact (Nat.le_refl _) (World.later_fork m.scope) rfl rfl fun _ _ _ => rfl
  rw [← h.store] at hrun
  exact hrun.congr rfl rfl

theorem mirrors_blockStatement (ih : MirroredWith side t rounds rounds' fuel)
    (hroom : side.Suffices 3 0 (room + 1) (fuel + 1)) {ss : List Statement} (h : Agrees t w m s)
    (hlink : Linked w Γ env m.scope) (hb : Statement.AllBound t ss ([] :: Γ)) :
    Mirrors side t w (do Eval.block rounds room (← Run.fork (← Run.here)) ss)
      (Lexical.executeAll (Lexical.execute rounds' fuel) env.enter ss) m s
      (CompletionMirrored t w m) := by
  match room, hroom with
  | 0, hroom => exact .of_exhausted (hroom.eq_machine (by omega)) rfl trivial
  | room + 1, hroom =>
    exact mirrors_forked h (mirrors_executeAll (ih room (hroom.step 2 (by decide)))
      ((h.fork m.scope).moved _) hlink.enter rfl (frontier_enter h m.scope) hb)

theorem mirrors_invokeClosure (ih : MirroredWith side t rounds rounds' fuel)
    (hroom : side.Suffices 3 0 (room + 1) (fuel + 1)) {identity n sc : Nat}
    {name : Option String} {parameters : List Token} {body : List Statement}
    {vs vs' : List Value} (h : Agrees t w m s) (hcaptured : w.captured[n]? = some env)
    (hb : FunctionBound t parameters body Γ) (hlink : Linked w Γ env sc)
    (hvs : List.Forall₂ (Alike t w) vs vs') (hlen : vs.length = parameters.length) :
    Mirrors side t w
      (Eval.invoke rounds (room + 1) (.closure ⟨identity, name, parameters, body, sc⟩) vs)
      (Lexical.invoke rounds' (fuel + 1) (.closure ⟨identity, name, parameters, body, n⟩) vs') m s
      (ValueMirrored t w m) := by
  obtain ⟨hnodup, hbody⟩ := hb
  have hl₀ : w.Later { w with store := w.store.fork sc } := World.later_fork sc
  obtain ⟨w₁, env₁, s₁, hbind, hopen, hc₁, hlink₁, hplaced, hf₁⟩ :=
    openFrame_mirrored h hlink hvs hlen hnodup
  have hcapturedEnv :
      Lexical.environmentOf ⟨identity, name, parameters, body, n⟩ s = .ok env s := by
    simp [Lexical.environmentOf, h.captured, hcaptured]
  have hframe (id : ScopeId) (other : String) (hid : id < w.store.size) :
      w₁.links id other = w.links id other := by
    refine hc₁.frame id other ?_ fun heq => ?_
    · exact Nat.lt_of_lt_of_le hid hl₀.size
    · exact absurd (Option.some.inj heq) (Nat.ne_of_lt hid)
  have hrun : Mirrors side t w (Eval.block rounds room w.store.size body)
      (Lexical.executeAll (Lexical.execute rounds' fuel) env₁ body)
      { m with store := defineAll w.store.size (m.store.fork sc) (parameters.zip vs) } s₁
      (CompletionMirrored t w m) := by
    match room, hroom with
    | 0, hroom => exact mirrors_stackExhausted hroom (by omega)
    | room + 1, hroom =>
      have hm := ih room (hroom.step 2 (by decide))
      exact mirrors_within (mirrors_executeAll hm (hc₁.agrees.moved _) hlink₁ hplaced hf₁ hbody)
        (Nat.le_refl _) (hl₀.trans hc₁.later) hc₁.pending rfl hframe
  refine .ahead hcapturedEnv ?_
  refine Mirrors.congr ?_ (bind_of_ok hopen) (bind_of_ok hbind)
  apply hrun.bind
  rintro c m₂ c' s₂ ⟨w₂, hc₂, hend⟩
  cases hend with
  | normal => exact .result ⟨w₂, hc₂, .plain .nil nofun⟩
  | returned hv => exact .result ⟨w₂, hc₂, hv⟩

theorem mirrors_invoke (ih : MirroredWith side t rounds rounds' fuel)
    (hroom : side.Suffices 3 0 (room + 1) (fuel + 1)) {f f' : Function} {vs vs' : List Value}
    (h : Agrees t w m s) (hf : Alike t w (.function f) (.function f'))
    (hvs : List.Forall₂ (Alike t w) vs vs') (hlen : vs.length = f.arity) :
    Mirrors side t w (Eval.invoke rounds (room + 1) f vs)
      (Lexical.invoke rounds' (fuel + 1) f' vs') m s (ValueMirrored t w m) := by
  cases hf with
  | plain _ hplain =>
    cases f with
    | closure c => exact absurd rfl (hplain c)
    | host host => exact mirrors_callHost h hvs
  | closure hcaptured hbound hlinked =>
    exact mirrors_invokeClosure ih hroom h hcaptured hbound hlinked hvs hlen

theorem mirrors_evaluate (ih : MirroredWith side t rounds rounds' fuel)
    (hroom : side.Suffices 3 0 (room + 1) (fuel + 1)) (e : Expr) (h : Agrees t w m s)
    (hlink : Linked w Γ env m.scope) (hb : e.Bound t Γ) :
    Mirrors side t w (Eval.evaluate rounds (room + 1) e)
      (Lexical.evaluate rounds' (fuel + 1) env e) m s (ValueMirrored t w m) := by
  have hm := ih room (hroom.step 1 (by decide))
  cases e with
  | literal value => exact .result ⟨w, .refl h, .plain _ (by cases value <;> nofun)⟩
  | grouping inner => exact hm.evaluate inner Γ env w m s h hlink hb
  | unary operator operand => exact mirrors_unary ih hroom h hlink hb
  | binary left operator right => exact mirrors_binary ih hroom h hlink hb.1 hb.2
  | logical left operator right => exact mirrors_logical ih hroom h hlink hb.1 hb.2
  | ternary condition thenBranch elseBranch =>
    obtain ⟨hbc, hbt, hbe⟩ := hb
    apply (hm.evaluate condition Γ env w m s h hlink hbc).bind
    rintro v m₁ v' s₁ ⟨w₁, hc₁, hv⟩
    have hbranch (e : Expr) (hb : e.Bound t Γ) : Mirrors side t w (Eval.evaluate rounds room e)
        (Lexical.evaluate rounds' fuel env e) m₁ s₁ (ValueMirrored t w m) :=
      hc₁.mirrors_value (hm.evaluate e Γ env w₁ m₁ s₁ hc₁.agrees (hc₁.linked hlink) hb)
    rw [hv.truthy]
    split
    · exact hbranch thenBranch hbt
    · exact hbranch elseBranch hbe
  | access site name => exact mirrors_read h hlink hb.1
  | assign site name value => exact mirrors_assign ih hroom h hlink hb.1 hb.2
  | call callee paren arguments => exact mirrors_call ih hroom h hlink hb.1 hb.2
  | function keyword parameters body => exact mirrors_close h hlink hb

/-- A declaration ends alike if it began alike and its value is alike. -/
theorem mirrors_endDeclaration {name : String} {w₁ w₂ : World} {m₂ : Machine} {s₁ s₂ : State}
    {env₁ : Env} {v v' : Value} (hinside : env₁.inside = env.inside)
    (hb : Begun t w m m.scope name Γ w₁ env₁ s₁) (hc : Continues t none w₁ m w₂ m₂ s₂)
    (hv : Alike t { w₂ with store := w₂.store.define m.scope name v } v v') :
    Mirrors side t w (do Run.define name v; pure .normal)
      (do Lexical.fill env₁ name v'; pure (.normal, env₁)) m₂ s₂
      (StatementMirrored t w m (declaring name Γ) env.inside) := by
  obtain ⟨w₃, hc₃, hlink₃, hf₃⟩ := hb.settle hc hv
  rw [← hc.scope] at hc₃
  exact .of_ok rfl rfl
    ⟨w₃, by rwa [hc.scope] at hc₃ ⊢, .normal, fun _ => ⟨hlink₃, hf₃, hinside⟩⟩

theorem mirrors_var (h : Agrees t w m s) (hlink : Linked w Γ env m.scope) (hp : Placed Γ env)
    (hf : Frontier w m.scope Γ) {name : Token} (hnew : declaredIn name.lexeme Γ = false) :
    Mirrors side t w (Eval.execute rounds (room + 1) (.var name none))
      (Lexical.execute rounds' (fuel + 1) env (.var name none)) m s
      (StatementMirrored t w m (declaring name.lexeme Γ) env.inside) := by
  obtain ⟨w₁, env₁, s₁, hdeclare, hinside, hbegun⟩ := declare_begun h hlink hp hf hnew
  refine .ahead hdeclare ?_
  exact mirrors_endDeclaration hinside hbegun (.refl hbegun.agrees) (.plain .nil nofun)

/-- The name is pending while its initializer is evaluated. -/
theorem mirrors_varInitialized (hm : Mirrored side t rounds rounds' room fuel) (h : Agrees t w m s)
    (hlink : Linked w Γ env m.scope) (hp : Placed Γ env) (hf : Frontier w m.scope Γ)
    {name : Token} {e : Expr} (hnew : declaredIn name.lexeme Γ = false)
    (hb : e.Bound t (marked name.lexeme false Γ)) :
    Mirrors side t w (Eval.execute rounds (room + 1) (.var name (some e)))
      (Lexical.execute rounds' (fuel + 1) env (.var name (some e))) m s
      (StatementMirrored t w m (declaring name.lexeme Γ) env.inside) := by
  obtain ⟨w₁, env₁, s₁, hdeclare, hinside, hbegun⟩ := declare_begun h hlink hp hf hnew
  refine .ahead hdeclare ?_
  refine ((hm.evaluate e _ env₁ w₁ m s₁ hbegun.agrees hbegun.linked hb).since hbegun.later).bind
    fun v m₂ v' s₂ ⟨w₂, hc₂, hv⟩ => ?_
  exact mirrors_endDeclaration hinside hbegun hc₂ (hv.mono (World.later_define _ _ _))

/-- A function captures its own name, which is there as soon as the function is. -/
theorem mirrors_functionDeclaration (h : Agrees t w m s) (hlink : Linked w Γ env m.scope)
    (hp : Placed Γ env) (hf : Frontier w m.scope Γ) {name : Token} {parameters : List Token}
    {body : List Statement}
    (hnew : declaredIn name.lexeme Γ = false)
    (hb : FunctionBound t parameters body (declaring name.lexeme Γ)) :
    Mirrors side t w (Eval.execute rounds (room + 1) (.function name parameters body))
      (Lexical.execute rounds' (fuel + 1) env (.function name parameters body)) m s
      (StatementMirrored t w m (declaring name.lexeme Γ) env.inside) := by
  obtain ⟨w₁, env₁, s₁, hdeclare, hinside, hbegun⟩ := declare_begun h hlink hp hf hnew
  refine .ahead hdeclare ?_
  let w₂ : World := { w₁ with captured := w₁.captured.push env₁ }
  have hl : w₁.Later w₂ := World.later_capture env₁
  have hc : Continues t none w₁ m w₂ { m with nextIdentity := m.nextIdentity + 1 }
      { s₁ with captured := s₁.captured.push env₁, nextIdentity := s₁.nextIdentity + 1 } :=
    ⟨hbegun.agrees.capture env₁, hl, rfl, rfl, fun _ _ _ _ => rfl⟩
  let f : Value := .function (.closure ⟨m.nextIdentity, name.lexeme, parameters, body, m.scope⟩)
  have hlive : m.scope < w₂.store.size := hbegun.linked.live
  have hl' : w₂.Later { w₂ with store := w₂.store.define m.scope name.lexeme f } :=
    World.later_define _ _ _
  have hlink' := ((hbegun.linked.mono hl).mono hl').settle
    (by rw [Store.valueIn?_define_self _ hlive]; rfl)
  have halike : Alike t { w₂ with store := w₂.store.define m.scope name.lexeme f } f
      (.function (.closure ⟨m.nextIdentity, name.lexeme, parameters, body, s₁.captured.size⟩)) :=
    .closure (by rw [hbegun.agrees.captured]; simp [w₂]) hb hlink'
  rw [hbegun.agrees.identity] at halike
  exact (mirrors_endDeclaration hinside hbegun hc halike).congr rfl rfl

/-- A statement as a branch, behind the evaluation of its condition. -/
theorem mirrors_branch (hm : Mirrored side t rounds rounds' room fuel) {w₁ : World} {m₁ : Machine}
    {s₁ : State} (hc : Continues t none w m w₁ m₁ s₁) (hlink : Linked w Γ env m.scope)
    (hf : Frontier w m.scope Γ) {st : Statement} (hb : st.Bound t Γ)
    (hd : st.isDeclaration = false) :
    Mirrors side t w (Eval.execute rounds room st) (Lexical.execute rounds' fuel env st) m₁ s₁
      (StatementMirrored t w m Γ env.inside) := by
  apply ((hm.execute st Γ env w₁ m₁ s₁ hc.agrees (hc.linked hlink) (by simp [hd])
    (hc.frontier hlink hf) hb).since hc.later).imp
  rintro c m₂ r s₂ ⟨w₂, hc₂, hend, hnormal⟩
  rw [Statement.scopesAfter_of_not_declaration hd, hc.scope] at hnormal
  rw [hc.scope] at hc₂
  exact ⟨w₂, hc.weaken.trans hc₂, hend, hnormal⟩

theorem mirrors_ifElse (hm : Mirrored side t rounds rounds' room fuel) (h : Agrees t w m s)
    (hlink : Linked w Γ env m.scope) (hf : Frontier w m.scope Γ) {condition : Expr}
    {thenBranch : Statement} {elseBranch : Option Statement}
    (hb : (Statement.ifElse condition thenBranch elseBranch).Bound t Γ) :
    Mirrors side t w (Eval.execute rounds (room + 1) (.ifElse condition thenBranch elseBranch))
      (Lexical.execute rounds' (fuel + 1) env (.ifElse condition thenBranch elseBranch)) m s
      (StatementMirrored t w m Γ env.inside) := by
  have hcondition : condition.Bound t Γ := by
    cases elseBranch <;> exact hb.1
  have hthen : thenBranch.Bound t Γ ∧ thenBranch.isDeclaration = false := by
    cases elseBranch with
    | none => exact hb.2
    | some _ => exact ⟨hb.2.1, hb.2.2.1⟩
  apply (hm.evaluate condition Γ env w m s h hlink hcondition).bind
  rintro v m₁ v' s₁ ⟨w₁, hc₁, hv⟩
  rw [hv.truthy]
  split
  · exact mirrors_branch hm hc₁ hlink hf hthen.1 hthen.2
  · cases elseBranch with
    | some st => exact mirrors_branch hm hc₁ hlink hf hb.2.2.2.1 hb.2.2.2.2
    | none => exact .result (.of_continues hc₁ .normal hlink hf)

theorem mirrors_execute (hrounds : side.Suffices 1 0 rounds rounds')
    (ih : MirroredWith side t rounds rounds' fuel)
    (hroom : side.Suffices 3 0 (room + 1) (fuel + 1)) (st : Statement) (h : Agrees t w m s)
    (hlink : Linked w Γ env m.scope)
    (hp : st.isDeclaration = true → Placed Γ env) (hf : Frontier w m.scope Γ)
    (hb : st.Bound t Γ) :
    Mirrors side t w (Eval.execute rounds (room + 1) st)
      (Lexical.execute rounds' (fuel + 1) env st) m s
      (StatementMirrored t w m (st.scopesAfter Γ) env.inside) := by
  have hm := ih room (hroom.step 1 (by decide))
  cases st with
  | block ss =>
    apply (mirrors_blockStatement ih hroom h hlink hb).behind
    rintro c m₁ c' s₁ ⟨w₁, hc₁, hend⟩
    exact .of_continues hc₁ hend hlink hf
  | expression e =>
    apply (hm.evaluate e Γ env w m s h hlink hb).bind
    rintro v m₁ v' s₁ ⟨w₁, hc₁, hv⟩
    exact .result (.of_continues hc₁ .normal hlink hf)
  | function name parameters body =>
    exact mirrors_functionDeclaration h hlink (hp rfl) hf hb.1 hb.2
  | ifElse condition thenBranch elseBranch =>
    exact mirrors_ifElse hm h hlink hf hb
  | print e =>
    apply (hm.evaluate e Γ env w m s h hlink hb).bind
    rintro v m₁ v' s₁ ⟨w₁, hc₁, hv⟩
    rw [hv.display]
    have hprinted : Continues t none w₁ m₁ w₁ { m₁ with output := v'.display :: m₁.output } _ :=
      ⟨hc₁.agrees.print v'.display, .refl w₁, rfl, rfl, fun _ _ _ _ => rfl⟩
    exact .of_ok rfl rfl (.of_continues (hc₁.trans hprinted) .normal hlink hf)
  | «return» keyword value =>
    cases value with
    | none =>
      exact .result (.of_continues (.refl h) (.returned (.plain .nil nofun)) hlink hf)
    | some e =>
      apply (hm.evaluate e Γ env w m s h hlink hb).bind
      rintro v m₁ v' s₁ ⟨w₁, hc₁, hv⟩
      exact .result (.of_continues hc₁ (.returned hv) hlink hf)
  | var name initializer =>
    cases initializer with
    | none => exact mirrors_var h hlink (hp rfl) hf hb
    | some e => exact mirrors_varInitialized hm h hlink (hp rfl) hf hb.1 hb.2
  | «while» condition body =>
    obtain ⟨hbc, hbb, hd⟩ := hb
    have hbody (w : World) (m : Machine) (s : State) (h : Agrees t w m s)
        (hlink : Linked w Γ env m.scope) (hf : Frontier w m.scope Γ) :
        Mirrors side t w (Eval.execute rounds room body) (Lexical.execute rounds' fuel env body) m s
          (StatementMirrored t w m Γ env.inside) :=
      mirrors_branch hm (.refl h) hlink hf hbb hd
    exact (mirrors_repeatWhile (fun w m s h hlink => hm.evaluate condition Γ env w m s h hlink hbc)
      hbody hrounds h hlink hf).behind fun _ _ _ _ h => h

/-- Evaluation by hops is mirrored by static scoping. -/
theorem mirrored (hrounds : side.Suffices 1 0 rounds rounds')
    (hroom : side.Suffices 3 0 room fuel) : Mirrored side t rounds rounds' room fuel := by
  induction fuel generalizing room with
  | zero =>
    cases side with
    | machine =>
      obtain rfl : room = 0 := Nat.le_zero.1 hroom
      exact ⟨fun _ _ _ _ _ _ _ _ _ => .of_exhausted rfl rfl trivial,
        fun _ _ _ _ _ _ _ _ _ _ _ => .of_exhausted rfl rfl trivial,
        fun _ _ _ _ _ _ _ _ _ _ _ => .of_exhausted rfl rfl trivial⟩
    | static =>
      exact ⟨fun _ _ _ _ _ _ _ _ _ => .of_exhausted' rfl rfl trivial,
        fun _ _ _ _ _ _ _ _ _ _ _ => .of_exhausted' rfl rfl trivial,
        fun _ _ _ _ _ _ _ _ _ _ _ => .of_exhausted' rfl rfl trivial⟩
  | succ fuel ih =>
    have ih' : MirroredWith side t rounds rounds' fuel := fun _ hroom => ih hroom
    match room, hroom with
    | 0, hroom =>
      exact ⟨fun _ _ _ _ _ _ _ _ _ => mirrors_stackExhausted hroom (by omega),
        fun _ _ _ _ _ _ _ _ _ _ _ => mirrors_stackExhausted hroom (by omega),
        fun _ _ _ _ _ _ _ _ _ _ _ => mirrors_stackExhausted hroom (by omega)⟩
    | room + 1, hroom =>
      exact {
        evaluate := fun e _ _ _ _ _ h hlink hb => mirrors_evaluate ih' hroom e h hlink hb
        invoke := fun _ _ _ _ _ _ _ h hf hvs hlen => mirrors_invoke ih' hroom h hf hvs hlen
        execute := fun st _ _ _ _ _ h hlink hp hf hb =>
          mirrors_execute hrounds ih' hroom st h hlink hp hf hb }

end

end Lox.Scoping
