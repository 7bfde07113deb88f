import Lox.Eval
import Lox.Proofs.Ending
import Lox.Proofs.Evaluation.Stores
import Lox.Proofs.Syntax.Relabelling

/-!
# Evaluation under other labels

No evaluation depends on the lines of tokens, nor on sites as long as a use is looked up as before.
So a relabelled program on a relabelled machine does what the program does on the machine: its
results, its failures and the machine behind it are the old ones relabelled.
-/
namespace Lox

def Function.relabel (ρ : Relabelling) : Function → Function
  | .closure c => .closure { c with
      parameters := c.parameters.map (Token.relabel ρ)
      body := Statement.relabelAll ρ c.body }
  | .host h => .host h

def Value.relabel (ρ : Relabelling) : Value → Value
  | .function f => .function (f.relabel ρ)
  | v => v

def Completion.relabel (ρ : Relabelling) : Completion → Completion
  | .normal => .normal
  | .returned v => .returned (v.relabel ρ)

/-- The error at the relabelled token. -/
def RuntimeError.relabel (ρ : Relabelling) (e : RuntimeError) : RuntimeError :=
  { e with token := e.token.relabel ρ }

def Failure.relabel (ρ : Relabelling) : Failure → Failure
  | .error e => .error (e.relabel ρ)
  | .abort a => .abort a

/-- The machine with its functions relabelled, and with another table. -/
def Machine.relabel (ρ : Relabelling) (t : Binding.Table) (m : Machine) : Machine :=
  { m with store := m.store.map (Value.relabel ρ), table := t }

namespace Value

variable (ρ : Relabelling) (v w : Value)

@[simp] theorem arity_relabel (f : Function) : (f.relabel ρ).arity = f.arity := by
  cases f with
  | closure c => exact List.length_map _
  | host h => rfl

@[simp] theorem truthy_relabel : (v.relabel ρ).truthy = v.truthy := by cases v <;> rfl

@[simp] theorem display_relabel : (v.relabel ρ).display = v.display := by
  cases v with
  | function f => cases f <;> rfl
  | _ => rfl

@[simp] theorem typeName_relabel : (v.relabel ρ).typeName = v.typeName := by cases v <;> rfl

@[simp] theorem equal_relabel : (v.relabel ρ).equal (w.relabel ρ) = v.equal w := by
  cases v with
  | function f =>
    cases w with
    | function g => cases f <;> cases g <;> rfl
    | _ => rfl
  | _ => cases w <;> rfl

theorem relabel_literal (value : Literal) : (value.value).relabel ρ = value.value := by
  cases value <;> rfl

end Value

theorem unaryResult_relabel (ρ : Relabelling) (operator : Token) (v : Value) :
    Eval.unaryResult (operator.relabel ρ) (v.relabel ρ) =
      (Eval.unaryResult operator v).map (Value.relabel ρ) := by
  simp only [Eval.unaryResult, Token.kind_relabel, Token.lexeme_relabel, Value.truthy_relabel]
  split
  · cases v <;> rfl
  · rfl
  · rfl

theorem binaryResult_relabel (ρ : Relabelling) (operator : Token) (u v : Value) :
    Eval.binaryResult (operator.relabel ρ) (u.relabel ρ) (v.relabel ρ) =
      (Eval.binaryResult operator u v).map (Value.relabel ρ) := by
  have hplus : Eval.plusResult (u.relabel ρ) (v.relabel ρ) =
      (Eval.plusResult u v).map (Value.relabel ρ) := by
    cases u <;> cases v <;> rfl
  have hnumeric (x y : Float) : Eval.numericResult (operator.relabel ρ) x y =
      (Eval.numericResult operator x y).map (Value.relabel ρ) := by
    simp only [Eval.numericResult, Token.kind_relabel, Token.lexeme_relabel]
    split <;> first | rfl | (split <;> rfl)
  simp only [Eval.binaryResult, Token.kind_relabel, Token.lexeme_relabel, Value.equal_relabel,
    Value.typeName_relabel, hplus]
  split
  · rfl
  · rfl
  · rfl
  · cases u with
    | number x =>
      cases v with
      | number y => exact hnumeric x y
      | _ => rfl
    | _ => cases v <;> rfl

theorem Failure.guarded_relabel (ρ : Relabelling) (token : Token) (e : Failure) :
    (e.guarded token).relabel ρ = (e.relabel ρ).guarded (token.relabel ρ) := by
  cases e with
  | error e => rfl
  | abort a => cases a <;> rfl

section
variable {α β : Type} {ρ : Relabelling} {t t' : Binding.Table}

variable (ρ t t') in
/-- Where `act` leads on a machine with the table `t`, there `act'` leads on the relabelled machine
with the table `t'`. -/
def Follows (act : Run α) (act' : Run β) (f : α → β) : Prop :=
  ∀ m, m.table = t → Ends act m
    (fun a m₁ => m₁.table = t ∧ act' (m.relabel ρ t') = .ok (f a) (m₁.relabel ρ t'))
    fun e m₁ => m₁.table = t ∧ act' (m.relabel ρ t') = .error (e.relabel ρ) (m₁.relabel ρ t')

namespace Follows

variable {γ δ : Type} {act : Run α} {act' : Run β} {f : α → β}

theorem ok (h : Follows ρ t t' act act' f) {m m₁ : Machine} {a : α} (hm : m.table = t)
    (hact : act m = .ok a m₁) : act' (m.relabel ρ t') = .ok (f a) (m₁.relabel ρ t') :=
  ((h m hm).ok hact).2

theorem error (h : Follows ρ t t' act act' f) {m m₁ : Machine} {e : Failure} (hm : m.table = t)
    (hact : act m = .error e m₁) :
    act' (m.relabel ρ t') = .error (e.relabel ρ) (m₁.relabel ρ t') :=
  ((h m hm).error hact).2

theorem result {a : α} {b : β} (h : f a = b) : Follows ρ t t' (pure a) (pure b) f :=
  fun _ hm => ⟨hm, by rw [h]; rfl⟩

theorem abort (f : α → β) (a : Abort) : Follows ρ t t' (Run.abort a) (Run.abort a) f :=
  fun _ hm => ⟨hm, rfl⟩

theorem fail (f : α → β) (token : Token) (fault : RuntimeFault) :
    Follows ρ t t' (Run.fail token fault) (Run.fail (token.relabel ρ) fault) f :=
  fun _ hm => ⟨hm, rfl⟩

theorem bind {next : α → Run γ} {next' : β → Run δ} {g : γ → δ} (h : Follows ρ t t' act act' f)
    (hn : ∀ a, Follows ρ t t' (next a) (next' (f a)) g) :
    Follows ρ t t' (act >>= next) (act' >>= next') g := by
  intro m hm
  rw [ends_bind]
  refine (h m hm).imp (fun a m₁ ha => ?_) fun e m₁ he => ?_
  · refine (hn a m₁ ha.1).imp (fun c m₂ hc => ⟨hc.1, ?_⟩) fun e m₂ he => ⟨he.1, ?_⟩
    · simp only [Bind.bind, EStateM.bind, ha.2, hc.2]
    · simp only [Bind.bind, EStateM.bind, ha.2, he.2]
  · exact ⟨he.1, by simp only [Bind.bind, EStateM.bind, he.2]⟩

theorem guardStack (token : Token) (h : Follows ρ t t' act act' f) :
    Follows ρ t t' (Run.guardStack token act) (Run.guardStack (token.relabel ρ) act') f := by
  intro m hm
  cases hact : act m with
  | ok a m₁ =>
    obtain ⟨ht, heq⟩ := (h m hm).ok hact
    exact .of_ok (Run.guardStack_of_ok hact) ⟨ht, Run.guardStack_of_ok heq⟩
  | error e m₁ =>
    obtain ⟨ht, heq⟩ := (h m hm).error hact
    refine .of_error (Run.guardStack_of_error hact) ⟨ht, ?_⟩
    rw [Run.guardStack_of_error heq, Failure.guarded_relabel]

theorem within (scope : ScopeId) (h : Follows ρ t t' act act' f) :
    Follows ρ t t' (Run.within scope act) (Run.within scope act') f := by
  intro m hm
  have hin : ({ m.relabel ρ t' with scope := scope } : Machine) =
      ({ m with scope := scope } : Machine).relabel ρ t' := rfl
  cases hact : act { m with scope := scope } with
  | ok a m₁ =>
    obtain ⟨ht, heq⟩ := (h { m with scope := scope } hm).ok hact
    have hrun : Run.within scope act m = .ok a { m₁ with scope := m.scope } := by
      simp only [Run.within, hact]
    refine .of_ok hrun ⟨ht, ?_⟩
    simp only [Run.within, hin, heq]
    rfl
  | error e m₁ =>
    obtain ⟨ht, heq⟩ := (h { m with scope := scope } hm).error hact
    have hrun : Run.within scope act m = .error e { m₁ with scope := m.scope } := by
      simp only [Run.within, hact]
    refine .of_error hrun ⟨ht, ?_⟩
    simp only [Run.within, hin, heq]
    rfl

end Follows

/-- Every use is looked up in the one table as its other self is in the other. -/
def Matches (ρ : Relabelling) (t t' : Binding.Table) : Prop :=
  ∀ site, t'.lookup (ρ.site site) = t.lookup site

theorem Matches.holder (ht : Matches ρ t t') {m : Machine} (hm : m.table = t) (site : Site)
    (name : Token) :
    Run.holder (m.relabel ρ t') (ρ.site site) (name.relabel ρ) = Run.holder m site name := by
  have hlookup : (m.relabel ρ t').table.lookup (ρ.site site) = m.table.lookup site := by
    rw [hm]
    exact ht site
  rw [Run.holder, Run.holder, hlookup]
  cases m.table.lookup site with
  | none => exact Store.holder_map _ _ _ _
  | some hops => exact Store.holderAt_map _ _ _ _ _

theorem relabel_accessFailure (name : Token) (fault : AccessFault) :
    (Run.accessFailure name fault).relabel ρ = Run.accessFailure (name.relabel ρ) fault := by
  cases fault <;> rfl

theorem Matches.follows_lookUp (ht : Matches ρ t t') (site : Site) (name : Token) :
    Follows ρ t t' (Run.lookUp site name) (Run.lookUp (ρ.site site) (name.relabel ρ))
      (Value.relabel ρ) := by
  intro m hm
  have hvalue (id : ScopeId) : (m.relabel ρ t').store.getIn id (name.relabel ρ).lexeme =
      (m.store.getIn id name.lexeme).map (Value.relabel ρ) := by
    rw [Store.getIn, Store.getIn, Machine.relabel, Store.valueIn?_map, Token.lexeme_relabel]
    cases m.store.valueIn? id name.lexeme <;> rfl
  unfold Ends Run.lookUp
  rw [ht.holder hm]
  cases Run.holder m site name with
  | error fault => exact ⟨hm, by rw [relabel_accessFailure]; rfl⟩
  | ok id =>
    simp only [Bind.bind, Except.bind, hvalue]
    cases m.store.getIn id name.lexeme with
    | error fault => exact ⟨hm, by rw [relabel_accessFailure]; rfl⟩
    | ok v => exact ⟨hm, rfl⟩

theorem Matches.follows_assign (ht : Matches ρ t t') (site : Site) (name : Token) (v : Value) :
    Follows ρ t t' (Run.assign site name v)
      (Run.assign (ρ.site site) (name.relabel ρ) (v.relabel ρ)) id := by
  intro m hm
  unfold Ends Run.assign
  rw [ht.holder hm]
  cases Run.holder m site name with
  | error fault => exact ⟨hm, by rw [relabel_accessFailure]⟩
  | ok id => exact ⟨hm, by simp [Machine.relabel]⟩

theorem follows_define (name : String) (v : Value) :
    Follows ρ t t' (Run.define name v) (Run.define name (v.relabel ρ)) id := by
  intro m hm
  exact ⟨hm, by simp [Run.define, Machine.relabel]⟩

theorem follows_print (text : String) : Follows ρ t t' (Run.print text) (Run.print text) id :=
  fun _ hm => ⟨hm, rfl⟩

theorem follows_close (name : Option String) (parameters : List Token) (body : List Statement) :
    Follows ρ t t' (Run.close name parameters body)
      (Run.close name (parameters.map (Token.relabel ρ)) (Statement.relabelAll ρ body))
      (Value.relabel ρ) :=
  fun _ hm => ⟨hm, rfl⟩

theorem follows_fork :
    Follows ρ t t' (do Run.fork (← Run.here)) (do Run.fork (← Run.here)) id := by
  intro m hm
  exact ⟨hm, by
    simp [Run.fork, Run.here, Bind.bind, EStateM.bind, Machine.relabel]⟩

theorem follows_openFrame (parent : ScopeId) (parameters : List Token) (vs : List Value) :
    Follows ρ t t' (Run.openFrame parent parameters vs)
      (Run.openFrame parent (parameters.map (Token.relabel ρ)) (vs.map (Value.relabel ρ))) id := by
  intro m hm
  have hfold (frame : ScopeId) (pairs : List (Token × Value)) (s : Store Value) :
      (pairs.map (Prod.map (Token.relabel ρ) (Value.relabel ρ))).foldl
        (fun s pair => s.define frame pair.1.lexeme pair.2) (s.map (Value.relabel ρ)) =
      (pairs.foldl (fun s pair => s.define frame pair.1.lexeme pair.2) s).map
        (Value.relabel ρ) := by
    induction pairs generalizing s with
    | nil => rfl
    | cons pair pairs ih =>
      rw [List.map_cons, List.foldl_cons, List.foldl_cons, ← ih]
      simp
  exact ⟨hm, by simp [Run.openFrame, Machine.relabel, List.zip_map, hfold]⟩

theorem follows_callHost (h : HostFunction) (vs : List Value) :
    Follows ρ t t' (Run.callHost h vs) (Run.callHost h (vs.map (Value.relabel ρ)))
      (Value.relabel ρ) := by
  intro m hm
  obtain ⟨identity, name, arity, action⟩ := h
  match action with
  | .clock => exact ⟨hm, rfl⟩
  | .give none => exact ⟨hm, rfl⟩
  | .give (some i) =>
    unfold Ends Run.callHost
    simp only [List.getElem?_map]
    cases vs[i]? with
    | none => exact ⟨hm, rfl⟩
    | some v => exact ⟨hm, rfl⟩

theorem follows_resultAt (operator : Token) (r : Except RuntimeFault Value) :
    Follows ρ t t' (Eval.resultAt operator r)
      (Eval.resultAt (operator.relabel ρ) (r.map (Value.relabel ρ))) (Value.relabel ρ) := by
  cases r with
  | ok v => exact .result rfl
  | error fault => exact .fail _ operator fault

variable (ρ t t') in
/-- With some room, evaluation follows itself under other labels. -/
structure FollowedBy (rounds room : Nat) : Prop where
  evaluate : ∀ e, Follows ρ t t' (Eval.evaluate rounds room e)
    (Eval.evaluate rounds room (e.relabel ρ)) (Value.relabel ρ)
  invoke : ∀ f vs, Follows ρ t t' (Eval.invoke rounds room f vs)
    (Eval.invoke rounds room (f.relabel ρ) (vs.map (Value.relabel ρ))) (Value.relabel ρ)
  execute : ∀ s, Follows ρ t t' (Eval.execute rounds room s)
    (Eval.execute rounds room (s.relabel ρ)) (Completion.relabel ρ)

variable {rounds room : Nat}

namespace FollowedBy

theorem evaluateAll (hk : FollowedBy ρ t t' rounds room) (es : List Expr) :
    Follows ρ t t' (Eval.evaluateAll (Eval.evaluate rounds room) es)
      (Eval.evaluateAll (Eval.evaluate rounds room) (Expr.relabelAll ρ es))
      (List.map (Value.relabel ρ)) := by
  induction es with
  | nil => exact .result rfl
  | cons e es ih => exact (hk.evaluate e).bind fun v => ih.bind fun vs => .result rfl

theorem executeAll (hk : FollowedBy ρ t t' rounds room) (ss : List Statement) :
    Follows ρ t t' (Eval.executeAll (Eval.execute rounds room) ss)
      (Eval.executeAll (Eval.execute rounds room) (Statement.relabelAll ρ ss))
      (Completion.relabel ρ) := by
  induction ss with
  | nil => exact .result rfl
  | cons s ss ih =>
    refine (hk.execute s).bind fun completion => ?_
    cases completion with
    | normal => exact ih
    | returned v => exact .result rfl

theorem repeatWhile (hk : FollowedBy ρ t t' rounds room) (condition : Expr) (body : Statement)
    (n : Nat) :
    Follows ρ t t'
      (Eval.repeatWhile (Eval.evaluate rounds room condition) (Eval.execute rounds room body) n)
      (Eval.repeatWhile (Eval.evaluate rounds room (condition.relabel ρ))
        (Eval.execute rounds room (body.relabel ρ)) n) (Completion.relabel ρ) := by
  induction n with
  | zero => exact .abort _ _
  | succ n ih =>
    refine (hk.evaluate condition).bind fun v => ?_
    rw [Value.truthy_relabel]
    split
    · refine (hk.execute body).bind fun completion => ?_
      cases completion with
      | normal => exact ih
      | returned v => exact .result rfl
    · exact .result rfl

theorem block (hk : ∀ r < room, FollowedBy ρ t t' rounds r) (scope : ScopeId)
    (ss : List Statement) :
    Follows ρ t t' (Eval.block rounds room scope ss)
      (Eval.block rounds room scope (Statement.relabelAll ρ ss)) (Completion.relabel ρ) := by
  match room, hk with
  | 0, _ => exact .abort _ _
  | room + 1, hk => exact ((hk room (Nat.lt_succ_self _)).executeAll ss).within scope

theorem call (hk : ∀ r < room, FollowedBy ρ t t' rounds r) (callee : Expr) (paren : Token)
    (es : List Expr) :
    Follows ρ t t' (Eval.call rounds room callee paren es)
      (Eval.call rounds room (callee.relabel ρ) (paren.relabel ρ) (Expr.relabelAll ρ es))
      (Value.relabel ρ) := by
  match room, hk with
  | 0, _ => exact .abort _ _
  | 1, _ => exact .abort _ _
  | room + 2, hk =>
    refine ((hk (room + 1) (by omega)).evaluate callee).bind fun v => ?_
    refine ((hk room (by omega)).evaluateAll es).bind fun vs => ?_
    cases v with
    | function f =>
      simp only [Value.relabel, List.length_map, Value.arity_relabel]
      split
      · exact ((hk (room + 1) (by omega)).invoke f vs).guardStack paren
      · exact .fail _ paren _
    | _ => exact .fail _ paren _

theorem evaluate_of_below (hk : ∀ r < room, FollowedBy ρ t t' rounds r) (ht : Matches ρ t t')
    (e : Expr) : Follows ρ t t' (Eval.evaluate rounds room e)
      (Eval.evaluate rounds room (e.relabel ρ)) (Value.relabel ρ) := by
  match room, e, hk with
  | 0, _, _ => exact .abort _ _
  | _ + 1, .literal value, _ =>
    exact .result (Value.relabel_literal ρ value)
  | room + 1, .grouping e, hk => exact (hk room (Nat.lt_succ_self _)).evaluate e
  | 1, .unary _ _, _ => exact .abort _ _
  | room + 2, .unary operator e, hk =>
    refine (((hk room (by omega)).evaluate e).guardStack operator).bind fun v => ?_
    rw [unaryResult_relabel]
    exact follows_resultAt operator _
  | 1, .binary _ _ _, _ => exact .abort _ _
  | room + 2, .binary left operator right, hk =>
    have hk₀ := hk room (by omega)
    refine ((hk₀.evaluate left).guardStack operator).bind fun u => ?_
    refine ((hk₀.evaluate right).guardStack operator).bind fun v => ?_
    rw [binaryResult_relabel]
    exact follows_resultAt operator _
  | 1, .logical _ _ _, _ => exact .abort _ _
  | room + 2, .logical left operator right, hk =>
    have hk₀ := hk room (by omega)
    refine (hk₀.evaluate left).bind fun u => ?_
    have hdecides : Eval.decides (operator.relabel ρ) (u.relabel ρ) = Eval.decides operator u := by
      simp [Eval.decides]
    rw [hdecides]
    split
    · exact .result rfl
    · exact hk₀.evaluate right
  | room + 1, .ternary condition a b, hk =>
    have hk₀ := hk room (Nat.lt_succ_self _)
    refine (hk₀.evaluate condition).bind fun u => ?_
    rw [Value.truthy_relabel]
    split
    · exact hk₀.evaluate a
    · exact hk₀.evaluate b
  | _ + 1, .access site name, _ => exact ht.follows_lookUp site name
  | 1, .assign _ _ _, _ => exact .abort _ _
  | room + 2, .assign site name e, hk =>
    refine ((hk room (by omega)).evaluate e).bind fun v => ?_
    exact (ht.follows_assign site name v).bind fun _ => .result rfl
  | room + 1, .call callee paren es, hk => exact call (fun r hr => hk r (by omega)) callee paren es
  | _ + 1, .function _ parameters body, _ => exact follows_close none parameters body

theorem invoke_of_below (hk : ∀ r < room, FollowedBy ρ t t' rounds r) (f : Function)
    (vs : List Value) :
    Follows ρ t t' (Eval.invoke rounds room f vs)
      (Eval.invoke rounds room (f.relabel ρ) (vs.map (Value.relabel ρ))) (Value.relabel ρ) := by
  match room, f, hk with
  | 0, _, _ => exact .abort _ _
  | _ + 1, .host h, _ => exact follows_callHost h vs
  | room + 1, .closure c, hk =>
    refine (follows_openFrame c.scope c.parameters vs).bind fun frame => ?_
    refine (block (fun r hr => hk r (by omega)) frame c.body).bind fun completion => ?_
    cases completion with
    | normal => exact .result rfl
    | returned v => exact .result rfl

theorem execute_of_below (hk : ∀ r < room, FollowedBy ρ t t' rounds r) (s : Statement) :
    Follows ρ t t' (Eval.execute rounds room s) (Eval.execute rounds room (s.relabel ρ))
      (Completion.relabel ρ) := by
  match room, s, hk with
  | 0, _, _ => exact .abort _ _
  | room + 1, .block ss, hk =>
    have heq (ss : List Statement) : Eval.execute rounds (room + 1) (.block ss) =
        (do Run.fork (← Run.here)) >>= fun inner => Eval.block rounds room inner ss := by
      simp only [Eval.execute, bind_assoc]
    rw [Statement.relabel, heq, heq]
    exact follows_fork.bind fun inner => block (fun r hr => hk r (by omega)) inner ss
  | room + 1, .expression e, hk =>
    exact ((hk room (Nat.lt_succ_self _)).evaluate e).bind fun _ => .result rfl
  | _ + 1, .function name parameters body, _ =>
    refine (follows_close (some name.lexeme) parameters body).bind fun f => ?_
    exact (follows_define name.lexeme f).bind fun _ => .result rfl
  | room + 1, .ifElse condition a b, hk =>
    have hk₀ := hk room (Nat.lt_succ_self _)
    cases b with
    | none =>
      refine (hk₀.evaluate condition).bind fun u => ?_
      rw [Value.truthy_relabel]
      split
      · exact hk₀.execute a
      · exact .result rfl
    | some b =>
      refine (hk₀.evaluate condition).bind fun u => ?_
      rw [Value.truthy_relabel]
      split
      · exact hk₀.execute a
      · exact hk₀.execute b
  | room + 1, .print e, hk =>
    refine ((hk room (Nat.lt_succ_self _)).evaluate e).bind fun v => ?_
    rw [Value.display_relabel]
    exact (follows_print v.display).bind fun _ => .result rfl
  | _ + 1, .return _ none, _ => exact .result rfl
  | room + 1, .return _ (some e), hk =>
    exact ((hk room (Nat.lt_succ_self _)).evaluate e).bind fun v => .result rfl
  | _ + 1, .var name none, _ =>
    exact (follows_define name.lexeme .nil).bind fun _ => .result rfl
  | room + 1, .var name (some e), hk =>
    refine ((hk room (Nat.lt_succ_self _)).evaluate e).bind fun v => ?_
    exact (follows_define name.lexeme v).bind fun _ => .result rfl
  | room + 1, .while condition body, hk =>
    exact (hk room (Nat.lt_succ_self _)).repeatWhile condition body rounds

end FollowedBy

/-- Evaluation does not depend on labels. -/
theorem Matches.followedBy (ht : Matches ρ t t') (rounds room : Nat) :
    FollowedBy ρ t t' rounds room := by
  induction room using Nat.strongRecOn with
  | ind room ih =>
    exact {
      evaluate := fun e => FollowedBy.evaluate_of_below ih ht e
      invoke := fun f vs => FollowedBy.invoke_of_below ih f vs
      execute := fun s => FollowedBy.execute_of_below ih s }

end

end Lox
