import Lox.Eval
import Lox.Proofs.Ending
import Lox.Proofs.Scoping.Chains

/-!
# What evaluation keeps

An evaluation only adds to a machine: scopes, names in them, printed texts. It ends in the scope in
which it began, with a result or with a failure. More is kept by an `Invariant`: something that is
said of stores, of the values in them, and of the code that is evaluated in a scope. If each single
access, definition and new scope keeps it, so does every evaluation.
-/
namespace Lox

/-- A store that was got from another by opening scopes and defining names. -/
structure Store.Later {α : Type} (s s' : Store α) : Prop where
  size : s.size ≤ s'.size
  parents : ∀ id, id < s.size → s'.parent? id = s.parent? id
  names : ∀ id name, (s.valueIn? id name).isSome → (s'.valueIn? id name).isSome

namespace Store.Later

variable {α : Type} {s s₁ s₂ : Store α}

theorem refl (s : Store α) : s.Later s := ⟨Nat.le_refl _, fun _ _ => rfl, fun _ _ h => h⟩

theorem trans (h : s.Later s₁) (h' : s₁.Later s₂) : s.Later s₂ where
  size := Nat.le_trans h.size h'.size
  parents id hid := (h'.parents id (Nat.lt_of_lt_of_le hid h.size)).trans (h.parents id hid)
  names id name hsome := h'.names id name (h.names id name hsome)

theorem fork (s : Store α) (parent : ScopeId) : s.Later (s.fork parent) where
  size := by simp
  parents _ hid := s.parent?_fork_of_lt parent hid
  names id name h := by simpa using h

theorem define (s : Store α) (id : ScopeId) (name : String) (value : α) :
    s.Later (s.define id name value) where
  size := by simp
  parents _ _ := by simp
  names _ _ h := s.isSome_valueIn?_define value h

end Store.Later

/-- The store with the scope of a call, in which each parameter with an argument has a value. -/
def Store.frame {α : Type} (s : Store α) (parent : ScopeId) (parameters : List Token)
    (arguments : List α) : Store α :=
  (parameters.zip arguments).foldl (fun store pair => store.define s.size pair.1.lexeme pair.2)
    (s.fork parent)

/-- Parameters change no scope but that of their call. -/
theorem Store.Later.frame_of_fork {α : Type} (s : Store α) (parent : ScopeId)
    (parameters : List Token) (arguments : List α) :
    (s.fork parent).Later (s.frame parent parameters arguments) := by
  have hfold (pairs : List (Token × α)) (store : Store α) (h : (s.fork parent).Later store) :
      (s.fork parent).Later
        (pairs.foldl (fun store pair => store.define s.size pair.1.lexeme pair.2) store) := by
    induction pairs generalizing store with
    | nil => exact h
    | cons pair pairs ih => exact ih _ (h.trans (.define _ _ _ _))
  exact hfold _ _ (.refl _)

theorem Store.Later.frame {α : Type} (s : Store α) (parent : ScopeId) (parameters : List Token)
    (arguments : List α) : s.Later (s.frame parent parameters arguments) :=
  (Store.Later.fork s parent).trans (.frame_of_fork s parent parameters arguments)

/-- What holds of the first store, and is kept when a function of the host is defined, holds at the
beginning. -/
theorem Machine.start_induction {P : Store Value → Prop} (hinitial : P Store.initial)
    (hdefine : ∀ s (h : HostFunction), P s → P (s.define Store.global h.name (.function (.host h))))
    (hosts : List HostFunction) (clock : Clock) : P (Machine.start hosts clock).store := by
  have hfold (s : Store Value) (hs : P s) : P (hosts.foldl
      (fun s h => s.define Store.global h.name (.function (.host h))) s) := by
    induction hosts generalizing s with
    | nil => exact hs
    | cons host hosts ih => exact ih _ (hdefine s host hs)
  exact hfold _ hinitial

/-- A machine that was got from another by evaluation, and is back in its scope. -/
structure Machine.Later (m m' : Machine) : Prop where
  store : m.store.Later m'.store
  scope : m'.scope = m.scope
  table : m'.table = m.table
  identity : m.nextIdentity ≤ m'.nextIdentity
  output : ∃ texts, m'.output = texts ++ m.output

namespace Machine.Later

variable {m m₁ m₂ : Machine}

theorem refl (m : Machine) : m.Later m := ⟨.refl _, rfl, rfl, Nat.le_refl _, [], rfl⟩

theorem trans (h : m.Later m₁) (h' : m₁.Later m₂) : m.Later m₂ where
  store := h.store.trans h'.store
  scope := h'.scope.trans h.scope
  table := h'.table.trans h.table
  identity := Nat.le_trans h.identity h'.identity
  output := by
    obtain ⟨us, hu⟩ := h.output
    obtain ⟨vs, hv⟩ := h'.output
    exact ⟨vs ++ us, by rw [hv, hu, List.append_assoc]⟩

theorem of_store {s : Store Value} (h : m.store.Later s) : m.Later { m with store := s } :=
  ⟨h, rfl, rfl, Nat.le_refl _, [], rfl⟩

/-- What is done in another scope leads to a later machine once the scope is left. -/
theorem within {sc : ScopeId} (h : ({ m with scope := sc } : Machine).Later m₁) :
    m.Later { m₁ with scope := m.scope } :=
  ⟨h.store, rfl, h.table, h.identity, h.output⟩

end Machine.Later

/-- An expression or a statement. -/
inductive Node where
  | expression (e : Expr)
  | statement (s : Statement)

/-- The direct parts of code, each with the number of scopes that are open in it in addition. -/
inductive Node.Part : Node → Nat → Node → Prop where
  | grouping {e} : Part (.expression (.grouping e)) 0 (.expression e)
  | operand {operator e} : Part (.expression (.unary operator e)) 0 (.expression e)
  | binaryLeft {l operator r} : Part (.expression (.binary l operator r)) 0 (.expression l)
  | binaryRight {l operator r} : Part (.expression (.binary l operator r)) 0 (.expression r)
  | logicalLeft {l operator r} : Part (.expression (.logical l operator r)) 0 (.expression l)
  | logicalRight {l operator r} : Part (.expression (.logical l operator r)) 0 (.expression r)
  | ternaryCondition {c a b} : Part (.expression (.ternary c a b)) 0 (.expression c)
  | ternaryThen {c a b} : Part (.expression (.ternary c a b)) 0 (.expression a)
  | ternaryElse {c a b} : Part (.expression (.ternary c a b)) 0 (.expression b)
  | assigned {site name e} : Part (.expression (.assign site name e)) 0 (.expression e)
  | callee {e paren es} : Part (.expression (.call e paren es)) 0 (.expression e)
  | argument {e paren es a} (h : a ∈ es) : Part (.expression (.call e paren es)) 0 (.expression a)
  | literalBody {keyword parameters body s} (h : s ∈ body) :
    Part (.expression (.function keyword parameters body)) 1 (.statement s)
  | blockBody {ss s} (h : s ∈ ss) : Part (.statement (.block ss)) 1 (.statement s)
  | value {e} : Part (.statement (.expression e)) 0 (.expression e)
  | functionBody {name parameters body s} (h : s ∈ body) :
    Part (.statement (.function name parameters body)) 1 (.statement s)
  | ifCondition {c a b} : Part (.statement (.ifElse c a b)) 0 (.expression c)
  | thenBranch {c a b} : Part (.statement (.ifElse c a b)) 0 (.statement a)
  | elseBranch {c a b} : Part (.statement (.ifElse c a (some b))) 0 (.statement b)
  | printed {e} : Part (.statement (.print e)) 0 (.expression e)
  | returned {keyword e} : Part (.statement (.return keyword (some e))) 0 (.expression e)
  | initializer {name e} : Part (.statement (.var name (some e))) 0 (.expression e)
  | loopCondition {c b} : Part (.statement (.while c b)) 0 (.expression c)
  | loopBody {c b} : Part (.statement (.while c b)) 0 (.statement b)

/-- The code that makes a function. -/
inductive Node.Makes : Node → List Token → List Statement → Prop where
  | literal {keyword parameters body} :
    Makes (.expression (.function keyword parameters body)) parameters body
  | declaration {name parameters body} :
    Makes (.statement (.function name parameters body)) parameters body

/-- No operator has a function as its value. -/
theorem unaryResult_ne_function {operator : Token} {v : Value} (f : Function) :
    Eval.unaryResult operator v ≠ .ok (.function f) := by
  unfold Eval.unaryResult
  repeat' split
  all_goals nofun

theorem binaryResult_ne_function {operator : Token} {u v : Value} (f : Function) :
    Eval.binaryResult operator u v ≠ .ok (.function f) := by
  unfold Eval.binaryResult Eval.plusResult Eval.numericResult
  repeat' split
  all_goals nofun

theorem unaryResult_plain {operator : Token} {v r : Value}
    (h : Eval.unaryResult operator v = .ok r) (c : Closure) : r ≠ .function (.closure c) := by
  rintro rfl
  exact unaryResult_ne_function _ h

theorem binaryResult_plain {operator : Token} {u v r : Value}
    (h : Eval.binaryResult operator u v = .ok r) (c : Closure) : r ≠ .function (.closure c) := by
  rintro rfl
  exact binaryResult_ne_function _ h

/-- Something that is said of stores, of values, and of code in a scope, and that single steps keep.
The laws say so of each step that reads or changes a store. -/
structure Invariant where
  store : Store Value → Prop
  value : Store Value → Value → Prop
  node : Store Value → ScopeId → Node → Prop
  value_later {s s' v} : s.Later s' → value s v → value s' v
  node_later {s s' id n} : s.Later s' → node s id n → node s' id n
  part {s id n n'} : node s id n → n.Part 0 n' → node s id n'
  plain {s v} : (∀ c, v ≠ .function (.closure c)) → value s v
  lookUp {m : Machine} {site name id v} : store m.store →
    node m.store m.scope (.expression (.access site name)) → Run.holder m site name = .ok id →
    m.store.valueIn? id name.lexeme = some v → value m.store v
  assign {m : Machine} {site name e id v} : store m.store →
    node m.store m.scope (.expression (.assign site name e)) → value m.store v →
    Run.holder m site name = .ok id → store (m.store.define id name.lexeme v)
  define {s id st name v} : store s → node s id (.statement st) → value s v →
    store (s.define id name v)
  close {s id n identity name parameters body} : store s → node s id n →
    n.Makes parameters body →
    value s (.function (.closure ⟨identity, name, parameters, body, id⟩))
  block {s id ss} : store s → node s id (.statement (.block ss)) →
    store (s.fork id) ∧ ∀ st ∈ ss, node (s.fork id) s.size (.statement st)
  frame {s c vs} : store s → value s (.function (.closure c)) → (∀ v ∈ vs, value s v) →
    store (s.frame c.scope c.parameters vs) ∧
      ∀ st ∈ c.body, node (s.frame c.scope c.parameters vs) s.size (.statement st)

namespace Invariant

variable {α β : Type} (I : Invariant)

/-- An action leads to a later machine and keeps the invariant. Of its result `Q` holds. -/
def Keeps (act : Run α) (m : Machine) (Q : Store Value → α → Prop) : Prop :=
  Ends act m (fun a m' => m.Later m' ∧ I.store m'.store ∧ Q m'.store a)
    fun _ m' => m.Later m' ∧ I.store m'.store

/-- What is said of the result of a statement. -/
def completion (s : Store Value) : Completion → Prop
  | .normal => True
  | .returned v => I.value s v

variable {I} {act : Run α} {m : Machine} {Q : Store Value → α → Prop} {R : Store Value → β → Prop}

namespace Keeps

theorem result {a : α} (hs : I.store m.store) (h : Q m.store a) : I.Keeps (pure a) m Q :=
  ⟨.refl m, hs, h⟩

theorem abort (hs : I.store m.store) (a : Abort) : I.Keeps (Run.abort a) m Q :=
  ⟨.refl m, hs⟩

theorem fail (hs : I.store m.store) (token : Token) (fault : RuntimeFault) :
    I.Keeps (Run.fail token fault) m Q :=
  ⟨.refl m, hs⟩

theorem bind {next : α → Run β} (h : I.Keeps act m Q)
    (hn : ∀ a m', m.Later m' → I.store m'.store → Q m'.store a → I.Keeps (next a) m' R) :
    I.Keeps (act >>= next) m R := by
  refine (ends_bind act next m _ _).2 (Ends.imp h (fun a m₁ ⟨hl, hs, ha⟩ => ?_) fun _ _ h => h)
  exact Ends.imp (hn a m₁ hl hs ha) (fun _ _ ⟨hl', h'⟩ => ⟨hl.trans hl', h'⟩)
    fun _ _ ⟨hl', h'⟩ => ⟨hl.trans hl', h'⟩

theorem ok {a : α} {m' : Machine} (h : I.Keeps act m Q) (hok : act m = .ok a m') :
    m.Later m' ∧ I.store m'.store ∧ Q m'.store a := by
  rwa [Keeps, Ends, hok] at h

theorem error {f : Failure} {m' : Machine} (h : I.Keeps act m Q) (herror : act m = .error f m') :
    m.Later m' ∧ I.store m'.store := by
  rwa [Keeps, Ends, herror] at h

theorem guardStack (token : Token) (h : I.Keeps act m Q) :
    I.Keeps (Run.guardStack token act) m Q := by
  cases hact : act m with
  | ok a m' => exact Ends.of_ok (Run.guardStack_of_ok hact) (h.ok hact)
  | error f m' => exact Ends.of_error (Run.guardStack_of_error hact) (h.error hact)

theorem within {sc : ScopeId} (h : I.Keeps act { m with scope := sc } Q) :
    I.Keeps (Run.within sc act) m Q := by
  unfold Keeps Ends at h ⊢
  unfold Run.within
  cases hact : act { m with scope := sc } with
  | ok a m' =>
    rw [hact] at h
    exact ⟨h.1.within, h.2⟩
  | error f m' =>
    rw [hact] at h
    exact ⟨h.1.within, h.2⟩

end Keeps

theorem keeps_lookUp {site : Site} {name : Token} (hs : I.store m.store)
    (hn : I.node m.store m.scope (.expression (.access site name))) :
    I.Keeps (Run.lookUp site name) m I.value := by
  cases hholder : Run.holder m site name with
  | error fault =>
    have heq : Run.lookUp site name m = .error (Run.accessFailure name fault) m := by
      simp only [Run.lookUp, hholder]
      rfl
    exact .of_error heq ⟨.refl m, hs⟩
  | ok id =>
    cases hv : m.store.valueIn? id name.lexeme with
    | none =>
      have heq : Run.lookUp site name m = .error (Run.accessFailure name .undefined) m := by
        simp only [Run.lookUp, hholder, bind, Except.bind, Store.getIn, hv]
      exact .of_error heq ⟨.refl m, hs⟩
    | some v =>
      have heq : Run.lookUp site name m = .ok v m := by
        simp only [Run.lookUp, hholder, bind, Except.bind, Store.getIn, hv]
      exact .of_ok heq ⟨.refl m, hs, I.lookUp hs hn hholder hv⟩

theorem keeps_assign {site : Site} {name : Token} {e : Expr} {v : Value} (hs : I.store m.store)
    (hn : I.node m.store m.scope (.expression (.assign site name e))) (hv : I.value m.store v) :
    I.Keeps (Run.assign site name v) m fun s _ => I.value s v := by
  cases hholder : Run.holder m site name with
  | error fault =>
    have heq : Run.assign site name v m = .error (Run.accessFailure name fault) m := by
      simp only [Run.assign, hholder]
    exact .of_error heq ⟨.refl m, hs⟩
  | ok id =>
    have heq : Run.assign site name v m =
        .ok () { m with store := m.store.define id name.lexeme v } := by
      simp only [Run.assign, hholder]
    have hl := Store.Later.define m.store id name.lexeme v
    exact .of_ok heq ⟨.of_store hl, I.assign hs hn hv hholder, I.value_later hl hv⟩

theorem keeps_define {st : Statement} {name : String} {v : Value} (hs : I.store m.store)
    (hn : I.node m.store m.scope (.statement st)) (hv : I.value m.store v) :
    I.Keeps (Run.define name v) m fun _ _ => True :=
  ⟨.of_store (.define _ _ _ _), I.define hs hn hv, trivial⟩

theorem keeps_print (hs : I.store m.store) (text : String) :
    I.Keeps (Run.print text) m fun _ _ => True :=
  ⟨⟨.refl _, rfl, rfl, Nat.le_refl _, [text], rfl⟩, hs, trivial⟩

theorem keeps_close {n : Node} {name : Option String} {parameters : List Token}
    {body : List Statement} (hs : I.store m.store) (hn : I.node m.store m.scope n)
    (hmakes : n.Makes parameters body) : I.Keeps (Run.close name parameters body) m I.value :=
  ⟨⟨.refl _, rfl, rfl, Nat.le_succ _, [], rfl⟩, hs, I.close hs hn hmakes⟩

theorem keeps_callHost {h : HostFunction} {vs : List Value} (hs : I.store m.store)
    (hvs : ∀ v ∈ vs, I.value m.store v) : I.Keeps (Run.callHost h vs) m I.value := by
  obtain ⟨identity, name, arity, action⟩ := h
  match action with
  | .clock => exact ⟨⟨.refl _, rfl, rfl, Nat.le_refl _, [], rfl⟩, hs, I.plain nofun⟩
  | .give none => exact .result hs (I.plain nofun)
  | .give (some i) =>
    cases hv : vs[i]? with
    | none =>
      have heq : Run.callHost ⟨identity, name, arity, .give (some i)⟩ vs m =
          .error (.abort .missingArgument) m := by
        simp only [Run.callHost, hv]
      exact .of_error heq ⟨.refl m, hs⟩
    | some v =>
      have heq : Run.callHost ⟨identity, name, arity, .give (some i)⟩ vs m = .ok v m := by
        simp only [Run.callHost, hv]
      exact .of_ok heq ⟨.refl m, hs, hvs v (List.mem_of_getElem? hv)⟩

theorem keeps_resultAt {operator : Token} {r : Except RuntimeFault Value} (hs : I.store m.store)
    (hr : ∀ v, r = .ok v → ∀ c, v ≠ .function (.closure c)) :
    I.Keeps (Eval.resultAt operator r) m I.value := by
  cases r with
  | ok v => exact .result hs (I.plain (hr v rfl))
  | error fault => exact .fail hs operator fault

variable (I) in
/-- With some room, evaluation keeps an invariant. -/
structure KeptBy (rounds room : Nat) : Prop where
  evaluate : ∀ e m, I.store m.store → I.node m.store m.scope (.expression e) →
    I.Keeps (Eval.evaluate rounds room e) m I.value
  invoke : ∀ f vs m, I.store m.store → I.value m.store (.function f) →
    (∀ v ∈ vs, I.value m.store v) → I.Keeps (Eval.invoke rounds room f vs) m I.value
  execute : ∀ st m, I.store m.store → I.node m.store m.scope (.statement st) →
    I.Keeps (Eval.execute rounds room st) m I.completion

/-- Code is kept by later machines. -/
theorem node_of_later {m' : Machine} {n : Node} (h : I.node m.store m.scope n)
    (hl : m.Later m') : I.node m'.store m'.scope n :=
  hl.scope ▸ I.node_later hl.store h

section
variable {rounds room : Nat}

theorem KeptBy.evaluateAll (hk : I.KeptBy rounds room) {es : List Expr} (hs : I.store m.store)
    (hn : ∀ e ∈ es, I.node m.store m.scope (.expression e)) :
    I.Keeps (Eval.evaluateAll (Eval.evaluate rounds room) es) m
      fun s vs => ∀ v ∈ vs, I.value s v := by
  induction es generalizing m with
  | nil => exact .result hs (by simp)
  | cons e es ih =>
    refine (hk.evaluate e m hs (hn e (by simp))).bind fun v m₁ hl₁ hs₁ hv => ?_
    refine (ih hs₁ fun e he => node_of_later (hn e (by simp [he])) hl₁).bind
      fun vs m₂ hl₂ hs₂ hvs => ?_
    exact .result hs₂ (List.forall_mem_cons.2 ⟨I.value_later hl₂.store hv, hvs⟩)

theorem KeptBy.executeAll (hk : I.KeptBy rounds room) {ss : List Statement}
    (hs : I.store m.store) (hn : ∀ st ∈ ss, I.node m.store m.scope (.statement st)) :
    I.Keeps (Eval.executeAll (Eval.execute rounds room) ss) m I.completion := by
  induction ss generalizing m with
  | nil => exact .result hs trivial
  | cons st ss ih =>
    refine (hk.execute st m hs (hn st (by simp))).bind fun c m₁ hl₁ hs₁ hc => ?_
    cases c with
    | normal => exact ih hs₁ fun st hst => node_of_later (hn st (by simp [hst])) hl₁
    | returned v => exact .result hs₁ hc

theorem KeptBy.repeatWhile (hk : I.KeptBy rounds room) {condition : Expr} {body : Statement}
    {n : Nat} (hs : I.store m.store) (hcondition : I.node m.store m.scope (.expression condition))
    (hbody : I.node m.store m.scope (.statement body)) :
    I.Keeps (Eval.repeatWhile (Eval.evaluate rounds room condition)
      (Eval.execute rounds room body) n) m I.completion := by
  induction n generalizing m with
  | zero => exact .abort hs _
  | succ n ih =>
    refine (hk.evaluate condition m hs hcondition).bind fun v m₁ hl₁ hs₁ hv => ?_
    split
    · refine (hk.execute body m₁ hs₁ (node_of_later hbody hl₁)).bind fun c m₂ hl₂ hs₂ hc => ?_
      have hl := hl₁.trans hl₂
      cases c with
      | normal => exact ih hs₂ (node_of_later hcondition hl) (node_of_later hbody hl)
      | returned v => exact .result hs₂ hc
    · exact .result hs₁ trivial

/-- Statements are executed in a scope of their own. -/
theorem KeptBy.block (hk : ∀ r < room, I.KeptBy rounds r) {scope : ScopeId} {ss : List Statement}
    (hs : I.store m.store) (hn : ∀ st ∈ ss, I.node m.store scope (.statement st)) :
    I.Keeps (Eval.block rounds room scope ss) m I.completion := by
  match room, hk with
  | 0, _ => exact .abort hs _
  | room + 1, hk => exact .within ((hk room (Nat.lt_succ_self _)).executeAll hs hn)

theorem KeptBy.call (hk : ∀ r < room, I.KeptBy rounds r) {callee : Expr} {paren : Token}
    {es : List Expr} (hs : I.store m.store)
    (hn : I.node m.store m.scope (.expression (.call callee paren es))) :
    I.Keeps (Eval.call rounds room callee paren es) m I.value := by
  match room, hk with
  | 0, _ => exact .abort hs _
  | 1, _ => exact .abort hs _
  | room + 2, hk =>
    have hk₁ := hk (room + 1) (by omega)
    have hk₀ := hk room (by omega)
    refine (hk₁.evaluate callee m hs (I.part hn .callee)).bind fun v m₁ hl₁ hs₁ hv => ?_
    have hes : ∀ e ∈ es, I.node m₁.store m₁.scope (.expression e) :=
      fun e he => node_of_later (I.part hn (.argument he)) hl₁
    refine (hk₀.evaluateAll hs₁ hes).bind fun vs m₂ hl₂ hs₂ hvs => ?_
    cases v with
    | function f =>
      dsimp only
      split
      · exact (hk₁.invoke f vs m₂ hs₂ (I.value_later hl₂.store hv) hvs).guardStack paren
      · exact .fail hs₂ paren _
    | _ => exact .fail hs₂ paren _

theorem KeptBy.evaluate_of_below (hk : ∀ r < room, I.KeptBy rounds r) (e : Expr)
    (hs : I.store m.store) (hn : I.node m.store m.scope (.expression e)) :
    I.Keeps (Eval.evaluate rounds room e) m I.value := by
  match room, e, hk with
  | 0, _, _ => exact .abort hs _
  | _ + 1, .literal value, _ => exact .result hs (I.plain (by cases value <;> nofun))
  | room + 1, .grouping e, hk =>
    exact (hk room (Nat.lt_succ_self _)).evaluate e m hs (I.part hn .grouping)
  | 1, .unary _ _, _ => exact .abort hs _
  | room + 2, .unary operator e, hk =>
    have hk₀ := hk room (by omega)
    refine ((hk₀.evaluate e m hs (I.part hn .operand)).guardStack operator).bind
      fun v m₁ hl₁ hs₁ hv => ?_
    exact keeps_resultAt hs₁ fun v hr => unaryResult_plain hr
  | 1, .binary _ _ _, _ => exact .abort hs _
  | room + 2, .binary left operator right, hk =>
    have hk₀ := hk room (by omega)
    refine ((hk₀.evaluate left m hs (I.part hn .binaryLeft)).guardStack operator).bind
      fun u m₁ hl₁ hs₁ hu => ?_
    refine ((hk₀.evaluate right m₁ hs₁ (node_of_later (I.part hn .binaryRight) hl₁)).guardStack
      operator).bind fun v m₂ hl₂ hs₂ hv => ?_
    exact keeps_resultAt hs₂ fun v hr => binaryResult_plain hr
  | 1, .logical _ _ _, _ => exact .abort hs _
  | room + 2, .logical left operator right, hk =>
    have hk₀ := hk room (by omega)
    refine (hk₀.evaluate left m hs (I.part hn .logicalLeft)).bind fun u m₁ hl₁ hs₁ hu => ?_
    split
    · exact .result hs₁ hu
    · exact hk₀.evaluate right m₁ hs₁ (node_of_later (I.part hn .logicalRight) hl₁)
  | room + 1, .ternary condition a b, hk =>
    have hk₀ := hk room (Nat.lt_succ_self _)
    refine (hk₀.evaluate condition m hs (I.part hn .ternaryCondition)).bind
      fun u m₁ hl₁ hs₁ hu => ?_
    split
    · exact hk₀.evaluate a m₁ hs₁ (node_of_later (I.part hn .ternaryThen) hl₁)
    · exact hk₀.evaluate b m₁ hs₁ (node_of_later (I.part hn .ternaryElse) hl₁)
  | _ + 1, .access _ _, _ => exact keeps_lookUp hs hn
  | 1, .assign _ _ _, _ => exact .abort hs _
  | room + 2, .assign site name e, hk =>
    refine ((hk room (by omega)).evaluate e m hs (I.part hn .assigned)).bind
      fun v m₁ hl₁ hs₁ hv => ?_
    refine (keeps_assign hs₁ (node_of_later hn hl₁) hv).bind fun _ m₂ hl₂ hs₂ hv₂ => ?_
    exact .result hs₂ hv₂
  | room + 1, .call _ _ _, hk => exact KeptBy.call (fun r hr => hk r (by omega)) hs hn
  | _ + 1, .function _ _ _, _ => exact keeps_close hs hn .literal

theorem KeptBy.invoke_of_below (hk : ∀ r < room, I.KeptBy rounds r) (f : Function)
    {vs : List Value} (hs : I.store m.store) (hf : I.value m.store (.function f))
    (hvs : ∀ v ∈ vs, I.value m.store v) : I.Keeps (Eval.invoke rounds room f vs) m I.value := by
  match room, f, hk with
  | 0, _, _ => exact .abort hs _
  | _ + 1, .host h, _ => exact keeps_callHost hs hvs
  | room + 1, .closure c, hk =>
    obtain ⟨hs', hbody⟩ := I.frame hs hf hvs
    have hopen : I.Keeps (Run.openFrame c.scope c.parameters vs) m fun s frame =>
        ∀ st ∈ c.body, I.node s frame (.statement st) :=
      ⟨.of_store (.frame _ _ _ _), hs', hbody⟩
    refine hopen.bind fun frame m₁ hl₁ hs₁ hn => ?_
    refine (KeptBy.block (fun r hr => hk r (by omega)) hs₁ hn).bind fun r m₂ hl₂ hs₂ hr => ?_
    cases r with
    | normal => exact .result hs₂ (I.plain nofun)
    | returned v => exact .result hs₂ hr

theorem KeptBy.execute_of_below (hk : ∀ r < room, I.KeptBy rounds r) (st : Statement)
    (hs : I.store m.store) (hn : I.node m.store m.scope (.statement st)) :
    I.Keeps (Eval.execute rounds room st) m I.completion := by
  match room, st, hk with
  | 0, _, _ => exact .abort hs _
  | room + 1, .block ss, hk =>
    obtain ⟨hs', hbody⟩ := I.block hs hn
    have hfork : I.Keeps (do Run.fork (← Run.here)) m fun s inner =>
        ∀ st ∈ ss, I.node s inner (.statement st) :=
      ⟨.of_store (.fork _ _), hs', hbody⟩
    have heq : Eval.execute rounds (room + 1) (.block ss) =
        (do Run.fork (← Run.here)) >>= fun inner => Eval.block rounds room inner ss := by
      simp only [Eval.execute, bind_assoc]
    rw [heq]
    exact hfork.bind fun inner m₁ hl₁ hs₁ hn =>
      KeptBy.block (fun r hr => hk r (by omega)) hs₁ hn
  | room + 1, .expression e, hk =>
    have hk₀ := hk room (Nat.lt_succ_self _)
    exact (hk₀.evaluate e m hs (I.part hn .value)).bind fun v m₁ hl₁ hs₁ hv => .result hs₁ trivial
  | _ + 1, .function name parameters body, _ =>
    refine (keeps_close hs hn .declaration).bind fun f m₁ hl₁ hs₁ hf => ?_
    exact (keeps_define hs₁ (node_of_later hn hl₁) hf).bind
      fun _ m₂ hl₂ hs₂ _ => .result hs₂ trivial
  | room + 1, .ifElse condition a b, hk =>
    have hk₀ := hk room (Nat.lt_succ_self _)
    refine (hk₀.evaluate condition m hs (I.part hn .ifCondition)).bind fun u m₁ hl₁ hs₁ hu => ?_
    split
    · exact hk₀.execute a m₁ hs₁ (node_of_later (I.part hn .thenBranch) hl₁)
    · cases b with
      | none => exact .result hs₁ trivial
      | some b => exact hk₀.execute b m₁ hs₁ (node_of_later (I.part hn .elseBranch) hl₁)
  | room + 1, .print e, hk =>
    have hk₀ := hk room (Nat.lt_succ_self _)
    refine (hk₀.evaluate e m hs (I.part hn .printed)).bind fun v m₁ hl₁ hs₁ hv => ?_
    exact (keeps_print hs₁ v.display).bind fun _ m₂ hl₂ hs₂ _ => .result hs₂ trivial
  | _ + 1, .return _ none, _ =>
    have hnil : I.value m.store .nil := I.plain nofun
    exact .result hs hnil
  | room + 1, .return _ (some e), hk =>
    have hk₀ := hk room (Nat.lt_succ_self _)
    exact (hk₀.evaluate e m hs (I.part hn .returned)).bind fun v m₁ hl₁ hs₁ hv => .result hs₁ hv
  | _ + 1, .var name none, _ =>
    have hnil : I.value m.store .nil := I.plain nofun
    exact (keeps_define hs hn hnil).bind fun _ m₁ hl₁ hs₁ _ => .result hs₁ trivial
  | room + 1, .var name (some e), hk =>
    have hk₀ := hk room (Nat.lt_succ_self _)
    refine (hk₀.evaluate e m hs (I.part hn .initializer)).bind fun v m₁ hl₁ hs₁ hv => ?_
    exact (keeps_define hs₁ (node_of_later hn hl₁) hv).bind
      fun _ m₂ hl₂ hs₂ _ => .result hs₂ trivial
  | room + 1, .while condition body, hk =>
    exact (hk room (Nat.lt_succ_self _)).repeatWhile hs (I.part hn .loopCondition)
      (I.part hn .loopBody)

variable (I) in
/-- Every evaluation keeps every invariant, however it ends. -/
theorem keptBy (rounds room : Nat) : I.KeptBy rounds room := by
  induction room using Nat.strongRecOn with
  | ind room ih =>
    exact {
      evaluate := fun e _ hs hn => KeptBy.evaluate_of_below ih e hs hn
      invoke := fun f _ _ hs hf hvs => KeptBy.invoke_of_below ih f hs hf hvs
      execute := fun st _ hs hn => KeptBy.execute_of_below ih st hs hn }

end

end Invariant
end Lox
