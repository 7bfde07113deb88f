import Lox.Proofs.Evaluation.Cursor
import Lox.Proofs.Evaluation.Returning

/-!
# Activations

The statements of one call of a function are an activation. `Watch` follows an execution on a
machine and writes down what happens in it: which statements begin, when the condition of a loop is
evaluated, and the value of a `return` once it is known, with the machine as it is then. Expressions
are not looked into, so that the activations of other functions, which they may call, leave no
events.

What is watched is the execution itself: without the events it is the same. And a `return` is the
last event of its activation, whatever blocks, conditions and loops lie around it; all that changes
on the machine behind it is the current scope.
-/
namespace Lox

/-- What happens in an activation. -/
inductive Event where
  | begun (s : Statement)
  | condition (e : Expr)
  | returned (v : Value) (m : Machine)

theorem Event.begun_ne_returned (s : Statement) (v : Value) (m : Machine) :
    Event.begun s ≠ .returned v m := fun h => by cases h

theorem Event.condition_ne_returned (e : Expr) (v : Value) (m : Machine) :
    Event.condition e ≠ .returned v m := fun h => by cases h

/-- A machine with the events of an activation, newest first. -/
structure Activation where
  machine : Machine
  events : List Event

/-- An action of an activation. -/
abbrev Watch := EStateM Failure Activation

namespace Watch

variable {α : Type}

def note (event : Event) : Watch Unit := fun a => .ok () { a with events := event :: a.events }

/-- Notes the value of a `return`. -/
def noteReturn (v : Value) : Watch Unit := fun a => note (.returned v a.machine) a

/-- Does something in which nothing of the activation happens. -/
def silently (act : Run α) : Watch α := fun a =>
  match act a.machine with
  | .ok x m => .ok x { a with machine := m }
  | .error f m => .error f { a with machine := m }

/-- Does something in another scope and comes back. -/
def within (scope : ScopeId) (act : Watch α) : Watch α := fun a =>
  let previous := a.machine.scope
  match act { a with machine := { a.machine with scope := scope } } with
  | .ok x b => .ok x { b with machine := { b.machine with scope := previous } }
  | .error f b => .error f { b with machine := { b.machine with scope := previous } }

def executeAll (execute : Statement → Watch Completion) : List Statement → Watch Completion
  | [] => pure .normal
  | s :: rest => do
    match ← execute s with
    | .normal => executeAll execute rest
    | .returned value => pure (.returned value)

def repeatWhile (condition : Watch Value) (body : Watch Completion) :
    (rounds : Nat) → Watch Completion
  | 0 => silently (Run.abort .roundsExhausted)
  | rounds + 1 => do
    if (← condition).truthy then
      match ← body with
      | .normal => repeatWhile condition body rounds
      | .returned value => pure (.returned value)
    else pure .normal

section
variable (rounds : Nat)

mutual

def block : (room : Nat) → ScopeId → List Statement → Watch Completion
  | 0, _, _ => silently (Run.abort .stackExhausted)
  | room + 1, scope, statements => within scope (executeAll (execute room) statements)

def execute : (room : Nat) → Statement → Watch Completion
  | 0, _ => silently (Run.abort .stackExhausted)
  | room + 1, .block statements => do
    note (.begun (.block statements))
    let inner ← silently (do Run.fork (← Run.here))
    block room inner statements
  | room + 1, .ifElse condition thenBranch elseBranch => do
    note (.begun (.ifElse condition thenBranch elseBranch))
    if (← silently (Eval.evaluate rounds room condition)).truthy then execute room thenBranch
    else match elseBranch with
      | none => pure .normal
      | some s => execute room s
  | _ + 1, .return keyword none => do
    note (.begun (.return keyword none))
    noteReturn .nil
    pure (.returned .nil)
  | room + 1, .return keyword (some e) => do
    note (.begun (.return keyword (some e)))
    let value ← silently (Eval.evaluate rounds room e)
    noteReturn value
    pure (.returned value)
  | room + 1, .while condition body => do
    note (.begun (.while condition body))
    repeatWhile (do note (.condition condition); silently (Eval.evaluate rounds room condition))
      (execute room body) rounds
  | room + 1, s => do
    note (.begun s)
    silently (Eval.execute rounds (room + 1) s)

end

/-- Runs a function of a program on arguments. -/
def invoke : (room : Nat) → Closure → List Value → Watch Value
  | 0, _, _ => silently (Run.abort .stackExhausted)
  | room + 1, c, arguments => do
    let frame ← silently (Run.openFrame c.scope c.parameters arguments)
    match ← block rounds room frame c.body with
    | .normal => pure .nil
    | .returned value => pure value

end

end Watch

/-- No `return` is among some events. -/
def NoReturn (events : List Event) : Prop := ∀ v m, .returned v m ∉ events

/-- A `return` with this value is the newest event and the only one of its kind, and nothing but the
current scope has changed since. -/
def ReturnsLast (v : Value) (m : Machine) (events : List Event) : Prop :=
  ∃ before m₁, events = .returned v m₁ :: before ∧ NoReturn before ∧
    m = { m₁ with scope := m.scope }

/-- The events of an execution that ends so on a machine, newest first. -/
def Completion.Closes : Completion → Machine → List Event → Prop
  | .normal, _, events => NoReturn events
  | .returned v, m, events => ReturnsLast v m events

/-- The events of a call with this value, newest first. Without a `return` the value is nil. -/
def Value.Closes (v : Value) (m : Machine) (events : List Event) : Prop :=
  ReturnsLast v m events ∨ NoReturn events ∧ v = .nil

theorem NoReturn.nil : NoReturn [] := fun _ _ => List.not_mem_nil

theorem NoReturn.append {es es' : List Event} (h : NoReturn es) (h' : NoReturn es') :
    NoReturn (es ++ es') :=
  fun v m hv => (List.mem_append.1 hv).elim (h v m) (h' v m)

theorem ReturnsLast.append {v : Value} {m : Machine} {es es' : List Event}
    (h : ReturnsLast v m es) (h' : NoReturn es') : ReturnsLast v m (es ++ es') := by
  obtain ⟨before, m₁, rfl, hbefore, hm⟩ := h
  exact ⟨before ++ es', m₁, rfl, hbefore.append h', hm⟩

theorem ReturnsLast.within {v : Value} {m : Machine} {es : List Event} (h : ReturnsLast v m es)
    (scope : ScopeId) : ReturnsLast v { m with scope := scope } es := by
  obtain ⟨before, m₁, rfl, hbefore, hm⟩ := h
  exact ⟨before, m₁, rfl, hbefore, by rw [hm]⟩

/-- What is said of the events of an action that has a result may be said of more events before
them. -/
def Extends {α : Type} (P : α → Machine → List Event → Prop) : Prop :=
  ∀ x m es es', P x m es → NoReturn es' → P x m (es ++ es')

/-- What is said of an action with no `return` in it. -/
abbrev Quiet {α : Type} : α → Machine → List Event → Prop := fun _ _ => NoReturn

theorem extends_quiet {α : Type} : Extends (@Quiet α) := fun _ _ _ _ h h' => h.append h'

theorem extends_closes : Extends Completion.Closes
  | .normal, _, _, _, h, h' => h.append h'
  | .returned _, _, _, _, h, h' => h.append h'

/-- The events from one moment of an activation to a later one. -/
def Adds (a b : Activation) (P : List Event → Prop) : Prop :=
  ∃ new, b.events = new ++ a.events ∧ P new

/-- A watched action does what an action does, and `P` holds of its result and its events; if it
fails, no `return` is among them. -/
def Watches {α : Type} (act : Run α) (P : α → Machine → List Event → Prop) (watched : Watch α) :
    Prop :=
  ∀ a, Ends watched a (fun x b => act a.machine = .ok x b.machine ∧ Adds a b (P x b.machine))
    fun f b => act a.machine = .error f b.machine ∧ Adds a b NoReturn

namespace Watches

variable {α β : Type} {act : Run α} {watched : Watch α} {P : α → Machine → List Event → Prop}

theorem silently (act : Run α) : Watches act Quiet (Watch.silently act) := by
  intro a
  unfold Ends Watch.silently
  cases act a.machine with
  | ok x m => exact ⟨rfl, [], rfl, .nil⟩
  | error f m => exact ⟨rfl, [], rfl, .nil⟩

theorem result {x : α} (h : ∀ m, P x m []) : Watches (pure x) P (pure x) :=
  fun a => ⟨rfl, [], rfl, h a.machine⟩

theorem bind {next : α → Run β} {watchedNext : α → Watch β} {Q : β → Machine → List Event → Prop}
    (hQ : Extends Q) (h : Watches act Quiet watched)
    (hn : ∀ x, Watches (next x) Q (watchedNext x)) :
    Watches (act >>= next) Q (watched >>= watchedNext) := by
  intro a
  rw [ends_bind]
  refine Ends.imp (h a) (fun x b ⟨hact, new, heq, hnew⟩ => ?_) fun f b ⟨hact, hadds⟩ => ?_
  · refine Ends.imp (hn x b) (fun y c ⟨hnext, new', heq', hQ'⟩ => ?_)
      fun f c ⟨hnext, new', heq', hno⟩ => ?_
    · refine ⟨(bind_of_ok hact).trans hnext, new' ++ new, ?_, hQ _ _ _ _ hQ' hnew⟩
      rw [heq', heq, List.append_assoc]
    · refine ⟨(bind_of_ok hact).trans hnext, new' ++ new, ?_, hno.append hnew⟩
      rw [heq', heq, List.append_assoc]
  · exact ⟨bind_of_error hact, hadds⟩

/-- What is noted before an action changes nothing of it. -/
theorem noted {event : Event} (hevent : ∀ v m, event ≠ .returned v m) (hP : Extends P)
    (h : Watches act P watched) : Watches act P (Watch.note event >>= fun _ => watched) := by
  have hnote : Watches (pure ()) Quiet (Watch.note event) := fun _ =>
    ⟨rfl, [event], rfl, fun v m hv => hevent v m (List.mem_singleton.1 hv).symm⟩
  exact bind hP hnote fun _ => h

/-- A `return` ends an execution. -/
theorem returned (v : Value) : Watches (pure (.returned v)) Completion.Closes
    (Watch.noteReturn v >>= fun _ => pure (.returned v)) :=
  fun a => ⟨rfl, [.returned v a.machine], rfl, [], a.machine, rfl, .nil, rfl⟩

theorem within {act : Run Completion} {watched : Watch Completion}
    (h : Watches act Completion.Closes watched) (scope : ScopeId) :
    Watches (Run.within scope act) Completion.Closes (Watch.within scope watched) := by
  intro a
  have hinner := h { a with machine := { a.machine with scope := scope } }
  unfold Ends at hinner ⊢
  unfold Watch.within Run.within
  split at hinner
  · next c b hw =>
    obtain ⟨hact, new, heq, hcloses⟩ := hinner
    simp only [hw, hact]
    refine ⟨trivial, new, heq, ?_⟩
    cases c with
    | normal => exact hcloses
    | returned v => exact hcloses.within _
  · next hw =>
    simp only [hw, hinner.1]
    exact ⟨trivial, hinner.2⟩

/-- A step that may return stands before others only as long as it does not. -/
theorem andThen {act : Run Completion} {watched : Watch Completion} {next : Run Completion}
    {watchedNext : Watch Completion} (h : Watches act Completion.Closes watched)
    (hn : Watches next Completion.Closes watchedNext) :
    Watches (do match ← act with | .normal => next | .returned v => pure (.returned v))
      Completion.Closes
      (do match ← watched with | .normal => watchedNext | .returned v => pure (.returned v)) := by
  intro a
  rw [ends_bind]
  refine Ends.imp (h a) (fun c b ⟨hact, new, heq, hcloses⟩ => ?_) fun f b ⟨hact, hadds⟩ => ?_
  · cases c with
    | normal =>
      refine Ends.imp (hn b) (fun y c ⟨hnext, new', heq', hQ'⟩ => ?_)
        fun f c ⟨hnext, new', heq', hno⟩ => ?_
      · refine ⟨(bind_of_ok hact).trans hnext, new' ++ new, ?_, extends_closes _ _ _ _ hQ' hcloses⟩
        rw [heq', heq, List.append_assoc]
      · refine ⟨(bind_of_ok hact).trans hnext, new' ++ new, ?_, hno.append hcloses⟩
        rw [heq', heq, List.append_assoc]
    | returned v => exact ⟨bind_of_ok hact, new, heq, hcloses⟩
  · exact ⟨bind_of_error hact, hadds⟩

theorem executeAll {execute : Statement → Run Completion} {watch : Statement → Watch Completion}
    (h : ∀ s, Watches (execute s) Completion.Closes (watch s)) (ss : List Statement) :
    Watches (Eval.executeAll execute ss) Completion.Closes (Watch.executeAll watch ss) := by
  induction ss with
  | nil => exact result fun _ => .nil
  | cons s ss ih => exact (h s).andThen ih

theorem repeatWhile {condition : Run Value} {watchedCondition : Watch Value}
    {body : Run Completion} {watchedBody : Watch Completion}
    (hc : Watches condition Quiet watchedCondition)
    (hb : Watches body Completion.Closes watchedBody) (rounds : Nat) :
    Watches (Eval.repeatWhile condition body rounds) Completion.Closes
      (Watch.repeatWhile watchedCondition watchedBody rounds) := by
  induction rounds with
  | zero => exact fun a => ⟨rfl, [], rfl, .nil⟩
  | succ rounds ih =>
    refine bind extends_closes hc fun v => ?_
    cases v.truthy with
    | true => exact hb.andThen ih
    | false => exact result fun _ => .nil

end Watches

theorem watches_abort {P : Completion → Machine → List Event → Prop} (a : Abort) :
    Watches (Run.abort a) P (Watch.silently (Run.abort a)) :=
  fun _ => ⟨rfl, [], rfl, .nil⟩

/-- Nothing happens in a statement without others in it but that it begins. -/
theorem watches_plain {act : Run Completion} (h : EndsNormally act) (s : Statement) :
    Watches act Completion.Closes (Watch.note (.begun s) >>= fun _ => Watch.silently act) := by
  refine .noted (Event.begun_ne_returned _) extends_closes fun a => ?_
  have hact := Watches.silently act a
  refine Ends.imp hact (fun c b ⟨hok, hadds⟩ => ?_) fun _ _ hf => hf
  obtain rfl := h _ _ _ hok
  exact ⟨hok, hadds⟩

section
variable {rounds room : Nat}

theorem watches_block (h : ∀ r < room, ∀ s, Watches (Eval.execute rounds r s) Completion.Closes
    (Watch.execute rounds r s)) (scope : ScopeId) (ss : List Statement) :
    Watches (Eval.block rounds room scope ss) Completion.Closes
      (Watch.block rounds room scope ss) := by
  match room, h with
  | 0, _ => exact watches_abort _
  | room + 1, h => exact (Watches.executeAll (h room (Nat.lt_succ_self _)) ss).within scope

/-- Whatever lies around it, a `return` is the last event of an execution. -/
theorem watches_execute (rounds room : Nat) (s : Statement) :
    Watches (Eval.execute rounds room s) Completion.Closes (Watch.execute rounds room s) := by
  induction room using Nat.strongRecOn generalizing s with
  | ind room ih =>
    match room, s, ih with
    | 0, _, _ => exact watches_abort _
    | room + 1, .block ss, ih =>
      have hblock := @watches_block rounds room (fun r hr => ih r (by omega))
      have heq : Eval.execute rounds (room + 1) (.block ss) =
          (do Run.fork (← Run.here)) >>= fun inner => Eval.block rounds room inner ss := by
        simp only [Eval.execute, bind_assoc]
      rw [heq]
      refine .noted (Event.begun_ne_returned _) extends_closes ?_
      exact .bind extends_closes (.silently _) fun inner => hblock inner ss
    | _ + 1, .expression e, _ => exact watches_plain (.bind fun _ => .result) _
    | _ + 1, .function name parameters body, _ =>
      exact watches_plain (.bind fun _ => .bind fun _ => .result) _
    | room + 1, .ifElse condition a b, ih =>
      have hroom := ih room (Nat.lt_succ_self _)
      refine .noted (Event.begun_ne_returned _) extends_closes ?_
      refine .bind extends_closes (.silently _) fun v => ?_
      cases v.truthy with
      | true => exact hroom a
      | false =>
        cases b with
        | none => exact .result fun _ => .nil
        | some b => exact hroom b
    | _ + 1, .print e, _ => exact watches_plain (.bind fun _ => .bind fun _ => .result) _
    | _ + 1, .return keyword none, _ =>
      exact .noted (Event.begun_ne_returned _) extends_closes (.returned .nil)
    | room + 1, .return keyword (some e), _ =>
      refine .noted (Event.begun_ne_returned _) extends_closes ?_
      exact .bind extends_closes (.silently _) .returned
    | _ + 1, .var name none, _ => exact watches_plain (.bind fun _ => .result) _
    | _ + 1, .var name (some e), _ =>
      exact watches_plain (.bind fun _ => .bind fun _ => .result) _
    | room + 1, .while condition body, ih =>
      have hcondition : Watches (Eval.evaluate rounds room condition) Quiet
          (do Watch.note (.condition condition)
              Watch.silently (Eval.evaluate rounds room condition)) :=
        .noted (Event.condition_ne_returned _) extends_quiet (.silently _)
      refine .noted (Event.begun_ne_returned _) extends_closes ?_
      exact .repeatWhile hcondition (ih room (Nat.lt_succ_self _) body) rounds

/-- The value of a call is that of the `return` which is its last event, or nil without one. -/
theorem watches_invoke (rounds room : Nat) (c : Closure) (arguments : List Value) :
    Watches (Eval.invoke rounds room (.closure c) arguments) Value.Closes
      (Watch.invoke rounds room c arguments) := by
  match room with
  | 0 => exact fun _ => ⟨rfl, [], rfl, .nil⟩
  | room + 1 =>
    have hextends : Extends Value.Closes := by
      rintro v m es es' (h | ⟨h, rfl⟩) h'
      · exact .inl (h.append h')
      · exact .inr ⟨h.append h', rfl⟩
    refine .bind hextends (.silently _) fun frame a => ?_
    rw [ends_bind]
    refine Ends.imp (watches_block (fun r _ => watches_execute rounds r) frame c.body a)
      (fun r b ⟨hact, new, heq, hcloses⟩ => ?_) fun f b ⟨hact, hadds⟩ => ?_
    · cases r with
      | normal => exact ⟨bind_of_ok hact, new, heq, .inr ⟨hcloses, rfl⟩⟩
      | returned v => exact ⟨bind_of_ok hact, new, heq, .inl hcloses⟩
    · exact ⟨bind_of_error hact, hadds⟩

end

/-- A call is an expression that has the value of its function, in the scope of the caller. -/
theorem evaluate_call {rounds room : Nat} {callee : Expr} {paren : Token} {es : List Expr}
    {f : Function} {vs : List Value} {v : Value} {m m₁ m₂ m₃ : Machine}
    (hcallee : Eval.evaluate rounds (room + 1) callee m = .ok (.function f) m₁)
    (harguments : Eval.evaluateAll (Eval.evaluate rounds room) es m₁ = .ok vs m₂)
    (harity : vs.length = f.arity) (hinvoke : Eval.invoke rounds (room + 1) f vs m₂ = .ok v m₃) :
    Eval.evaluate rounds (room + 3) (.call callee paren es) m = .ok v m₃ := by
  show Eval.call rounds (room + 2) callee paren es m = _
  rw [Eval.call, bind_of_ok hcallee, bind_of_ok harguments]
  simp only [harity, if_true, Run.guardStack, hinvoke]

end Lox
