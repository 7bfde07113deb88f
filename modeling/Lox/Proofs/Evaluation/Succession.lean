import Lox.Proofs.Evaluation.Parts
import Lox.Proofs.Evaluation.Stores
import Lox.Proofs.Scoping.Accesses

/-!
# One evaluation after the other

The evaluation of a declaration or of a literal makes a function, and takes the next identity for
it. Every other evaluation only performs its parts, one after the other: between them no function is
made, and what a part begins with was there when the whole began or came out of a part before it.
-/
namespace Lox

/-- A function is in a store or among some values. -/
def Known (s : Store Value) (vs : List Value) (f : Function) : Prop :=
  s.Has (.function f) ∨ .function f ∈ vs

namespace Known

variable {s s' : Store Value} {vs ws : List Value} {f : Function}

/-- What is in the store is known whatever values there are. -/
theorem of_store (h : Known s [] f) : Known s vs f :=
  .inl (h.resolve_right List.not_mem_nil)

theorem append (h : Known s (vs ++ ws) f) : Known s vs f ∨ Known s ws f := by
  rcases h with h | h
  · exact .inl (.inl h)
  · exact (List.mem_append.1 h).imp .inr .inr

theorem define {id : ScopeId} {name : String} {v : Value}
    (h : Known (s.define id name v) [] f) : Known s [v] f := by
  rcases h with h | h
  · rcases Store.has_define h with heq | hold
    · exact .inr (heq ▸ .head _)
    · exact .inl hold
  · cases h

theorem fork {parent : ScopeId} (h : Known (s.fork parent) [] f) : Known s [] f :=
  .inl (Store.has_fork (h.resolve_right List.not_mem_nil))

/-- A call stores nothing but its arguments. -/
theorem frame {parent : ScopeId} {parameters : List Token}
    (h : Known (s.frame parent parameters vs) [] f) : Known s vs f := by
  have hfold (pairs : List (Token × Value)) (store : Store Value)
      (hstore : Known store [] f → Known s vs f) (hpairs : ∀ pair ∈ pairs, pair.2 ∈ vs) :
      Known (pairs.foldl (fun store pair => store.define s.size pair.1.lexeme pair.2) store) [] f →
        Known s vs f := by
    induction pairs generalizing store with
    | nil => exact hstore
    | cons pair pairs ih =>
      obtain ⟨hpair, hpairs⟩ := List.forall_mem_cons.1 hpairs
      refine ih _ (fun hf => ?_) hpairs
      rcases hf.define with hf | hf
      · exact hstore (.inl hf)
      · exact .inr (List.mem_singleton.1 hf ▸ hpair)
  exact hfold _ _ (fun hf => hf.fork.of_store) (fun pair hpair => (List.of_mem_zip hpair).2) h

end Known

/-- A use has the value that the scope of its variable holds. -/
theorem Run.lookUp_eq_ok_iff {site : Site} {name : Token} {m m' : Machine} {v : Value} :
    Run.lookUp site name m = .ok v m' ↔ m' = m ∧
      ∃ id, Run.holder m site name = .ok id ∧ m.store.valueIn? id name.lexeme = some v := by
  cases hholder : Run.holder m site name with
  | error fault => simp [Run.lookUp, hholder, Bind.bind, Except.bind]
  | ok id =>
    cases hv : m.store.valueIn? id name.lexeme with
    | none => simp [Run.lookUp, hholder, Bind.bind, Except.bind, Store.getIn, hv]
    | some w =>
      simp [Run.lookUp, hholder, Bind.bind, Except.bind, Store.getIn, hv, and_comm, eq_comm]

/-- The values that come out of an action. -/
def Run.results {α : Type} (act : Run α) (shows : α → List Value) (m : Machine) : List Value :=
  match act m with
  | .ok a _ => shows a
  | .error _ _ => []

@[simp] theorem Run.after_guardStack {α β : Type} (token : Token) (act : Run α) (m : Machine)
    (next : α → Machine → List β) : (guardStack token act).after m next = act.after m next := by
  cases hact : act m with
  | ok a m' => rw [after_of_ok hact, after_of_ok (guardStack_of_ok hact)]
  | error f m' => rw [after, after, guardStack_of_error hact, hact]

/-- What a statement returns. -/
def Completion.values : Completion → List Value
  | .normal => []
  | .returned v => [v]

namespace Point

open Eval (evaluate evaluateAll invoke execute executeAll repeatWhile)

/-- The values that come out of the evaluation at a point. -/
def results (rounds : Nat) (p : Point) : List Value :=
  match p.task with
  | .expression room e => (evaluate rounds room e).results ([·]) p.machine
  | .expressions room es => (evaluateAll (evaluate rounds room) es).results id p.machine
  | .call room f vs => (invoke rounds room f vs).results ([·]) p.machine
  | .statement room s => (execute rounds room s).results Completion.values p.machine
  | .statements room ss =>
    (executeAll (execute rounds room) ss).results Completion.values p.machine
  | .loop room n condition body =>
    (repeatWhile (evaluate rounds room condition) (execute rounds room body) n).results
      Completion.values p.machine

/-- The values that a call gets: its function and the arguments. -/
def arguments (p : Point) : List Value :=
  match p.task with
  | .call _ f vs => .function f :: vs
  | _ => []

/-- The function is there when the evaluation begins. -/
def Given (p : Point) : Function → Prop := Known p.machine.store p.arguments

/-- The function is there when the evaluation is over. -/
def Yields (rounds : Nat) (p : Point) : Function → Prop :=
  Known (p.leaves rounds).store (p.results rounds)

/-- The function that is made at a point. -/
def made? (p : Point) : Option Closure :=
  match p.task with
  | .expression (_ + 1) (.function _ parameters body) =>
    some ⟨p.machine.nextIdentity, none, parameters, body, p.machine.scope⟩
  | .statement (_ + 1) (.function name parameters body) =>
    some ⟨p.machine.nextIdentity, some name.lexeme, parameters, body, p.machine.scope⟩
  | _ => none

/-- Evaluations one after the other, between which no function is made. Each begins with the
identity that is next when the one before is over, and with functions that were known at first or
came out of those before. -/
inductive Succession (rounds : Nat) :
    Nat → (Function → Prop) → List Point → Nat → (Function → Prop) → Prop where
  | done {n K Y} (h : ∀ g, Y g → K g) : Succession rounds n K [] n Y
  | step {n n' K Y p ps} (hn : p.machine.nextIdentity = n) (hgiven : ∀ g, p.Given g → K g)
      (h : Succession rounds (p.leaves rounds).nextIdentity (fun g => K g ∨ p.Yields rounds g) ps
        n' Y) :
    Succession rounds n K (p :: ps) n' Y

namespace Succession

variable {rounds n n₁ n' : Nat} {K K' Y Y₁ : Function → Prop} {p : Point} {ps qs : List Point}

theorem mono (h : Succession rounds n K ps n' Y) (hK : ∀ g, K g → K' g) :
    Succession rounds n K' ps n' Y := by
  induction h generalizing K' with
  | done h => exact .done fun g hg => hK g (h g hg)
  | step hn hgiven _ ih =>
    exact .step hn (fun g hg => hK g (hgiven g hg)) (ih fun g hg => hg.imp_left (hK g))

theorem append (h : Succession rounds n K ps n₁ Y₁)
    (h' : Succession rounds n₁ (fun g => K g ∨ Y₁ g) qs n' Y) :
    Succession rounds n K (ps ++ qs) n' Y := by
  induction h with
  | done h => exact h'.mono fun g hg => hg.elim id (h g)
  | step hn hgiven _ ih =>
    exact .step hn hgiven (ih (h'.mono fun g hg => hg.imp_left .inl))

theorem weaken (h : Succession rounds n K ps n' Y₁) (hY : ∀ g, Y g → K g ∨ Y₁ g) :
    Succession rounds n K ps n' Y := by
  simpa using h.append (.done hY)

theorem of_append (h : Succession rounds n K (ps ++ qs) n' Y) :
    ∃ n₁ K₁, Succession rounds n K ps n₁ K₁ ∧ Succession rounds n₁ K₁ qs n' Y := by
  induction ps generalizing n K with
  | nil => exact ⟨n, K, .done fun _ => id, h⟩
  | cons p ps ih =>
    cases h with
    | step hn hgiven h =>
      obtain ⟨n₁, K₁, hfirst, hrest⟩ := ih h
      exact ⟨n₁, K₁, .step hn hgiven hfirst, hrest⟩

end Succession

/-- An action performs some evaluations one after the other, and makes no function beside them. -/
def Performs {α : Type} (rounds : Nat) (act : Run α) (m : Machine) (K : Function → Prop)
    (ps : List Point) (shows : α → List Value) : Prop :=
  Ends act m
    (fun a m' =>
      Succession rounds m.nextIdentity K ps m'.nextIdentity (Known m'.store (shows a)))
    fun _ m' => Succession rounds m.nextIdentity K ps m'.nextIdentity (Known m'.store [])

namespace Performs

variable {α β : Type} {rounds : Nat} {act : Run α} {next : α → Run β} {m : Machine}
  {K : Function → Prop} {ps : List Point} {qs : α → Machine → List Point} {shows : α → List Value}
  {shows' : β → List Value}

theorem of_ok {a : α} {m' : Machine} (hact : act m = .ok a m')
    (hn : m'.nextIdentity = m.nextIdentity) (h : ∀ g, Known m'.store (shows a) g → K g) :
    Performs rounds act m K [] shows :=
  Ends.of_ok hact (hn ▸ .done h)

theorem of_error {f : Failure} (hact : act m = .error f m) (h : ∀ g, Known m.store [] g → K g) :
    Performs rounds act m K [] shows :=
  Ends.of_error hact (.done h)

theorem result {a : α} (h : ∀ g, Known m.store (shows a) g → K g) :
    Performs rounds (pure a) m K [] shows :=
  of_ok rfl rfl h

/-- The next step begins with what was known and with what came out of the first one. -/
theorem bind (h : Performs rounds act m K ps shows)
    (hn : ∀ a m', (∀ g, Known m'.store [] g → K g ∨ Known m'.store (shows a) g) →
      Performs rounds (next a) m' (fun g => K g ∨ Known m'.store (shows a) g) (qs a m') shows') :
    Performs rounds (act >>= next) m K (ps ++ act.after m qs) shows' := by
  refine (ends_bind act next m _ _).2 (Ends.imp h.run (fun a m₁ ⟨hact, ha⟩ => ?_)
    fun f m₁ ⟨hact, hf⟩ => ?_)
  · rw [Run.after_of_ok hact]
    -- What is in the store now is known, because it came out of the first step.
    have hrest := hn a m₁ fun g hg => .inr hg.of_store
    exact hrest.imp (fun _ _ h' => ha.append h') fun _ _ h' => ha.append h'
  · simpa [Run.after, hact] using hf

/-- Nothing is evaluated behind the first step. -/
theorem bind_last (h : Performs rounds act m K ps shows)
    (hn : ∀ a m', (∀ g, Known m'.store [] g → K g ∨ Known m'.store (shows a) g) →
      Performs rounds (next a) m' (fun g => K g ∨ Known m'.store (shows a) g) [] shows') :
    Performs rounds (act >>= next) m K ps shows' := by
  have h' := h.bind hn
  have hnil : act.after m (fun _ _ => ([] : List Point)) = [] := by
    unfold Run.after
    split <;> rfl
  rwa [hnil, List.append_nil] at h'

theorem guardStack (h : Performs rounds act m K ps shows) (token : Token) :
    Performs rounds (Run.guardStack token act) m K ps shows := by
  cases hact : act m with
  | ok a m' => exact Ends.of_ok (Run.guardStack_of_ok hact) (h.ok hact)
  | error f m' => exact Ends.of_error (Run.guardStack_of_error hact) (h.error hact)

theorem within {scope : ScopeId} (h : Performs rounds act { m with scope := scope } K ps shows) :
    Performs rounds (Run.within scope act) m K ps shows := by
  unfold Performs Ends Run.within at *
  cases hact : act { m with scope := scope } <;> simpa [hact] using h

/-- The evaluation at a point. -/
theorem point {p : Point} (hl : p.leaves rounds = act.leaves p.machine)
    (hr : p.results rounds = act.results shows p.machine) (h : ∀ g, p.Given g → K g) :
    Performs rounds act p.machine K [p] shows := by
  have hsingle : Succession rounds p.machine.nextIdentity K [p] (p.leaves rounds).nextIdentity
      (p.Yields rounds) := .step rfl h (.done fun _ => .inr)
  unfold Yields at hsingle
  rw [hl, hr] at hsingle
  unfold Run.leaves Run.results at hsingle
  unfold Performs Ends
  cases hact : act p.machine <;> simpa only [hact] using hsingle

theorem call {room : Nat} {P : List (ScopeId × String)} {f : Function} {vs : List Value}
    (h : ∀ g, Known m.store (.function f :: vs) g → K g) :
    Performs rounds (invoke rounds room f vs) m K [⟨.call room f vs, m, P⟩] ([·]) :=
  .point (p := ⟨.call room f vs, m, P⟩) rfl rfl h

theorem define {name : String} {v : Value} (hv : ∀ g, Known m.store [v] g → K g) :
    Performs rounds (Run.define name v) m K [] fun _ => [] :=
  .of_ok rfl rfl fun g hg => hv g hg.define

theorem print {text : String} (hK : ∀ g, Known m.store [] g → K g) :
    Performs rounds (Run.print text) m K [] fun _ => [] :=
  .of_ok rfl rfl hK

theorem here (hK : ∀ g, Known m.store [] g → K g) :
    Performs rounds Run.here m K [] fun _ => [] :=
  .of_ok rfl rfl hK

theorem fork {parent : ScopeId} (hK : ∀ g, Known m.store [] g → K g) :
    Performs rounds (Run.fork parent) m K [] fun _ => [] :=
  .of_ok rfl rfl fun g hg => hK g (Known.fork hg)

theorem openFrame {parent : ScopeId} {parameters : List Token} {vs : List Value}
    (hvs : ∀ g, Known m.store vs g → K g) :
    Performs rounds (Run.openFrame parent parameters vs) m K [] fun _ => [] :=
  .of_ok rfl rfl fun g hg => hvs g (Known.frame hg)

/-- The host gives back an argument, or nothing that is a function of the program. -/
theorem callHost {h : HostFunction} {vs : List Value} (hvs : ∀ g, Known m.store vs g → K g) :
    Performs rounds (Run.callHost h vs) m K [] ([·]) := by
  obtain ⟨identity, name, arity, action⟩ := h
  match action with
  | .clock => exact .of_ok rfl rfl fun g hg => hvs g (hg.imp_right (by simp))
  | .give none => exact .of_ok rfl rfl fun g hg => hvs g (hg.imp_right (by simp))
  | .give (some i) =>
    cases hv : vs[i]? with
    | none =>
      have heq : Run.callHost ⟨identity, name, arity, .give (some i)⟩ vs m =
          .error (.abort .missingArgument) m := by
        simp only [Run.callHost, hv]
      exact .of_error heq fun g hg => hvs g hg.of_store
    | some v =>
      have heq : Run.callHost ⟨identity, name, arity, .give (some i)⟩ vs m = .ok v m := by
        simp only [Run.callHost, hv]
      refine .of_ok heq rfl fun g hg => hvs g (hg.imp_right fun hmem => ?_)
      exact List.mem_singleton.1 hmem ▸ List.mem_of_getElem? hv

/-- What an action performs leads from where it begins to what it leaves. -/
theorem succession (h : Performs rounds act m K ps shows) :
    Succession rounds m.nextIdentity K ps (act.leaves m).nextIdentity
      (Known (act.leaves m).store (act.results shows m)) := by
  unfold Run.leaves Run.results
  unfold Performs Ends at h
  cases hact : act m <;> simpa only [hact] using h

section
variable {room : Nat} {P : List (ScopeId × String)} (hK : ∀ g, Known m.store [] g → K g)
include hK

theorem expression {e : Expr} :
    Performs rounds (evaluate rounds room e) m K [⟨.expression room e, m, P⟩] ([·]) :=
  .point (p := ⟨.expression room e, m, P⟩) rfl rfl hK

theorem expressions {es : List Expr} :
    Performs rounds (evaluateAll (evaluate rounds room) es) m K [⟨.expressions room es, m, P⟩] id :=
  .point (p := ⟨.expressions room es, m, P⟩) rfl rfl hK

theorem statement {s : Statement} :
    Performs rounds (execute rounds room s) m K [⟨.statement room s, m, P⟩] Completion.values :=
  .point (p := ⟨.statement room s, m, P⟩) rfl rfl hK

theorem statements {ss : List Statement} :
    Performs rounds (executeAll (execute rounds room) ss) m K [⟨.statements room ss, m, P⟩]
      Completion.values :=
  .point (p := ⟨.statements room ss, m, P⟩) rfl rfl hK

theorem block {scope : ScopeId} {ss : List Statement} :
    Performs rounds (Eval.block rounds (room + 1) scope ss) m K
      [⟨.statements room ss, { m with scope := scope }, P⟩] Completion.values :=
  .within (.point (p := ⟨.statements room ss, { m with scope := scope }, P⟩) rfl rfl hK)

theorem loop {n : Nat} {condition : Expr} {body : Statement} :
    Performs rounds (repeatWhile (evaluate rounds room condition) (execute rounds room body) n) m K
      [⟨.loop room n condition body, m, P⟩] Completion.values :=
  .point (p := ⟨.loop room n condition body, m, P⟩) rfl rfl hK

theorem lookUp {site : Site} {name : Token} :
    Performs rounds (Run.lookUp site name) m K [] ([·]) := by
  refine (Run.ends_lookUp m site name).run.imp (fun v m' ⟨hrun, hm⟩ => ?_) fun _ m' ⟨_, hm⟩ => ?_
  · obtain ⟨-, id, -, hv⟩ := Run.lookUp_eq_ok_iff.1 hrun
    subst hm
    refine .done fun g hg => hK g (.inl (hg.elim (fun h => h) fun hmem => ?_))
    exact List.mem_singleton.1 hmem ▸ Store.has_of_valueIn? hv
  · subst hm
    exact .done hK

theorem assign {site : Site} {name : Token} {v : Value} (hv : ∀ g, Known m.store [v] g → K g) :
    Performs rounds (Run.assign site name v) m K [] fun _ => [] := by
  unfold Performs Ends Run.assign
  cases Run.holder m site name with
  | error fault => exact .done hK
  | ok id => exact .done fun g hg => hv g hg.define

theorem resultAt {operator : Token} {r : Except RuntimeFault Value}
    (hr : ∀ g, r ≠ .ok (.function g)) :
    Performs rounds (Eval.resultAt operator r) m K [] ([·]) := by
  cases r with
  | ok v =>
    refine .result fun g hg => hK g (hg.imp_right fun hmem => ?_)
    exact absurd (congrArg Except.ok (List.mem_singleton.1 hmem).symm) (hr g)
  | error fault => exact .of_error rfl hK

theorem bind_expression {e : Expr} {next : Value → Run β} {qs : Value → Machine → List Point}
    (hn : ∀ u m', (∀ g, Known m'.store [] g → K g ∨ Known m'.store [u] g) →
      Performs rounds (next u) m' (fun g => K g ∨ Known m'.store [u] g) (qs u m') shows') :
    Performs rounds (evaluate rounds room e >>= next) m K
      (⟨.expression room e, m, P⟩ :: (evaluate rounds room e).after m qs) shows' :=
  (expression hK).bind hn

/-- An operand of an operator. -/
theorem bind_operand {operator : Token} {e : Expr} {next : Value → Run β}
    {qs : Value → Machine → List Point}
    (hn : ∀ u m', (∀ g, Known m'.store [] g → K g ∨ Known m'.store [u] g) →
      Performs rounds (next u) m' (fun g => K g ∨ Known m'.store [u] g) (qs u m') shows') :
    Performs rounds (Run.guardStack operator (evaluate rounds room e) >>= next) m K
      (⟨.expression room e, m, P⟩ :: (evaluate rounds room e).after m qs) shows' := by
  have he : Performs rounds (evaluate rounds room e) m K [⟨.expression room e, m, P⟩] ([·]) :=
    expression hK
  have h := (he.guardStack operator).bind hn
  rwa [Run.after_guardStack] at h

end

end Performs

section
variable {rounds room : Nat} {m : Machine} {K : Function → Prop} {P : List (ScopeId × String)}

theorem performs_expression {e : Expr} (hK : ∀ g, Known m.store [] g → K g)
    (hm : made? ⟨.expression room e, m, P⟩ = none) :
    Performs rounds (evaluate rounds room e) m K (parts rounds ⟨.expression room e, m, P⟩)
      ([·]) := by
  match room, e with
  | 0, _ => exact .of_error rfl hK
  | _ + 1, .literal v =>
    refine .result fun g hg => hK g (hg.imp_right fun hmem => ?_)
    cases v <;> cases List.mem_singleton.1 hmem
  | room + 1, .grouping e =>
    show Performs rounds (evaluate rounds room e) m K [_] _
    exact .expression hK
  | 1, .unary _ _ => exact .of_error rfl hK
  | room + 2, .unary operator e =>
    exact ((Performs.expression hK).guardStack operator).bind_last fun u m₁ hK₁ =>
      .resultAt hK₁ unaryResult_ne_function
  | 1, .binary _ _ _ => exact .of_error rfl hK
  | room + 2, .binary left operator right =>
    refine Performs.bind_operand hK fun u m₁ hK₁ => ?_
    refine ((Performs.expression hK₁).guardStack operator).bind_last fun v m₂ hK₂ => ?_
    exact .resultAt hK₂ binaryResult_ne_function
  | 1, .logical _ _ _ => exact .of_error rfl hK
  | room + 2, .logical left operator right =>
    refine Performs.bind_expression hK fun u m₁ hK₁ => ?_
    split
    · exact .result fun g => .inr
    · exact .expression hK₁
  | room + 1, .ternary condition a b =>
    refine Performs.bind_expression hK fun u m₁ hK₁ => ?_
    split
    · exact .expression hK₁
    · exact .expression hK₁
  | _ + 1, .access _ _ => exact .lookUp hK
  | 1, .assign _ _ _ => exact .of_error rfl hK
  | room + 2, .assign site name e =>
    refine (Performs.expression hK).bind_last fun v m₁ hK₁ => ?_
    refine (Performs.assign hK₁ fun g => .inr).bind_last fun _ m₂ hK₂ => ?_
    exact .result fun g hg => hg.elim (fun h => .inr (.inl h)) fun h => .inl (.inr (.inr h))
  | 1, .call _ _ _ => exact .of_error rfl hK
  | 2, .call _ _ _ => exact .of_error rfl hK
  | room + 3, .call callee paren es =>
    refine Performs.bind_expression hK fun u m₁ hK₁ => ?_
    refine (Performs.expressions hK₁).bind fun vs m₂ hK₂ => ?_
    cases u with
    | function f =>
      dsimp only
      split
      · refine (Performs.call fun g hg => ?_).guardStack paren
        rcases hg with hg | hg
        · exact .inr (.inl hg)
        · rcases List.mem_cons.1 hg with heq | hg
          · exact .inl (.inr (.inr (heq ▸ .head _)))
          · exact .inr (.inr hg)
      · exact .of_error rfl hK₂
    | _ => exact .of_error rfl hK₂
  | _ + 1, .function _ _ _ => cases hm

theorem performs_expressions {es : List Expr} (hK : ∀ g, Known m.store [] g → K g) :
    Performs rounds (evaluateAll (evaluate rounds room) es) m K
      (parts rounds ⟨.expressions room es, m, P⟩) id := by
  cases es with
  | nil => exact .result hK
  | cons e es =>
    refine Performs.bind_expression hK fun v m₁ hK₁ => ?_
    refine (Performs.expressions hK₁).bind_last fun vs m₂ hK₂ => ?_
    refine .result fun g hg => ?_
    have hall : Known m₂.store ([v] ++ vs) g := hg
    rcases hall.append with hg | hg
    · exact hg.elim (fun h => .inr (.inl h)) fun h => .inl (.inr (.inr h))
    · exact .inr hg

theorem performs_call {f : Function} {vs : List Value}
    (hK : ∀ g, Known m.store (.function f :: vs) g → K g) :
    Performs rounds (invoke rounds room f vs) m K (parts rounds ⟨.call room f vs, m, P⟩) ([·]) := by
  match room, f, hK with
  | 0, _, hK => exact .of_error rfl fun g hg => hK g hg.of_store
  | room + 1, .host h, hK =>
    have hparts : parts rounds ⟨.call (room + 1) (.host h) vs, m, P⟩ = [] := by
      cases room <;> rfl
    rw [hparts]
    exact .callHost fun g hg => hK g (hg.imp_right (.tail _))
  | 1, .closure f, hK =>
    have hframe : Performs rounds (Run.openFrame f.scope f.parameters vs) m K [] fun _ => [] :=
      .openFrame fun g hg => hK g (hg.imp_right (.tail _))
    exact hframe.bind_last fun _ m₁ hK₁ => .of_error rfl hK₁
  | room + 2, .closure f, hK =>
    -- The frame takes no evaluation; the body begins on the machine that it leaves.
    show Performs rounds _ m K ([] ++ (Run.openFrame f.scope f.parameters vs).after m
      fun frame m₁ => [⟨.statements room f.body, { m₁ with scope := frame }, P⟩]) _
    refine (Performs.openFrame fun g hg => hK g (hg.imp_right (.tail _))).bind fun _ m₁ hK₁ => ?_
    refine (Performs.block hK₁).bind_last fun r m₂ hK₂ => ?_
    cases r with
    | normal => exact .result fun g hg => hK₂ g (hg.imp_right (by simp))
    | returned v => exact .result fun g => .inr

theorem performs_statement {s : Statement} (hK : ∀ g, Known m.store [] g → K g)
    (hm : made? ⟨.statement room s, m, P⟩ = none) :
    Performs rounds (execute rounds room s) m K (parts rounds ⟨.statement room s, m, P⟩)
      Completion.values := by
  match room, s with
  | 0, _ => exact .of_error rfl hK
  | 1, .block ss =>
    refine (Performs.here hK).bind_last fun _ m₁ hK₁ => ?_
    exact (Performs.fork hK₁).bind_last fun _ m₂ hK₂ => .of_error rfl hK₂
  | room + 2, .block ss =>
    show Performs rounds _ m K ([] ++ Run.here.after m fun parent m₁ =>
      [] ++ (Run.fork parent).after m₁ fun scope m₂ =>
        [⟨.statements room ss, { m₂ with scope := scope }, P⟩]) _
    refine (Performs.here hK).bind fun _ m₁ hK₁ => ?_
    refine (Performs.fork hK₁).bind fun _ m₂ hK₂ => ?_
    exact .block hK₂
  | room + 1, .expression e =>
    exact (Performs.expression hK).bind_last fun v m₁ hK₁ => .result hK₁
  | room + 1, .ifElse condition a b =>
    refine Performs.bind_expression hK fun u m₁ hK₁ => ?_
    split
    · exact .statement hK₁
    · cases b with
      | none => exact .result hK₁
      | some b => exact .statement hK₁
  | room + 1, .print e =>
    refine (Performs.expression hK).bind_last fun v m₁ hK₁ => ?_
    exact (Performs.print hK₁).bind_last fun _ m₂ hK₂ => .result hK₂
  | _ + 1, .return _ none =>
    exact .result fun g hg => hK g (hg.imp_right (by simp [Completion.values]))
  | room + 1, .return _ (some e) =>
    exact (Performs.expression hK).bind_last fun v m₁ hK₁ => .result fun g => .inr
  | _ + 1, .var name none =>
    exact (Performs.define fun g hg => hK g (hg.imp_right (by simp))).bind_last
      fun _ m₁ hK₁ => .result hK₁
  | room + 1, .var name (some e) =>
    refine (Performs.expression hK).bind_last fun v m₁ hK₁ => ?_
    refine (Performs.define fun g => .inr).bind_last fun _ m₂ hK₂ => .result hK₂
  | room + 1, .while condition body => exact .loop hK
  | _ + 1, .function _ _ _ => cases hm

theorem performs_statements {ss : List Statement} (hK : ∀ g, Known m.store [] g → K g) :
    Performs rounds (executeAll (execute rounds room) ss) m K
      (parts rounds ⟨.statements room ss, m, P⟩) Completion.values := by
  cases ss with
  | nil => exact .result hK
  | cons s ss =>
    refine (Performs.statement hK).bind fun r m₁ hK₁ => ?_
    cases r with
    | normal => exact .statements hK₁
    | returned v => exact .result fun g => .inr

theorem performs_loop {n : Nat} {condition : Expr} {body : Statement}
    (hK : ∀ g, Known m.store [] g → K g) :
    Performs rounds (repeatWhile (evaluate rounds room condition) (execute rounds room body) n) m K
      (parts rounds ⟨.loop room n condition body, m, P⟩) Completion.values := by
  cases n with
  | zero => exact .of_error rfl hK
  | succ n =>
    refine Performs.bind_expression hK fun u m₁ hK₁ => ?_
    split
    · refine (Performs.statement hK₁).bind fun r m₂ hK₂ => ?_
      cases r with
      | normal => exact .loop hK₂
      | returned v => exact .result fun g => .inr
    · exact .result hK₁

end

variable {p q : Point}

/-- What makes no function performs its parts, and nothing else. -/
theorem succession_parts (rounds : Nat) (hm : p.made? = none) :
    Succession rounds p.machine.nextIdentity p.Given (p.parts rounds) (p.leaves rounds).nextIdentity
      (p.Yields rounds) := by
  obtain ⟨task, m, P⟩ := p
  have hK (g : Function) (hg : Known m.store [] g) : Given ⟨task, m, P⟩ g := hg.of_store
  cases task with
  | expression room e => exact (performs_expression hK hm).succession
  | expressions room es => exact (performs_expressions hK).succession
  | call room f vs => exact (performs_call fun g hg => hg).succession
  | statement room s => exact (performs_statement hK hm).succession
  | statements room ss => exact (performs_statements hK).succession
  | loop room n condition body => exact (performs_loop hK).succession

theorem identity_of_made {c : Closure} (hm : p.made? = some c) :
    c.identity = p.machine.nextIdentity := by
  unfold made? at hm
  split at hm <;> cases hm <;> rfl

/-- What makes a function takes one identity, and performs nothing else. -/
theorem leaves_of_made (rounds : Nat) {c : Closure} (hm : p.made? = some c) :
    p.parts rounds = [] ∧ (p.leaves rounds).nextIdentity = p.machine.nextIdentity + 1 ∧
      ∀ g, p.Yields rounds g → p.Given g ∨ g = .closure c := by
  obtain ⟨task, m, P⟩ := p
  have hknown {c : Closure} {g : Function} (h : Known m.store [.function (.closure c)] g) :
      Given ⟨task, m, P⟩ g ∨ g = .closure c := by
    rcases h with h | h
    · exact .inl (.inl h)
    · cases List.mem_singleton.1 h
      exact .inr rfl
  unfold made? at hm
  split at hm
  · next heq =>
    cases heq
    cases hm
    exact ⟨rfl, rfl, fun g hg => hknown hg⟩
  · next heq =>
    cases heq
    cases hm
    exact ⟨rfl, rfl, fun g hg => hknown (Known.define hg)⟩
  · cases hm

end Point
end Lox
