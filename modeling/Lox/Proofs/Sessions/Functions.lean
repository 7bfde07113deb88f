import Lox.Proofs.Evaluation.HandingOn
import Lox.Proofs.Evaluation.Origins
import Lox.Proofs.Sessions.Evaluations

/-!
# Functions are equal if they come from the same execution

A session evaluates one thing after the other, and no function is made in between. So the executions
of declarations and literals in a session can be counted, and every function that appears in it was
made by just one of them or is one of the host. Two functions are equal if they have this in common.
-/
namespace Lox

open Relation (ReflTransGen)

/-- The functions in a machine at its beginning are those of the host. -/
theorem Machine.has_start {hosts : List HostFunction} {clock : Clock} {v : Value}
    (h : (Machine.start hosts clock).store.Has v) : ∃ host, v = .function (.host host) := by
  let OfHost (s : Store Value) : Prop := ∀ v, s.Has v → ∃ host, v = .function (.host host)
  have hinitial : OfHost Store.initial := fun v hv => absurd hv (Store.not_has_initial v)
  have hstart : OfHost (Machine.start hosts clock).store := by
    refine Machine.start_induction hinitial (fun s host hs v hv => ?_) hosts clock
    exact (Store.has_define hv).elim (fun heq => ⟨host, heq⟩) (hs v)
  exact hstart v h

namespace Session

/-- The functions of the host, which are there at any time, and those in a scope or handed out. -/
def Stage.Knows (a : Stage) (f : Function) : Prop :=
  (∃ h, f = .host h) ∨ Known a.session.machine.store a.held f

/-- The identity that is next. -/
def Stage.nextIdentity (a : Stage) : Nat := a.session.machine.nextIdentity

open Point (Performs)

theorem resultsOf_onMachine (act : Run Value) (s : Session) :
    resultsOf (onMachine act) s = act.results ([·]) s.machine := by
  cases hact : act s.machine <;> simp only [resultsOf, onMachine, Run.results, hact]

/-- The execution of a unit performs what it begins with. -/
theorem performs_execution {m : Machine} {K : Function → Prop} (limits : Limits) (unit : Code)
    (hK : ∀ g, Known m.store [] g → K g) :
    Performs limits.rounds (execution limits unit) m K (unit.beginning? limits.room m).toList
      fun _ => [] := by
  match unit with
  | .program ss => exact (Performs.statements hK).bind_last fun _ m₁ hK₁ => .result hK₁
  | .expression none => exact .result hK
  | .expression (some e) =>
    refine (Performs.expression hK).bind_last fun v m₁ hK₁ => ?_
    exact (Performs.print hK₁).bind_last fun _ m₂ hK₂ => .result hK₂

namespace Stage

open Point (Performs Succession)

variable {limits : Limits} {clock : Clock} {hosts : List HostFunction} {a b : Stage}
  {E ps : List Point} {H es : List StoreEvent}

theorem knows_of_offered {s : Session} {us : List Code} {vs : List Value} {f : Function}
    (h : Offered vs (.function f)) : Knows ⟨s, us, vs⟩ f := by
  rcases h with h | h
  · exact .inr (.inr h)
  · cases f with
    | closure c => exact absurd rfl (h c)
    | host host => exact .inl ⟨host, rfl⟩

/-- A step in which nothing is made. -/
theorem succession_of_known {s s' : Session} {us us' : List Code} {vs vs' : List Value}
    (hn : s'.machine.nextIdentity = s.machine.nextIdentity)
    (h : ∀ f, Known s'.machine.store vs' f → Knows ⟨s, us, vs⟩ f) :
    Succession limits.rounds (nextIdentity ⟨s, us, vs⟩) (Knows ⟨s, us, vs⟩) []
      (nextIdentity ⟨s', us', vs'⟩) (Knows ⟨s', us', vs'⟩) := by
  unfold nextIdentity
  rw [hn]
  exact .done fun f hf => hf.elim .inl (h f)

/-- A step that performs some evaluations on the machine. -/
theorem succession_of_performs {α : Type} {act : Run α} {shows : α → List Value} {s s' : Session}
    {us : List Code} {vs ws : List Value}
    (h : Performs limits.rounds act s.machine (Knows ⟨s, us, vs⟩) ps shows)
    (hm : s'.machine = act.leaves s.machine) (hw : ws ⊆ act.results shows s.machine) :
    Succession limits.rounds (nextIdentity ⟨s, us, vs⟩) (Knows ⟨s, us, vs⟩) ps
      (nextIdentity ⟨s', us, ws ++ vs⟩) (Knows ⟨s', us, ws ++ vs⟩) := by
  unfold nextIdentity
  rw [hm]
  refine h.succession.weaken fun f hf => ?_
  rw [Knows, hm] at hf
  rcases hf with hhost | hstore | hheld
  · exact .inl (.inl hhost)
  · exact .inr (.inl hstore)
  · rcases List.mem_append.1 hheld with hresult | hheld
    · exact .inr (.inr (hw hresult))
    · exact .inl (.inr (.inr hheld))

/-- In each step of a session the evaluations come one after the other. -/
theorem Evaluates.succession (h : a.Evaluates limits ps es b) :
    Succession limits.rounds a.nextIdentity a.Knows ps b.nextIdentity b.Knows := by
  cases h with
  | read mode source =>
    have hm := machine_behind_read limits mode source
    exact succession_of_known (by rw [hm]) fun f hf => .inr (hm _ ▸ hf)
  | reserve => exact succession_of_known rfl fun f => .inr
  | clearDiagnostics => exact succession_of_known rfl fun f => .inr
  | bindNames | bindTooDeep =>
    obtain ⟨table, hm⟩ := machine_behind_bindNames limits _ _
    refine succession_of_known (by rw [hm]) fun f hf => .inr ?_
    rwa [hm] at hf
  | @interpret s us vs unit hunit =>
    have hK (f : Function) (hf : Known s.machine.store [] f) : Knows ⟨s, us, vs⟩ f :=
      .inr hf.of_store
    exact succession_of_performs (performs_execution limits unit hK)
      (machine_behind_interpret limits unit s) (List.nil_subset _)
  | @define s us vs v name hv =>
    have hm := machine_behind_define name v s
    refine succession_of_known (by rw [hm]) fun f hf => ?_
    rw [hm] at hf
    rcases hf with hstore | hheld
    · rcases Known.define (.inl hstore) with hold | hmem
      · exact .inr (.inl hold)
      · exact knows_of_offered (List.mem_singleton.1 hmem ▸ hv)
    · exact .inr (.inr hheld)
  | @value s us vs name =>
    obtain ⟨hm, hresults⟩ := machine_behind_value name s
    refine succession_of_known (by rw [hm]) fun f hf => .inr ?_
    rw [hm] at hf
    rcases hf with hstore | hmem
    · exact .inl hstore
    · exact (List.mem_append.1 hmem).imp_left fun hmem => Store.has_of_get (hresults _ hmem)
  | @invoke s us vs f arguments hf ha =>
    have hK (g : Function) (hg : Known s.machine.store (.function f :: arguments) g) :
        Knows ⟨s, us, vs⟩ g := by
      rcases hg with hold | hmem
      · exact .inr (.inl hold)
      · rcases List.mem_cons.1 hmem with heq | hmem
        · exact .inr (.inr (heq ▸ hf))
        · exact knows_of_offered (ha _ hmem)
    exact succession_of_performs (Performs.call hK) (machine_behind_onMachine _ s)
      (resultsOf_onMachine _ s ▸ List.Subset.refl _)

theorem Runs.succession (h : a.Runs limits E H b) :
    Succession limits.rounds a.nextIdentity a.Knows E b.nextIdentity b.Knows := by
  induction h with
  | refl => exact .done fun g hg => hg
  | tail _ hstep ih => exact ih.append (hstep.succession.mono fun g => .inr)

/-- At first there are no functions but those of the host. -/
theorem knows_first {f : Function} (h : (first clock hosts).Knows f) : ∃ host, f = .host host := by
  rcases h with h | hstore | hheld
  · exact h
  · obtain ⟨host, heq⟩ := Machine.has_start hstore
    exact ⟨host, Value.function.inj heq⟩
  · cases hheld

end Stage

/-- The executions of declarations and literals in some evaluations, in order. -/
def made (limits : Limits) (E : List Point) : List Point :=
  E.flatMap (Point.executions limits.rounds)

/-- A function that there is in a session by the time at which `n` functions were made: between two
evaluations, or at the beginning or end of one. -/
inductive Appears (limits : Limits) (first : Stage) (E : List Point) (last : Stage) (n : Nat)
    (f : Function) : Prop where
  | between {E₁ E₂ H₁ H₂ a} (hbefore : first.Runs limits E₁ H₁ a)
    (hafter : a.Runs limits E₂ H₂ last) (hE : E = E₁ ++ E₂) (hn : a.nextIdentity ≤ n)
    (hf : a.Knows f)
  | given {q} (hq : Within limits E q) (hn : q.machine.nextIdentity ≤ n) (hf : q.Given f)
  | yielded {q} (hq : Within limits E q) (hn : (q.leaves limits.rounds).nextIdentity ≤ n)
    (hf : q.Yields limits.rounds f)

section
variable {limits : Limits} {clock : Clock} {hosts : List HostFunction} {a : Stage}
  {E : List Point} {H : List StoreEvent} {n : Nat} {f : Function} {q : Point}

namespace Stage

/-- The executions of a session are counted by their identities. -/
theorem Runs.numbered (h : (first clock hosts).Runs limits E H a) :
    Point.Numbered 0 (made limits E) a.nextIdentity :=
  h.succession.accounted.1

/-- Where a part of an evaluation of a session begins and ends among the executions. -/
theorem Runs.exists_before (h : (first clock hosts).Runs limits E H a) (hq : Within limits E q) :
    ∃ us vs, made limits E = us ++ q.executions limits.rounds ++ vs ∧
      q.machine.nextIdentity = us.length ∧
      ∀ f, q.Given f → (∃ host, f = .host host) ∨ Point.Made us f := by
  obtain ⟨p, hp, hreaches⟩ := hq
  obtain ⟨before, after, rfl⟩ := List.append_of_mem hp
  obtain ⟨hfirst, hknown⟩ := h.succession.before
  obtain ⟨us, vs, hexecutions, hnext, hgiven⟩ := Point.exists_before hreaches
  refine ⟨made limits before ++ us, vs ++ made limits after, ?_, ?_, fun f hf => ?_⟩
  · simp [made, hexecutions]
  · rw [hnext, hfirst, List.length_append]
    exact Nat.zero_add _ ▸ rfl
  · rcases hgiven f hf with hf | hmade
    · refine (hknown f hf).imp knows_first fun hmade => hmade.mono ?_
      exact List.subset_append_left _ _
    · exact .inr (hmade.mono (List.subset_append_right _ _))

end Stage

/-- A function that there is by some time is of the host or was made by then. -/
theorem Appears.early (h : (Stage.first clock hosts).Runs limits E H a)
    (hf : Appears limits (Stage.first clock hosts) E a n f) : f.Early (made limits E) n := by
  cases hf with
  | @between E₁ E₂ H₁ H₂ b hbefore hafter hE hn hf =>
    obtain ⟨hnumbered, horigin⟩ := hbefore.succession.accounted
    have hlength : b.nextIdentity = (made limits E₁).length := hnumbered.next.trans (Nat.zero_add _)
    have happend : made limits E = made limits E₁ ++ made limits E₂ := by simp [made, hE]
    rw [happend]
    exact (Function.Early.of_append ((horigin f hf).imp_left Stage.knows_first)).mono (hlength ▸ hn)
  | given hq hn hf =>
    obtain ⟨us, vs, hmade, hnext, hgiven⟩ := h.exists_before hq
    rw [hmade, List.append_assoc]
    exact (Function.Early.of_append (hgiven f hf)).mono (hnext ▸ hn)
  | @yielded q hq hn hf =>
    obtain ⟨us, vs, hmade, hnext, hgiven⟩ := h.exists_before hq
    obtain ⟨hnumbered, horigin⟩ := Point.accounted limits.rounds q
    -- At its end, the executions in it are behind those before it.
    have hlength : (q.leaves limits.rounds).nextIdentity =
        (us ++ q.executions limits.rounds).length := by
      rw [hnumbered.next, hnext, List.length_append]
    have hyields : (∃ host, f = .host host) ∨ Point.Made (us ++ q.executions limits.rounds) f := by
      rcases horigin f hf with hf | hmade
      · exact (hgiven f hf).imp_right fun hmade => hmade.mono (List.subset_append_left _ _)
      · exact .inr (hmade.mono (List.subset_append_right _ _))
    rw [hmade]
    exact (Function.Early.of_append hyields).mono (hlength ▸ hn)

/-- The executions of a session are the declarations and literals that its evaluations come to. -/
theorem mem_made_iff : q ∈ made limits E ↔ Within limits E q ∧ q.made?.isSome := by
  simp only [made, List.mem_flatMap, Point.mem_executions_iff, Within]
  constructor
  · rintro ⟨p, hp, hreaches, hmade⟩
    exact ⟨⟨p, hp, hreaches⟩, hmade⟩
  · rintro ⟨⟨p, hp, hreaches⟩, hmade⟩
    exact ⟨p, hp, hreaches, hmade⟩

/-- Both operands of `==` are evaluated, and then compared. -/
theorem evaluate_equalEqual {rounds room : Nat} {left right : Expr} {operator : Token}
    {m m₁ m₂ : Machine} {u v : Value} (hop : operator.kind = .equalEqual)
    (hl : Eval.evaluate rounds room left m = .ok u m₁)
    (hr : Eval.evaluate rounds room right m₁ = .ok v m₂) :
    Eval.evaluate rounds (room + 2) (.binary left operator right) m =
      .ok (.bool (u.equal v)) m₂ := by
  show (Run.guardStack operator (Eval.evaluate rounds room left) >>= fun x => _) m = _
  rw [bind_of_ok (Run.guardStack_of_ok hl), bind_of_ok (Run.guardStack_of_ok hr)]
  simp only [Eval.binaryResult, hop]
  rfl

/-- What the host gets came out of an evaluation, or is the value of a global. -/
theorem Stage.Evaluates.of_mem_held {b : Stage} {ps : List Point} {es : List StoreEvent} {v : Value}
    (h : a.Evaluates limits ps es b) (hv : v ∈ b.held) :
    v ∈ a.held ∨ (∃ p ∈ ps, v ∈ p.results limits.rounds) ∨
      ∃ name, a.session.machine.store.get Store.global name = .ok v := by
  cases h with
  | value name =>
    refine (List.mem_append.1 hv).symm.imp_right fun hv => .inr ⟨name, ?_⟩
    exact (machine_behind_value name _).2 v hv
  | invoke hf ha =>
    refine (List.mem_append.1 hv).symm.imp_right fun hv => .inl ⟨_, List.mem_singleton_self _, ?_⟩
    rwa [Session.invoke, resultsOf_onMachine] at hv
  | _ => exact .inl hv

end

/-- What is so of the functions in a session, from its beginning on. -/
structure Traced (limits : Limits) (first : Stage) (E : List Point) (H : List StoreEvent)
    (last : Stage) : Prop where
  /-- The executions are those of the declarations and literals that the evaluations come to. -/
  executed : ∀ q, q ∈ made limits E ↔ Within limits E q ∧ q.made?.isSome
  /-- Each takes as identity the number of those before it. -/
  counted : ∀ i (q : Point), (made limits E)[i]? = some q → q.machine.nextIdentity = i
  total : last.nextIdentity = (made limits E).length
  /-- Every function has just one origin. -/
  origin : ∀ n f, Appears limits first E last n f → ∃! o, f.StemsFrom (made limits E) o
  /-- Functions are equal if they have the same origin. -/
  equal : ∀ n f g, Appears limits first E last n f → Appears limits first E last n g →
    ((Value.function f).equal (.function g) = true ↔
      ∃ o, f.StemsFrom (made limits E) o ∧ g.StemsFrom (made limits E) o)
  /-- So it is when a program compares them. -/
  compared : ∀ room left operator right m P f g m₁ m₂,
    Within limits E ⟨.expression (room + 2) (.binary left operator right), m, P⟩ →
    operator.kind = .equalEqual →
    Eval.evaluate limits.rounds room left m = .ok (.function f) m₁ →
    Eval.evaluate limits.rounds room right m₁ = .ok (.function g) m₂ →
    ∃ b, Eval.evaluate limits.rounds (room + 2) (.binary left operator right) m =
        .ok (.bool b) m₂ ∧
      (b = true ↔ ∃ o, f.StemsFrom (made limits E) o ∧ g.StemsFrom (made limits E) o)
  /-- An execution makes a function that is unequal to all that there are by then. -/
  fresh : ∀ i (q : Point) c, (made limits E)[i]? = some q → q.made? = some c →
    ∀ f, Appears limits first E last i f →
      (Value.function (.closure c)).equal (.function f) = false
  /-- Evaluation hands on functions as they are. -/
  handed : ∀ q, Within limits E q → (∀ e, ¬ q.FailsAt limits.rounds e) →
    ∀ f, .function f ∈ q.results limits.rounds ↔ .function f ∈ q.source limits.rounds
  /-- Parameters hold the arguments, the last one of their name. -/
  parameters : ∀ q (r : Point) room c vs name, Within limits E q → q.Enters limits.rounds r →
    q.task = .call room (.closure c) vs →
    r.machine.store.valueIn? r.machine.scope name =
      ((c.parameters.zip vs).reverse.find? (·.1.lexeme = name)).map (·.2)
  /-- What the host gets came out of an evaluation, or is the value of a global. -/
  handedOut : ∀ (a : Stage) ps es (b : Stage), a.Evaluates limits ps es b → ∀ v ∈ b.held,
    v ∈ a.held ∨ (∃ p ∈ ps, v ∈ p.results limits.rounds) ∨
      ∃ name, a.session.machine.store.get Store.global name = .ok v
  /-- Whatever happens in an evaluation happens in the session, in this order. -/
  contained : ∀ q, Within limits E q → ∃ us vs, H = us ++ q.events limits.rounds ++ vs
  /-- Nothing else happens but what the evaluations do themselves and what the host defines. -/
  happens : ∀ e ∈ H,
    (∃ q, Within limits E q ∧
      (e = .begins q ∨ e ∈ q.opening ∨ e ∈ q.closing limits.rounds ∨ e = .ends q)) ∨
    ∃ E₁ H₁ a name v, first.Runs limits E₁ H₁ a ∧ H₁ <+: H ∧ Offered a.held v ∧
      e = .stores Store.global name v
  /-- Where an evaluation begins or ends, every variable holds what was stored in it last, or else
  what it held at first. -/
  holds : ∀ us e vs m, H = us ++ e :: vs → e.machine? limits.rounds = some m →
    ∀ id name, m.store.valueIn? id name =
      (lastStored? id name us).or (first.session.machine.store.valueIn? id name)
  /-- So it is when everything is over. -/
  lastly : ∀ id name, last.session.machine.store.valueIn? id name =
    (lastStored? id name H).or (first.session.machine.store.valueIn? id name)

/-- Function equality is identity of creation. In every session, two functions are equal if and only
if they stem from the same execution of a declaration or a literal, or are the same function of the
host. Every execution makes a function that is unequal to all that there were before. Whatever
functions pass through hands them on as they are, and a variable holds at any time what was stored
in it last. -/
theorem Stage.functions_traced (limits : Limits) (clock : Clock) (hosts : List HostFunction) :
    (∀ a, (first clock hosts).Leads limits a → ∃ E H, (first clock hosts).Runs limits E H a) ∧
    ∀ E H a, (first clock hosts).Runs limits E H a →
      (first clock hosts).Leads limits a ∧ Traced limits (first clock hosts) E H a := by
  refine ⟨fun a ha => ha.exists_runs, fun E H a h => ⟨h.leads, ?_⟩⟩
  have hcourse := h.course .refl
  have hnumbered := h.numbered
  have hequal (n : Nat) (f g : Function) (hf : Appears limits (first clock hosts) E a n f)
      (hg : Appears limits (first clock hosts) E a n g) :
      (Value.function f).equal (.function g) = true ↔
        ∃ o, f.StemsFrom (made limits E) o ∧ g.StemsFrom (made limits E) o := by
    obtain ⟨o, hfo, -⟩ := hf.early h
    obtain ⟨o', hgo, -⟩ := hg.early h
    refine (hfo.same_iff hnumbered hgo).trans ⟨fun heq => ⟨o, hfo, heq ▸ hgo⟩, ?_⟩
    rintro ⟨o₁, hf₁, hg₁⟩
    exact (hfo.unique hnumbered hf₁).trans (hg₁.unique hnumbered hgo)
  constructor
  case executed => exact fun q => mem_made_iff
  case counted => exact fun i q hq => (hnumbered.identity i q hq).trans (Nat.zero_add i)
  case total => exact hnumbered.next.trans (Nat.zero_add _)
  case origin =>
    intro n f hf
    obtain ⟨o, ho, -⟩ := hf.early h
    exact ⟨o, ho, fun o' ho' => ho'.unique hnumbered ho⟩
  case equal => exact hequal
  case compared =>
    intro room left operator right m P f g m₁ m₂ hq hop hl hr
    have hleft : Within limits E ⟨.expression room left, m, P⟩ := hq.enters .binaryLeft
    have hright : Within limits E ⟨.expression room right, m₁, P⟩ := hq.enters (.binaryRight hl)
    refine ⟨_, evaluate_equalEqual hop hl hr, ?_⟩
    refine hequal _ f g (.yielded hleft (Nat.le_max_left _ _) ?_)
      (.yielded hright (Nat.le_max_right _ _) ?_)
    · exact .inr (by simp [Point.results, Run.results, hl])
    · exact .inr (by simp [Point.results, Run.results, hr])
  case fresh =>
    intro i q c hq hc f hf
    exact (hf.early h).same_eq_false hnumbered hq hc
  case handed => exact fun q _ hok f => Point.mem_results_iff hok f
  case parameters => exact fun q r room c vs name _ henters htask => henters.parameter htask name
  case handedOut => exact fun a ps es b hstep v hv => hstep.of_mem_held hv
  case contained => exact fun q hq => h.events_of_within hq
  case happens => exact fun e he => h.mem_events he
  case holds =>
    intro us e vs m hH hm id name
    rw [hH] at hcourse
    exact (hcourse.at_machine hm).1.valueIn? id name
  case lastly => exact fun id name => hcourse.valueIn? id name

/-- The name of a function. -/
def makeName : Token := ⟨.identifier, "make", .nil, 1⟩

/-- A call of it. -/
def makeCall (site : Site) : Expr := .call (.access site makeName) ⟨.rightParen, ")", .nil, 1⟩ []

/-- It makes a function. -/
def makeBody : List Statement :=
  [.return ⟨.return, "return", .nil, 1⟩ (some (.function ⟨.fun, "fun", .nil, 1⟩ [] []))]

/-- Two of its results are compared. -/
def comparison : Expr := .binary (makeCall 0) ⟨.equalEqual, "==", .nil, 1⟩ (makeCall 1)

def comparing : Code :=
  .program [.function makeName [] makeBody, .expression comparison]

def comparingBound : Session :=
  behind (bindNames ⟨20, 1⟩ comparing) { start 0 [] with nextSite := 2 }

def comparingStage : Stage :=
  ⟨behind (interpret ⟨20, 1⟩ comparing) comparingBound, [comparing], []⟩

/-- Where the program begins. -/
def comparingPoint : Point :=
  ⟨.statements 20 [.function makeName [] makeBody, .expression comparison],
    comparingBound.machine, []⟩

/-- The machine behind the declaration. -/
def declaredMachine : Machine :=
  let m := comparingBound.machine
  let f : Closure := ⟨0, some "make", [], makeBody, Store.global⟩
  { m with store := m.store.define Store.global "make" (.function (.closure f)), nextIdentity := 1 }

/-- What a call makes, in a scope of its own. -/
def madeBy (identity : Nat) (scope : ScopeId) : Function :=
  .closure ⟨identity, none, [], [], scope⟩

/-- What happens when the program is run. -/
def comparingEvents : List StoreEvent := [comparingPoint].flatMap (Point.events 1)

theorem Stage.functions_traced_comparing :
    (first 0 []).Runs ⟨20, 1⟩ [comparingPoint] comparingEvents comparingStage ∧
      (made ⟨20, 1⟩ [comparingPoint]).length = 3 ∧
      Within ⟨20, 1⟩ [comparingPoint] ⟨.expression 19 comparison, declaredMachine, []⟩ ∧
      (∃ m, Eval.evaluate 1 19 comparison declaredMachine = .ok (.bool false) m) ∧
      ¬ ∃ o, (madeBy 1 1).StemsFrom (made ⟨20, 1⟩ [comparingPoint]) o ∧
        (madeBy 2 2).StemsFrom (made ⟨20, 1⟩ [comparingPoint]) o := by
  have hruns : (first 0 []).Runs ⟨20, 1⟩ [comparingPoint] comparingEvents comparingStage := by
    have hreserved : (first 0 []).Runs ⟨20, 1⟩ [] []
        ⟨{ start 0 [] with nextSite := 2 }, [], []⟩ := .tail .refl (.reserve (by decide))
    have hdepth : comparing.depth ≤ 20 := by decide
    exact (hreserved.tail (.bindNames hdepth (by decide) (by decide))).tail
      (.interpret (List.mem_singleton_self _))
  obtain ⟨-, htraced⟩ := Stage.functions_traced ⟨20, 1⟩ 0 []
  obtain ⟨-, htraced⟩ := htraced _ _ _ hruns
  have hnext : comparingPoint.Enters 1
      ⟨.statements 20 [.expression comparison], declaredMachine, []⟩ := .nextStatements rfl
  have hwithin : Within ⟨20, 1⟩ [comparingPoint]
      ⟨.expression 19 comparison, declaredMachine, []⟩ := by
    refine ⟨_, List.mem_singleton_self _, ?_⟩
    exact ((ReflTransGen.single hnext).tail .firstStatement).tail .expression
  let called (site : Site) (m : Machine) : Machine :=
    (Eval.evaluate 1 17 (makeCall site)).leaves m
  have hleft : Eval.evaluate 1 17 (makeCall 0) declaredMachine =
      .ok (.function (madeBy 1 1)) (called 0 declaredMachine) := rfl
  have hright : Eval.evaluate 1 17 (makeCall 1) (called 0 declaredMachine) =
      .ok (.function (madeBy 2 2)) (called 1 (called 0 declaredMachine)) := rfl
  have hfalse : Eval.evaluate 1 19 comparison declaredMachine =
      .ok (.bool false) (called 1 (called 0 declaredMachine)) := rfl
  obtain ⟨b, heval, hb⟩ := htraced.compared _ _ _ _ _ _ _ _ _ _ hwithin rfl hleft hright
  have htotal : comparingStage.nextIdentity = 3 := by decide +kernel
  refine ⟨hruns, htraced.total.symm.trans htotal, hwithin, ⟨_, hfalse⟩, fun h => ?_⟩
  rw [hb.2 h] at heval
  cases heval.symm.trans hfalse

end Session
end Lox
