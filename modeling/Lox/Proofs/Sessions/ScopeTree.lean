import Lox.Proofs.Evaluation.Confinement
import Lox.Proofs.Scoping.Tree
import Lox.Proofs.Sessions.Evaluations

/-!
# The tree of scopes in a session

At any time of a session, and at every point of an evaluation in it, the scopes are a tree below the
global one, and the current scope and the scopes of all functions belong to it. What happens in
between only adds to the tree: parents stay, names stay, and a block or a call gets a scope that was
not there.
-/
namespace Lox

/-- The scope of a function is there. -/
def Store.Houses (s : Store Value) (v : Value) : Prop := ∀ id : Nat, v.ClosesOver id → id < s.size

/-- The scopes are a tree, in which all functions have their scopes. -/
structure Store.Closed (s : Store Value) : Prop where
  tree : s.Tree
  functions : ∀ v, s.Has v → s.Houses v

namespace Store

variable {s s' : Store Value} {v : Value}

theorem Houses.later (h : s.Houses v) (hl : s.Later s') : s'.Houses v :=
  fun id hid => Nat.lt_of_lt_of_le (h id hid) hl.size

namespace Closed

theorem initial : (Store.initial : Store Value).Closed where
  tree := tree_initial
  functions v hv := absurd hv (not_has_initial v)

theorem define (h : s.Closed) (hv : s.Houses v) (id : Nat) (name : String) :
    (s.define id name v).Closed where
  tree := h.tree.define id name v
  functions w hw := by
    have hl := Store.Later.define s id name v
    rcases has_define hw with rfl | hold
    · exact hv.later hl
    · exact (h.functions w hold).later hl

theorem fork (h : s.Closed) {id : Nat} (hid : id < s.size) : (s.fork id).Closed where
  tree := h.tree.fork hid
  functions w hw := (h.functions w (has_fork hw)).later (.fork s id)

theorem frame (h : s.Closed) {id : Nat} (hid : id < s.size) (parameters : List Token)
    {vs : List Value} (hvs : ∀ v ∈ vs, s.Houses v) : (s.frame id parameters vs).Closed := by
  have hfold (pairs : List (Token × Value)) (store : Store Value) (hl : s.Later store)
      (hs : store.Closed) (hp : ∀ pair ∈ pairs, s.Houses pair.2) :
      (pairs.foldl (fun store pair => store.define s.size pair.1.lexeme pair.2) store).Closed := by
    induction pairs generalizing store with
    | nil => exact hs
    | cons pair pairs ih =>
      obtain ⟨hpair, hpairs⟩ := List.forall_mem_cons.1 hp
      exact ih _ (hl.trans (.define _ _ _ _)) (hs.define (hpair.later hl) _ _) hpairs
  exact hfold _ _ (.fork s id) (h.fork hid) fun pair hpair => hvs _ (List.of_mem_zip hpair).2

end Closed

end Store

/-- Code is evaluated in scopes that are there. -/
def Invariant.closed : Invariant where
  store s := s.Closed
  value s v := s.Houses v
  node s id _ := id < s.size
  value_later hl hv := hv.later hl
  node_later hl hn := Nat.lt_of_lt_of_le hn hl.size
  part hn _ := hn
  plain hv id hid := by
    cases hid with
    | closure c => exact absurd rfl (hv c)
  lookUp hs _ _ hv := hs.functions _ (Store.has_of_valueIn? hv)
  assign hs _ hv _ := hs.define hv _ _
  define hs _ hv := hs.define hv _ _
  close _ hn _ id hid := by
    cases hid with
    | closure c => exact hn
  block hs hn := ⟨hs.fork hn, fun _ _ => by simp⟩
  frame {s c vs} hs hc hvs := by
    have hid : c.scope < s.size := hc _ (.closure c)
    refine ⟨hs.frame hid c.parameters hvs, fun _ _ => ?_⟩
    exact Nat.lt_of_lt_of_le (by simp) (Store.Later.frame_of_fork s c.scope c.parameters vs).size

/-- The way outwards from a scope comes to the global one. -/
def Store.Rooted (s : Store Value) (id : Nat) : Prop :=
  ∃ depth, s.ancestor? depth id = some Store.global

/-- The global scope is the only one without a parent, and the way outwards from the current scope
and from the scope of every function comes to it. -/
structure Machine.InTree (m : Machine) : Prop where
  size : Store.global < m.store.size
  root : ∀ id < m.store.size, m.store.parent? id = none ↔ id = Store.global
  current : m.store.Rooted m.scope
  functions : ∀ v id, m.store.Has v → v.ClosesOver id → m.store.Rooted id

theorem Store.Closed.rooted {s : Store Value} (h : s.Closed) {id : Nat} (hid : id < s.size) :
    s.Rooted id := by
  obtain ⟨depth, -, hdepth⟩ := h.tree.exists_ancestor?_global hid
  exact ⟨depth, hdepth⟩

theorem Store.Closed.inTree {m : Machine} (h : m.store.Closed) (hscope : m.scope < m.store.size) :
    m.InTree where
  size := h.tree.size
  root _ hid := h.tree.parent?_eq_none_iff hid
  current := h.rooted hscope
  functions v id hv hid := h.rooted (h.functions v hv id hid)

/-- A scope that was not there is opened inside another one. -/
structure Machine.Opens (m : Machine) (parent scope : ScopeId) (m' : Machine) : Prop where
  fresh : m.store.scope? scope = none
  parent : m'.store.parent? scope = some parent
  later : m.Later m'

theorem Machine.Opens.size {m : Machine} {parent : ScopeId} {s : Store Value}
    (hs : (m.store.fork parent).Later s) : m.Opens parent m.store.size { m with store := s } where
  fresh := m.store.scope?_eq_none (Nat.le_refl _)
  parent := (hs.parents _ (by simp)).trans (m.store.parent?_fork_self parent)
  later := .of_store ((Store.Later.fork _ _).trans hs)

/-- What holds of the scopes in the evaluation at a point. -/
structure Point.KeepsTree (rounds : Nat) (p : Point) : Prop where
  begins : p.machine.InTree
  /-- The functions that a call gets, and those that come out of the evaluation, belong to the tree
  as well. -/
  arguments : ∀ v ∈ p.arguments, ∀ id, v.ClosesOver id → p.machine.store.Rooted id
  ends : (p.leaves rounds).InTree
  results : ∀ v ∈ p.results rounds, ∀ id, v.ClosesOver id → (p.leaves rounds).store.Rooted id
  /-- The evaluation ends in the scope in which it began. -/
  back : (p.leaves rounds).scope = p.machine.scope
  /-- Its parts begin there too, if the task opens no scope, and else in a scope that is new. -/
  same : ∀ q, p.Enters rounds q → p.opens? = none → q.machine.scope = p.machine.scope
  opened : ∀ q parent, p.Enters rounds q → p.opens? = some parent →
    p.machine.store.scope? q.machine.scope = none ∧
    q.machine.store.parent? q.machine.scope = some parent
  /-- A block is executed in a new scope inside the current one. -/
  block : ∀ room ss, p.task = .statement (room + 1) (.block ss) → ∃ scope m,
    p.machine.Opens p.machine.scope scope m ∧
    Eval.execute rounds (room + 1) (.block ss) p.machine = Eval.block rounds room scope ss m
  /-- The body of a function is executed in a new scope inside that of the function. -/
  call : ∀ room c vs, p.task = .call (room + 1) (.closure c) vs → ∃ scope m,
    p.machine.Opens c.scope scope m ∧
    Eval.invoke rounds (room + 1) (.closure c) vs p.machine =
      (Eval.block rounds room scope c.body >>= fun
        | .normal => pure .nil
        | .returned v => pure v) m
  /-- Each evaluation in this one begins and ends between its beginning and its end. -/
  within : ∀ q, Relation.ReflTransGen (Point.Enters rounds) p q →
    p.machine.store.Later q.machine.store ∧
    q.machine.store.Later (q.leaves rounds).store ∧
    q.machine.store.Later (p.leaves rounds).store ∧
    (q.leaves rounds).store.Later (p.leaves rounds).store
  /-- The stores at the times in it come one after the other. -/
  times : (moments rounds (p.events rounds)).Pairwise Store.Later

namespace Point

variable {rounds : Nat} {p q : Point}

/-- An evaluation that is come to ends before the one that comes to it. -/
theorem later_leaves_of_reaches (hp : p.machine.scope < p.machine.store.size)
    (h : Relation.ReflTransGen (Enters rounds) p q) :
    (q.leaves rounds).store.Later (p.leaves rounds).store := by
  obtain ⟨us, vs, hevents⟩ := events_of_reaches h
  have heq : p.events rounds = (us ++ .begins q :: q.happenings rounds) ++ .ends q :: vs := by
    rw [hevents, events_eq rounds q]
    simp
  have hcourse := happens rounds p hp
  rw [Happens, heq] at hcourse
  exact (hcourse.at_machine rfl).2.later

/-- In a closed store the scopes of an evaluation are a tree all the time. -/
theorem keepsTree {m : Machine} (h : Invariant.closed.At m p)
    (hscope : p.machine.scope < p.machine.store.size) : p.KeepsTree rounds := by
  have hl := later_leaves rounds p
  obtain ⟨hends, hresults⟩ := h.leaves rounds
  have hback : (p.leaves rounds).scope < (p.leaves rounds).store.size := by
    rw [hl.scope]
    exact Nat.lt_of_lt_of_le hscope hl.store.size
  constructor
  case begins => exact h.store.inTree hscope
  case arguments =>
    obtain ⟨task, m₁, P⟩ := p
    intro v hv id hid
    cases task with
    | call room f vs =>
      obtain ⟨hf, hvs⟩ := h.task
      rcases List.mem_cons.1 hv with rfl | hv
      · exact h.store.rooted (hf id hid)
      · exact h.store.rooted (hvs v hv id hid)
    | _ => cases hv
  case ends => exact hends.inTree hback
  case results => exact fun v hv id hid => hends.rooted (hresults v hv id hid)
  case back => exact hl.scope
  case same =>
    intro q hq hnone
    rcases hq.scope with ⟨-, hsame⟩ | ⟨parent, hsome, -⟩
    · exact hsame
    · rw [hnone] at hsome
      cases hsome
  case opened => exact fun q parent hq ho => hq.fresh ho
  case block => exact fun room ss _ => ⟨_, _, .size (.refl _), rfl⟩
  case call =>
    exact fun room c vs _ => ⟨_, _, .size (.frame_of_fork _ _ c.parameters vs), rfl⟩
  case within =>
    intro q hq
    have hleaves := later_leaves_of_reaches hscope hq
    have hown := (later_leaves rounds q).store
    exact ⟨later_reached hq, hown, hown.trans hleaves, hleaves⟩
  case times =>
    have hpairwise := (happens rounds p hscope).pairwise_later
    exact (List.pairwise_append.1 (List.pairwise_cons.1 hpairwise).2).1

end Point

namespace Session

variable {limits : Limits} {clock : Clock} {hosts : List HostFunction}

/-- The scopes at every point of a session. -/
theorem Respects.keepsTree {s : Session} {us : List Code} {vs : List Value} {p : Point}
    (h : Respects .closed s vs) (hp : Reached limits s us vs p) : p.KeepsTree limits.rounds := by
  have hat := h.at_reached (fun _ _ hs => hs.tree.size) hp
  obtain ⟨p₀, hbegins, hreaches⟩ := hp
  have hmachine : p₀.machine = s.machine := by cases hbegins <;> rfl
  refine Point.keepsTree hat (Point.scope_lt_of_reaches hreaches ?_)
  rw [hmachine, h.scope]
  exact h.store.tree.size

/-- The scopes of a session are a tree below the global scope, to which the current scope and the
scopes of all functions belong: those in some scope and those that were handed out. The same holds
where an evaluation begins and where it ends. Nothing that happens in a session changes the parent
of a scope or loses a name: not a part of an evaluation, not the end of one, and not a step from one
evaluation to the next. The scope that a block or a call opens was not there before. -/
theorem Stage.scopes_rooted {a : Stage} (ha : (Stage.first clock hosts).Leads limits a) :
    a.session.machine.InTree ∧
    (∀ v ∈ a.held, ∀ id, v.ClosesOver id → a.session.machine.store.Rooted id) ∧
    (∀ p, Reached limits a.session a.units a.held p →
      a.session.machine.store.Later p.machine.store ∧ p.KeepsTree limits.rounds) ∧
    (∀ b, a.Next limits b → ∃ ps es, a.Evaluates limits ps es b) ∧
    (∀ ps es b, a.Evaluates limits ps es b → ∀ p ∈ ps,
      Reached limits a.session a.units a.held p ∧
      (p.leaves limits.rounds).store = b.session.machine.store ∧
      ∀ q, Relation.ReflTransGen (Point.Enters limits.rounds) p q →
        q.machine.store.Later b.session.machine.store ∧
        (q.leaves limits.rounds).store.Later b.session.machine.store) ∧
    (∀ b, a.Leads limits b → ∃ E H, a.Runs limits E H b) ∧
    ∀ E H b, a.Runs limits E H b →
      a.session.machine.store.Later b.session.machine.store ∧
      (∀ q, Within limits E q → ∃ us vs, H = us ++ q.events limits.rounds ++ vs) ∧
      (a.session.machine.store ::
        (moments limits.rounds H ++ [b.session.machine.store])).Pairwise Store.Later := by
  have hany : Invariant.closed.OfAnyCode := fun _ _ hs => hs.tree.size
  have hclosed : Respects .closed a.session a.held :=
    (Respects.start hany .initial clock hosts).leads hany ha
  have hkeeps (p : Point) (hp : Reached limits a.session a.units a.held p) :
      p.KeepsTree limits.rounds := hclosed.keepsTree hp
  refine ⟨hclosed.store.inTree (Leads.scope_lt ha), fun v hv id hid => ?_, fun p hp => ?_,
    fun b hstep => hstep.exists_evaluates, fun ps es b hstep p hp => ?_,
    fun b hab => hab.exists_runs, fun E H b hruns => ?_⟩
  · exact hclosed.store.rooted (hclosed.held v hv id hid)
  · exact ⟨(hclosed.at_reached hany hp).later, hkeeps p hp⟩
  · have hreached : Reached limits a.session a.units a.held p := ⟨p, hstep.begins hp, .refl⟩
    refine ⟨hreached, hstep.store_leaves hp, fun q hq => ?_⟩
    rw [← hstep.store_leaves hp]
    obtain ⟨-, -, hbegins, hends⟩ := (hkeeps p hreached).within q hq
    exact ⟨hbegins, hends⟩
  · have hcourse := hruns.course ha
    exact ⟨hcourse.later, fun q hq => hruns.events_of_within hq, hcourse.pairwise_later⟩

/-- The point at which the host calls the function that it has got. -/
def calledPoint : Point :=
  ⟨.call 20 (.closure ⟨0, some "give", [⟨.identifier, "a", .nil, 1⟩],
    [.return ⟨.return, "return", .nil, 1⟩ (some (.access 0 ⟨.identifier, "a", .nil, 1⟩))], 0⟩) [],
    heldStage.session.machine, []⟩

theorem Stage.scopes_rooted_called :
    (Stage.first 0 []).Leads ⟨20, 1⟩ heldStage ∧
      Reached ⟨20, 1⟩ heldStage.session heldStage.units heldStage.held calledPoint ∧
      calledPoint.machine.InTree ∧
      (∃ q, calledPoint.Enters 1 q ∧ q.machine.scope = 1 ∧
        calledPoint.machine.store.scope? 1 = none ∧
        q.machine.store.parent? 1 = some Store.global) ∧
      (calledPoint.leaves 1).store.parent? 1 = some Store.global := by
  have hleads : (Stage.first 0 []).Leads ⟨20, 1⟩ heldStage := leads_giving.tail (.value "give")
  have hreached :
      Reached ⟨20, 1⟩ heldStage.session heldStage.units heldStage.held calledPoint := by
    have hnone : ∀ v ∈ ([] : List Value), Offered heldStage.held v := nofun
    exact ⟨_, .invoke (f := .closure _) (List.mem_singleton.2 rfl) hnone, .refl⟩
  obtain ⟨-, -, hpoint, -⟩ := Stage.scopes_rooted hleads
  obtain ⟨-, hkeeps⟩ := hpoint _ hreached
  have henters : calledPoint.Enters 1 _ := .functionBody rfl
  obtain ⟨hfresh, hparent⟩ := hkeeps.opened _ Store.global henters rfl
  refine ⟨hleads, hreached, hkeeps.begins, ⟨_, henters, rfl, hfresh, hparent⟩, ?_⟩
  -- When the call is over, its scope is where it was.
  obtain ⟨-, -, hlater, -⟩ := hkeeps.within _ (.single henters)
  exact (hlater.parents 1 (by decide +kernel)).trans hparent

end Session

end Lox
