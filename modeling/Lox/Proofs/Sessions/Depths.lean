import Lox.Proofs.Scoping.Stops
import Lox.Proofs.Sessions.History

/-!
# Depths and bindings in a session

At every point of every evaluation of a session, as many scopes lie around as were open when names
were bound there. So no recorded use leads past the global scope or to it. And every use is looked
up as its own unit recorded it, in whatever later unit a function is called.
-/
namespace Lox

open Binding (Table resolve walk Among UseKind)

/-- The code that is about to be evaluated. -/
def Task.node? : Task → Option Node
  | .expression _ e => some (.expression e)
  | .statement _ s => some (.statement s)
  | _ => none

namespace Session

/-- The points at which an evaluation of a session may begin. -/
inductive Begins (limits : Limits) (s : Session) (us : List Code) (vs : List Value) :
    Point → Prop where
  | program {ss} (h : .program ss ∈ us) :
    Begins limits s us vs ⟨.statements limits.room ss, s.machine, []⟩
  | expression {e} (h : .expression (some e) ∈ us) :
    Begins limits s us vs ⟨.expression limits.room e, s.machine, []⟩
  | invoke {f arguments} (hf : .function f ∈ vs) (ha : ∀ v ∈ arguments, Offered vs v) :
    Begins limits s us vs ⟨.call limits.room f arguments, s.machine, []⟩

/-- A point of an evaluation of a session. -/
def Reached (limits : Limits) (s : Session) (us : List Code) (vs : List Value) (p : Point) : Prop :=
  ∃ p₀, Begins limits s us vs p₀ ∧ Relation.ReflTransGen (Point.Enters limits.rounds) p₀ p

/-- The uses of a unit, as it recorded them. -/
def recordedAs (limits : Limits) (unit : Code) (site : Site) : Option Nat :=
  (Table.install [] (resolve limits.room unit).entries).lookup site

variable {limits : Limits} {clock : Clock} {hosts : List HostFunction} {s : Session}
  {us : List Code} {vs : List Value} {p : Point}

theorem Sound.at_begins (h : Sound limits s us vs) (hp : Begins limits s us vs p) :
    (Invariant.layered us).At s.machine p := by
  cases hp with
  | program hunit =>
    exact ⟨h.layered, (h.begins hunit).1 _ rfl, .refl _, rfl⟩
  | expression hunit =>
    exact ⟨h.layered, (h.begins hunit).2 _ rfl, .refl _, rfl⟩
  | invoke hf ha =>
    exact ⟨h.layered, ⟨h.held _ hf, fun v hv => h.offered (ha v hv)⟩, .refl _, rfl⟩

/-- Every point of a session is layered. -/
theorem Sound.at_reached (h : Sound limits s us vs) (hp : Reached limits s us vs p) :
    (Invariant.layered us).At s.machine p := by
  obtain ⟨p₀, hbegins, hreaches⟩ := hp
  exact (h.at_begins hbegins).reaches hreaches

/-- The code at a point occurs in a unit, at the depth of the current scope. -/
theorem Sound.occurs_reached (h : Sound limits s us vs) (hp : Reached limits s us vs p) {n : Node}
    (hn : p.task.node? = some n) :
    ∃ d, p.machine.store.Depth p.machine.scope d ∧ Occurs us n d := by
  have ht := (h.at_reached hp).task
  obtain ⟨task, m, P⟩ := p
  cases task with
  | expression _ e =>
    cases hn
    exact ht
  | statement _ st =>
    cases hn
    exact ht
  | _ => cases hn

/-- A use at a point belongs to a unit whose names were bound, and is looked up as this unit
recorded it. -/
theorem Sound.lookup_reached (h : Sound limits s us vs) (hp : Reached limits s us vs p) {n : Node}
    (hn : p.task.node? = some n) {site : Site} (hsite : site ∈ n.sites) :
    ∃ unit ∈ us, site ∈ unit.sites ∧ p.machine.table.lookup site = recordedAs limits unit site := by
  obtain ⟨depth, -, hoccurs⟩ := h.occurs_reached hp hn
  obtain ⟨unit, hunit, hsub, -⟩ := hoccurs.exists_unit
  refine ⟨unit, hunit, hsub hsite, ?_⟩
  rw [(h.at_reached hp).table]
  exact h.recorded unit hunit site (hsub hsite)

/-- A recorded use leads to one of the scopes around it. -/
theorem recordedAs_lt {unit : Code} (hdepth : unit.depth ≤ limits.room) (hnodup : unit.sites.Nodup)
    {kind : UseKind} {site : Site} {name : Token} {depth hops : Nat}
    (huse : Among [.use kind site name] depth unit.visits)
    (h : recordedAs limits unit site = some hops) : hops < depth := by
  obtain ⟨before, after, hvisits, hbefore⟩ := huse
  have hvisits' : unit.visits = before ++ .use kind site name :: after := by simp [hvisits]
  obtain ⟨kind', name', before', after', heq, hleast⟩ :=
    ((Binding.resolve_lexical hdepth hnodup).2.2.1 site hops).1 h
  have hsites := (Binding.perm_sites_code unit).nodup_iff.2 hnodup
  obtain ⟨rfl, rfl⟩ := Binding.use_unique hsites hvisits' heq
  exact Binding.Declares.lt hleast.1 hbefore

/-- The scope that a recorded use leads to is there, and it is not the global one. -/
theorem Sound.exists_ancestor (h : Sound limits s us vs) (hp : Reached limits s us vs p) {n : Node}
    (hn : p.task.node? = some n) {kind : UseKind} {site : Site} {name : Token}
    (huse : n.Uses kind site name) {m : Machine} (hl : p.machine.Later m) {hops : Nat}
    (hlookup : m.table.lookup site = some hops) :
    ∃ id, m.store.ancestor? hops m.scope = some id ∧ id ≠ Store.global := by
  obtain ⟨depth, hdepth, hoccurs⟩ := h.occurs_reached hp hn
  obtain ⟨unit, hunit, hsub, i, hamong⟩ := hoccurs.exists_unit
  have hrecorded : recordedAs limits unit site = some hops := by
    rw [← hlookup, hl.table, (h.at_reached hp).table]
    exact (h.recorded unit hunit site (hsub huse.mem_sites)).symm
  have hlt : hops < 0 + depth := by
    rw [Nat.zero_add, ← Nat.add_zero depth]
    exact recordedAs_lt (h.depth unit hunit) (h.nodup unit hunit) ((huse.among i).trans hamong)
      hrecorded
  rw [hl.scope]
  exact (hdepth.later hl.store).exists_ancestor (Nat.zero_add depth ▸ hlt)

/-- At every point of a session, the scopes around are as many as were open when names were bound
there, above a global scope without a parent. So a recorded use leads to a scope, and not to the
global one. Code with a use in it has one place only; other code may stand at several ones. Where
code is visited, the pass that binds names comes to it, with just as many scopes open. -/
theorem Stage.depth_reached {a : Stage} (ha : (Stage.first clock hosts).Leads limits a)
    (hp : Reached limits a.session a.units a.held p) :
    p.machine.store.parent? Store.global = none ∧
    (∀ n, p.task.node? = some n → ∃ depth, p.machine.store.Depth p.machine.scope depth ∧
      VisitedAt a.units n.visit depth ∧
      (n.sites ≠ [] → ∀ depth', VisitedAt a.units n.visit depth' → depth' = depth)) ∧
    (∀ room site name hops, p.task = .expression room (.access site name) →
      p.machine.table.lookup site = some hops →
      ∃ id, p.machine.store.ancestor? hops p.machine.scope = some id ∧ id ≠ Store.global) ∧
    (∀ room site name e v m hops, p.task = .expression (room + 2) (.assign site name e) →
      Eval.evaluate limits.rounds room e p.machine = .ok v m → m.table.lookup site = some hops →
      ∃ id, m.store.ancestor? hops m.scope = some id ∧ id ≠ Store.global) ∧
    ∀ n depth, VisitedAt a.units n.visit depth ↔ ∃ unit ∈ a.units, ∃ stop,
      unit.ComesTo limits.room stop ∧ stop.node = n ∧ stop.progress.scopes.length = depth := by
  have hsound := Stage.sound ha
  have hat := hsound.at_reached hp
  refine ⟨hat.store.global, fun n hn => ?_, ?_, ?_, visitedAt_iff hsound.depth⟩
  · obtain ⟨depth, hdepth, hoccurs⟩ := hsound.occurs_reached hp hn
    refine ⟨depth, hdepth, hoccurs.visitedAt, fun hne depth' hvisited => ?_⟩
    exact hvisited.occurs.depth_unique hsound.nodup hsound.apart hne hoccurs
  · intro room site name hops htask hlookup
    have hn : p.task.node? = some (.expression (.access site name)) := by rw [htask]; rfl
    exact hsound.exists_ancestor hp hn .access (.refl _) hlookup
  · intro room site name e v m hops htask hvalue hlookup
    have hn : p.task.node? = some (.expression (.assign site name e)) := by rw [htask]; rfl
    obtain ⟨depth, hdepth, hoccurs⟩ := hsound.occurs_reached hp hn
    have hpart : (Invariant.layered a.units).node p.machine.store p.machine.scope
        (.expression e) := ⟨depth, hdepth, hoccurs.part .assigned⟩
    exact hsound.exists_ancestor hp hn .assignment
      (Invariant.evaluated hat.store hpart hvalue).1 hlookup

/-- A function that gives its argument back. -/
def giving : Code :=
  .program [.function ⟨.identifier, "give", .nil, 1⟩ [⟨.identifier, "a", .nil, 1⟩]
    [.return ⟨.return, "return", .nil, 1⟩ (some (.access 0 ⟨.identifier, "a", .nil, 1⟩))]]

/-- A session with this function. -/
def givingStage : Stage :=
  let s : Session := { start 0 [] with nextSite := 1 }
  ⟨behind (interpret ⟨20, 1⟩ giving) (behind (bindNames ⟨20, 1⟩ giving) s), [giving], []⟩

theorem leads_giving : (Stage.first 0 []).Leads ⟨20, 1⟩ givingStage := by
  have hreserved : (Stage.first 0 []).Leads ⟨20, 1⟩ ⟨{ start 0 [] with nextSite := 1 }, [], []⟩ :=
    .single (.reserve (by decide))
  have hdepth : giving.depth ≤ 20 := by decide
  exact (hreserved.tail (.bindNames hdepth (by decide) (by decide))).tail (.interpret (by simp))

/-- The session after its host has got the function. -/
def heldStage : Stage :=
  let s := givingStage.session
  ⟨behind (value "give") s, [giving], resultsOf (value "give") s ++ []⟩

/-- The point where the function reads its parameter, called without an argument. -/
def givingPoint : Point :=
  let m := heldStage.session.machine
  ⟨.expression 17 (.access 0 ⟨.identifier, "a", .nil, 1⟩),
    { m with store := m.store.fork Store.global, scope := m.store.size }, []⟩

theorem reached_giving :
    Reached ⟨20, 1⟩ heldStage.session heldStage.units heldStage.held givingPoint := by
  let body : List Statement :=
    [.return ⟨.return, "return", .nil, 1⟩ (some (.access 0 ⟨.identifier, "a", .nil, 1⟩))]
  have hbody : Relation.ReflTransGen (Point.Enters 1)
      ⟨.call 20 (.closure ⟨0, some "give", [⟨.identifier, "a", .nil, 1⟩], body, 0⟩) [],
        heldStage.session.machine, []⟩ _ := .single (.functionBody rfl)
  have hnone : ∀ v ∈ ([] : List Value), Offered heldStage.held v := nofun
  exact ⟨_, .invoke (f := .closure _) (List.mem_singleton.2 rfl) hnone,
    (hbody.tail .firstStatement).tail .returned⟩

theorem Stage.depth_reached_giving :
    (Stage.first 0 []).Leads ⟨20, 1⟩ heldStage ∧
      Reached ⟨20, 1⟩ heldStage.session heldStage.units heldStage.held givingPoint ∧
      givingPoint.machine.store.Depth givingPoint.machine.scope 1 ∧
      givingPoint.machine.table.lookup 0 = some 0 ∧
      ∃ id, givingPoint.machine.store.ancestor? 0 givingPoint.machine.scope = some id ∧
        id ≠ Store.global := by
  have hleads : (Stage.first 0 []).Leads ⟨20, 1⟩ heldStage := leads_giving.tail (.value "give")
  have hlookup : givingPoint.machine.table.lookup 0 = some 0 := by decide +kernel
  obtain ⟨-, hdepth, haccess, -⟩ := Stage.depth_reached hleads reached_giving
  refine ⟨hleads, reached_giving, ?_, hlookup, haccess _ _ _ 0 rfl hlookup⟩
  obtain ⟨depth, hd, -, hunique⟩ := hdepth _ rfl
  have hvisited :
      VisitedAt heldStage.units (.expression (.access 0 ⟨.identifier, "a", .nil, 1⟩)) 1 :=
    ⟨giving, by simp [heldStage], giving.visits.take 8, giving.visits.drop 9, by rfl, rfl⟩
  obtain rfl := hunique (by simp [Node.sites, Expr.sites]) 1 hvisited
  exact hd

/-- Units only come; none goes. -/
theorem Stage.Leads.exists_units {a b : Stage} (h : a.Leads limits b) :
    ∃ added, b.units = a.units ++ added := by
  induction h with
  | refl => exact ⟨[], (List.append_nil _).symm⟩
  | tail _ hstep ih =>
    obtain ⟨added, hadded⟩ := ih
    cases hstep with
    | @bindNames _ _ _ unit =>
      exact ⟨added ++ [unit], by rw [← List.append_assoc, ← hadded]⟩
    | _ => exact ⟨added, hadded⟩

/-- The table holds what the units recorded, and nothing else. -/
theorem Sound.lookup_eq_some_iff (h : Sound limits s us vs) (site : Site) (hops : Nat) :
    s.machine.table.lookup site = some hops ↔
      ∃ unit ∈ us, recordedAs limits unit site = some hops := by
  constructor
  · intro hlookup
    obtain ⟨unit, hunit, hsite⟩ := h.keys site hops hlookup
    exact ⟨unit, hunit, (h.recorded unit hunit site hsite).symm.trans hlookup⟩
  · rintro ⟨unit, hunit, hrecorded⟩
    have hsite := Sound.mem_sites_of_lookup (h.depth unit hunit) (h.nodup unit hunit) hrecorded
    exact (h.recorded unit hunit site hsite).trans hrecorded

/-- A text that is performed leads on, with at most one unit more. -/
theorem Stage.leads_performed {a : Stage} (ha : (Stage.first clock hosts).Leads limits a)
    (mode : Mode) (source : String) :
    ∃ added, a.Leads limits ⟨behind (perform limits mode source) a.session, a.units ++ added,
        a.held⟩ ∧
      ∀ unit ∈ added, ∃ r, Code.ofSource? mode limits.room a.session.nextSite source = some r ∧
        r.code = unit := by
  obtain ⟨added, s₁, hleads, hend, hread⟩ := Stage.leads_perform (Stage.sound ha) mode source
  refine ⟨added, ?_, hread⟩
  rcases hend with rfl | ⟨unit, hunit, hperform⟩
  · exact hleads
  · have hinterpret := hleads.tail (.interpret (List.mem_append_right _ hunit))
    rwa [behind, ← hperform] at hinterpret

/-- The units of a session do not interfere. Every use has a site of its own, in its unit and in all
of them, and a text that is read gets new ones. The table is made of what each unit recorded, and
whatever happens later, it has for the uses of a unit what it had: so at every point, in whatever
unit a function is called, a use is looked up as its own unit recorded it. -/
theorem Stage.bindings_apart {a : Stage} (ha : (Stage.first clock hosts).Leads limits a) :
    (∀ unit ∈ a.units, unit.sites.Nodup) ∧
    a.units.Pairwise (fun u u' => List.Disjoint u.sites u'.sites) ∧
    (∀ site hops, a.session.machine.table.lookup site = some hops ↔
      ∃ unit ∈ a.units, recordedAs limits unit site = some hops) ∧
    (∀ mode source r, Code.ofSource? mode limits.room a.session.nextSite source = some r →
      r.code.sites.Nodup ∧ ∀ unit ∈ a.units, List.Disjoint unit.sites r.code.sites) ∧
    (∀ source, ∃ added,
      a.Leads limits ⟨behind (run limits source) a.session, a.units ++ added, a.held⟩ ∧
      ∀ unit ∈ added, ∃ r, Code.ofSource? .program limits.room a.session.nextSite source = some r ∧
        r.code = unit) ∧
    (∀ source, ∃ added,
      a.Leads limits ⟨behind (evaluate limits source) a.session, a.units ++ added, a.held⟩ ∧
      ∀ unit ∈ added, ∃ r,
        Code.ofSource? .expression limits.room a.session.nextSite source = some r ∧
        r.code = unit) ∧
    ∀ b, a.Leads limits b →
      (∃ added, b.units = a.units ++ added) ∧
      (∀ site hops, a.session.machine.table.lookup site = some hops →
        b.session.machine.table.lookup site = some hops) ∧
      ∀ q, Reached limits b.session b.units b.held q → ∀ n, q.task.node? = some n →
        ∀ site ∈ n.sites,
          (∃ unit ∈ b.units, site ∈ unit.sites ∧
            q.machine.table.lookup site = recordedAs limits unit site) ∧
          ∀ unit ∈ a.units, site ∈ unit.sites →
            q.machine.table.lookup site = a.session.machine.table.lookup site := by
  have hsound := Stage.sound ha
  refine ⟨hsound.nodup, hsound.apart, hsound.lookup_eq_some_iff, ?_, fun source => ?_,
    Stage.leads_performed ha .expression, fun b hb => ?_⟩
  · intro mode source r hread
    have hfresh := Code.ofSource?_fresh hread
    refine ⟨hfresh.nodup, fun unit hunit site hsite hsite' => ?_⟩
    exact Nat.not_le.2 (hsound.numbered unit hunit site hsite) (hfresh.range site hsite').1
  · rw [behind_run]
    exact Stage.leads_performed ha .program source
  · have hlater := Stage.sound (ha.trans hb)
    obtain ⟨added, hadded⟩ := hb.exists_units
    have hmem (unit : Code) (hunit : unit ∈ a.units) : unit ∈ b.units :=
      hadded ▸ List.mem_append_left _ hunit
    refine ⟨⟨added, hadded⟩, fun site hops hlookup => ?_, fun q hq n hn site hsite => ?_⟩
    · obtain ⟨unit, hunit, hrecorded⟩ := (hsound.lookup_eq_some_iff site hops).1 hlookup
      exact (hlater.lookup_eq_some_iff site hops).2 ⟨unit, hmem unit hunit, hrecorded⟩
    · refine ⟨hlater.lookup_reached hq hn hsite, fun unit hunit hown => ?_⟩
      rw [(hlater.at_reached hq).table, hlater.recorded unit (hmem unit hunit) site hown]
      exact (hsound.recorded unit hunit site hown).symm

/-- A block that calls the function with a variable of its own that is named like the parameter. -/
def askingBlock : Statement :=
  .block [.var ⟨.identifier, "a", .nil, 1⟩ none,
    .expression (.call (.access 1 ⟨.identifier, "give", .nil, 1⟩) ⟨.rightParen, ")", .nil, 1⟩
      [.access 2 ⟨.identifier, "a", .nil, 1⟩])]

def asking : Code := .program [askingBlock]

/-- The session with the names of this unit bound too. -/
def askingStage : Stage :=
  let s : Session := { givingStage.session with nextSite := 3 }
  ⟨behind (bindNames ⟨20, 1⟩ asking) s, [giving, asking], []⟩

theorem leads_asking : givingStage.Leads ⟨20, 1⟩ askingStage := by
  have hreserved : givingStage.Leads ⟨20, 1⟩
      ⟨{ givingStage.session with nextSite := 3 }, [giving], []⟩ := .single (.reserve (by decide))
  have hdepth : asking.depth ≤ 20 := by decide
  exact hreserved.tail (.bindNames hdepth (by decide) (by decide))

/-- The point where the function reads its parameter, called from the unit. -/
def askingPoint : Point :=
  let m := askingStage.session.machine
  let block := (m.store.fork Store.global).define m.store.size "a" .nil
  ⟨.expression 12 (.access 0 ⟨.identifier, "a", .nil, 1⟩),
    { m with
      store := (block.fork Store.global).define block.size "a" .nil
      scope := block.size }, []⟩

theorem reached_asking :
    Reached ⟨20, 1⟩ askingStage.session askingStage.units askingStage.held askingPoint := by
  have hblock : Relation.ReflTransGen (Point.Enters 1)
      ⟨.statements 20 [askingBlock], askingStage.session.machine, []⟩ _ := .single .firstStatement
  have hcall := (((hblock.tail .blockBody).tail (.nextStatements rfl)).tail .firstStatement).tail
    .expression
  have hbody := (hcall.tail (.call rfl rfl rfl)).tail (.functionBody rfl)
  exact ⟨_, .program (List.mem_cons_of_mem _ (List.mem_singleton.2 rfl)),
    (hbody.tail .firstStatement).tail .returned⟩

theorem Stage.bindings_apart_asking :
    (Stage.first 0 []).Leads ⟨20, 1⟩ givingStage ∧ givingStage.Leads ⟨20, 1⟩ askingStage ∧
      Reached ⟨20, 1⟩ askingStage.session askingStage.units askingStage.held askingPoint ∧
      askingStage.session.machine.table.lookup 2 = some 0 ∧
      givingStage.session.machine.table.lookup 0 = some 0 ∧
      askingPoint.machine.table.lookup 0 = some 0 := by
  have hgiving : givingStage.session.machine.table.lookup 0 = some 0 := by decide +kernel
  obtain ⟨-, -, -, -, -, -, hlater⟩ := Stage.bindings_apart leads_giving
  obtain ⟨-, -, hpoint⟩ := hlater askingStage leads_asking
  have hsame := (hpoint askingPoint reached_asking _ rfl 0 (by simp [Node.sites, Expr.sites])).2
    giving (by simp [givingStage]) (by decide)
  exact ⟨leads_giving, leads_asking, reached_asking, by decide +kernel, hgiving,
    hsame.trans hgiving⟩

end Session
end Lox
