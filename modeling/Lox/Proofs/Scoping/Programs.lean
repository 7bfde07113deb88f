import Lox.Proofs.Grammar.Soundness
import Lox.Proofs.Scoping.Simulation

/-!
# Whole programs under static scoping

A program that is read and resolved without a report is bound by its table, and the machine on which
it begins agrees with static scoping. What can be seen of its run is therefore what static scoping
prescribes, unless the stack or a loop was exhausted.
-/
namespace Lox

open Binding (Table)

/-- A source text is read as these statements, and they are resolved, both without a report. -/
structure Resolves (limits : Limits) (source : String) (ss : List Statement) : Prop where
  read : ∃ next, Code.ofSource? .program limits.room 0 source = some ⟨.program ss, [], next⟩
  complete : (Binding.resolve limits.room (.program ss)).complete = true
  silent : (Binding.resolve limits.room (.program ss)).reports = []

/-- The table that a program is executed with. -/
def tableOf (limits : Limits) (ss : List Statement) : Table :=
  Table.install [] (Binding.resolve limits.room (.program ss)).entries

/-- The statements that were read, if any. -/
def Code.statementsOf : Option Code.Reading → List Statement
  | some ⟨.program ss, _, _⟩ => ss
  | _ => []

variable {limits : Limits} {source : String} {ss : List Statement}

/-- Every program is read as some statements. -/
theorem Code.ofSource?_program {room : Nat} {site : Site} {r : Code.Reading}
    (h : Code.ofSource? .program room site source = some r) :
    r.code = .program (Code.statementsOf (some r)) := by
  simp only [Code.ofSource?, Code.ofTokens?, Option.map_map] at h
  obtain ⟨parsed, -, rfl⟩ := Option.map_eq_some_iff.1 h
  rfl

theorem Resolves.of_checks
    (hread : (Code.ofSource? .program limits.room 0 source).map (·.diagnostics) = some [])
    (hss : Code.statementsOf (Code.ofSource? .program limits.room 0 source) = ss)
    (hresolve : let resolved := Binding.resolve limits.room (.program ss)
      resolved.complete = true ∧ resolved.reports = []) : Resolves limits source ss := by
  obtain ⟨r, hr, hdiagnostics⟩ := Option.map_eq_some_iff.1 hread
  have hcode := Code.ofSource?_program hr
  refine ⟨⟨r.nextSite, ?_⟩, hresolve.1, hresolve.2⟩
  rw [← hr, hss] at hcode
  rw [hr, ← hcode, ← hdiagnostics]

/-- A program is read as canonical statements, whatever is wrong with its text. -/
theorem Code.canonical_of_ofSource? {room : Nat} {site next : Site} {ds : List Diagnostic}
    (h : Code.ofSource? .program room site source = some ⟨.program ss, ds, next⟩) :
    Statement.AllCanonical ss ∧ FreshSites site (Statement.allSites ss) next := by
  have hend : ∃ t ∈ (Token.scan source).tokens, t.kind = .eof :=
    ⟨Token.endToken source.toList, by simp [Token.scan], rfl⟩
  obtain ⟨parsed, hparsed, hcanonical, hfresh⟩ :=
    Grammar.program?_fresh room site (Token.scan source).tokens hend
  simp only [Code.ofSource?, Code.ofTokens?, hparsed, Option.map_some, Option.some.injEq,
    Code.Reading.mk.injEq, Code.program.injEq] at h
  obtain ⟨rfl, -, rfl⟩ := h
  exact ⟨hcanonical, hfresh⟩

/-- A program without reports is bound by its table. -/
theorem Resolves.allBound (h : Resolves limits source ss) :
    Statement.AllBound (tableOf limits ss) ss [] := by
  obtain ⟨next, hread⟩ := h.read
  obtain ⟨hcanonical, hfresh⟩ := Code.canonical_of_ofSource? hread
  exact Binding.allBound_of_resolve hcanonical hfresh.nodup h.complete h.silent

/-- The machine on which a program is executed in a new session. -/
def startMachine (limits : Limits) (ss : List Statement) (hosts : List HostFunction)
    (clock : Clock) : Machine :=
  { Machine.start (clockFunction :: hosts) clock with table := tableOf limits ss }

namespace Scoping

open Binding (Names)
open Lexical (Cell Env State)

variable {t : Table} {hosts : List HostFunction} {clock : Clock}

theorem store_start (hosts : List HostFunction) (clock : Clock) :
    (Machine.start hosts clock).store = ⟨#[⟨none, (State.start hosts clock).globals⟩]⟩ := by
  have hfold (vs : Values Value) : hosts.foldl
      (fun s h => s.define Store.global h.name (.function (.host h)))
      (⟨#[⟨none, vs⟩]⟩ : Store Value) =
        ⟨#[⟨none, hosts.foldl (fun vs h => vs.put h.name (.function (.host h))) vs⟩]⟩ := by
    induction hosts generalizing vs with
    | nil => rfl
    | cons h hosts ih => exact ih _
  exact hfold []

theorem alikeGlobals_start (w : World) (hosts : List HostFunction) (clock : Clock) :
    AlikeGlobals t w (State.start hosts clock).globals (State.start hosts clock).globals := by
  have hfold (vs : Values Value) (hvs : AlikeGlobals t w vs vs) : AlikeGlobals t w
      (hosts.foldl (fun vs h => vs.put h.name (.function (.host h))) vs)
      (hosts.foldl (fun vs h => vs.put h.name (.function (.host h))) vs) := by
    induction hosts generalizing vs with
    | nil => exact hvs
    | cons h hosts ih => exact ih _ (hvs.put h.name (.plain _ nofun))
  exact hfold [] .nil

/-- The world in which a program begins: a global scope with functions of the host. -/
def World.start (hosts : List HostFunction) (clock : Clock) : World :=
  ⟨[], fun _ _ => none, (Machine.start hosts clock).store, #[]⟩

theorem agrees_start (t : Table) (hosts : List HostFunction) (clock : Clock) :
    Agrees t (World.start hosts clock) { Machine.start hosts clock with table := t }
      (State.start hosts clock) where
  store := rfl
  captured := rfl
  table := rfl
  output := rfl
  identity := rfl
  clock := rfl
  live := by simp [World.start, store_start, Store.size, Store.global]
  outside _ := rfl
  fresh := nofun
  injective := nofun
  unlinked id name hne _ := by
    have hle : 1 ≤ id := Nat.one_le_iff_ne_zero.2 hne
    rw [World.start, store_start, Store.valueIn?, Store.scope?_eq_none _ hle]
    rfl
  linked := nofun
  globals := by
    refine ⟨⟨none, (State.start hosts clock).globals⟩, ?_, alikeGlobals_start _ hosts clock⟩
    simp [World.start, store_start, Store.scope?, Store.global]

theorem linked_start (hosts : List HostFunction) (clock : Clock) :
    Linked (World.start hosts clock) [] .top Store.global where
  live := (agrees_start [] hosts clock).live
  global := by simp
  bound := nofun
  free _ _ := rfl

theorem frontier_start (hosts : List HostFunction) (clock : Clock) :
    Frontier (World.start hosts clock) Store.global [] :=
  nofun

/-- The run of a program on its machine is mirrored by static scoping. -/
theorem mirrors_program {limits' : Limits} (h : Resolves limits source ss)
    (hroom : limits.room ≤ limits'.room) (hrounds : limits.rounds ≤ limits'.rounds) :
    Mirrors .machine (tableOf limits ss) (World.start (clockFunction :: hosts) clock)
      (Eval.executeAll (Eval.execute limits.rounds limits.room) ss)
      (Lexical.executeAll (Lexical.execute limits'.rounds limits'.room) .top ss)
      (startMachine limits ss hosts clock) (State.start (clockFunction :: hosts) clock)
      (BlockMirrored (tableOf limits ss) (World.start (clockFunction :: hosts) clock)
        (startMachine limits ss hosts clock)) := by
  have hm : Mirrored .machine (tableOf limits ss) limits.rounds limits'.rounds limits.room
      limits'.room :=
    mirrored hrounds hroom
  exact mirrors_executeAll hm (agrees_start _ _ _) (linked_start _ _) rfl
    (frontier_start _ _) h.allBound

end Scoping

/-- A value without the place where it keeps variables. -/
def Value.withoutScope : Value → Value
  | .function (.closure c) => .function (.closure { c with scope := 0 })
  | v => v

/-- What a run printed, the globals that it left, its diagnostics, and what ended it without
becoming a diagnostic. -/
structure Observation where
  printed : List String
  globals : Values Value
  diagnostics : List Diagnostic
  abort? : Option Abort

namespace Observation

/-- What is seen of a state with these texts, newest first, and these globals. -/
def ofState (output : List String) (globals : Values Value) : Observation :=
  ⟨output.reverse, globals.map fun x => (x.1, x.2.withoutScope), [], none⟩

/-- What is seen of a run, by what is seen of its last state. -/
def ofRun {σ α : Type} (seen : σ → Observation) : EStateM.Result Failure σ α → Observation
  | .ok _ s => seen s
  | .error (.error e) s => { seen s with diagnostics := (seen s).diagnostics ++ [e.diagnostic] }
  | .error (.abort a) s => { seen s with abort? := some a }

/-- Whether a run was ended by the limits of the machine. -/
def exhausted (o : Observation) : Bool :=
  o.diagnostics.any isStackOverflow || o.abort? = some .stackExhausted ||
    o.abort? = some .roundsExhausted
where
  isStackOverflow : Diagnostic → Bool
    | .runtime _ message => message = RuntimeFault.stackOverflow.message
    | .static _ _ _ => false

end Observation

/-- The globals of a store, in the order in which they were first defined. -/
def Store.globals (s : Store Value) : Values Value :=
  ((s.scope? Store.global).map (·.values)).getD []

def Machine.seen (m : Machine) : Observation := .ofState m.output m.store.globals

def Lexical.State.seen (s : Lexical.State) : Observation := .ofState s.output s.globals

def Session.seen (s : Session) : Observation :=
  { s.machine.seen with diagnostics := s.diagnostics.toList }

/-- Of a program without reports exactly its execution is seen. -/
theorem Session.ofRun_run (h : Resolves limits source ss) (hosts : List HostFunction)
    (clock : Clock) :
    Observation.ofRun Session.seen (Session.run limits source (Session.start clock hosts)) =
      Observation.ofRun Machine.seen
        (Eval.executeAll (Eval.execute limits.rounds limits.room) ss
          (startMachine limits ss hosts clock)) := by
  obtain ⟨next, hread⟩ := h.read
  let begun : Session := ⟨Machine.start (clockFunction :: hosts) clock, .empty, next⟩
  have hunit : read limits .program source (start clock hosts) = .ok (.program ss) begun := by
    simp [read, start, hread, Diagnostics.addAll, begun]
  have hbind : bindNames limits (.program ss) begun =
      .ok () ⟨startMachine limits ss hosts clock, .empty, next⟩ := by
    simp only [bindNames, h.silent, h.complete, if_true]
    rfl
  have hrun : perform limits .program source (start clock hosts) =
      interpret limits (.program ss) ⟨startMachine limits ss hosts clock, .empty, next⟩ := by
    have hblocked (machine : Machine) : blocked ⟨machine, .empty, next⟩ =
        .ok false ⟨machine, .empty, next⟩ := rfl
    simp only [perform, bind, EStateM.bind, hunit, begun, hblocked]
    simp only [Code.isMissing, Bool.false_eq_true, if_false, EStateM.bind, hbind, hblocked, begun]
  simp only [run, bind, EStateM.bind, hrun, interpret, reporting, onMachine]
  cases Eval.executeAll (Eval.execute limits.rounds limits.room) ss
    (startMachine limits ss hosts clock) with
  | ok c m => rfl
  | error f m => cases f <;> rfl

namespace Scoping

open Lexical (State Action)

variable {t : Table} {w : World} {v v' : Value}

theorem Alike.withoutScope (h : Alike t w v v') : v.withoutScope = v'.withoutScope := by
  cases h <;> rfl

theorem AlikeGlobals.withoutScope {xs ys : Values Value} (h : AlikeGlobals t w xs ys) :
    (xs.map fun x => (x.1, x.2.withoutScope)) =
      ys.map fun x => (x.1, x.2.withoutScope) := by
  induction h with
  | nil => rfl
  | cons hxy _ ih => rw [List.map_cons, List.map_cons, hxy.1, hxy.2.withoutScope, ih]

theorem Agrees.seen {m : Machine} {s : State} (h : Agrees t w m s) : m.seen = s.seen := by
  obtain ⟨scope, hscope, halike⟩ := h.globals
  have hglobals : m.store.globals = scope.values := by rw [Store.globals, h.store, hscope]; rfl
  rw [Machine.seen, State.seen, hglobals, h.output, Observation.ofState, Observation.ofState,
    halike.withoutScope]

theorem exhausted_ofRun {α : Type} {f : Failure} (m : Machine) (h : f.Exhausted) :
    (Observation.ofRun (α := α) Machine.seen (.error f m)).exhausted = true := by
  cases f with
  | error e =>
    obtain ⟨token, fault⟩ := e
    obtain rfl : fault = .stackOverflow := h
    simp [Observation.ofRun, Observation.exhausted, Observation.exhausted.isStackOverflow,
      RuntimeError.diagnostic]
  | abort a =>
    cases a with
    | stackExhausted | roundsExhausted => simp [Observation.ofRun, Observation.exhausted]
    | _ => cases h

/-- What mirrors an action looks like it, unless the limits of the machine ended the action. -/
theorem Mirrors.ofRun {α γ : Type} {w : World} {act : Run α} {act' : Action γ} {m : Machine}
    {s : State} {Q : α → Machine → γ → State → Prop} (h : Mirrors .machine t w act act' m s Q)
    (hq : ∀ a m' a' s', Q a m' a' s' → ∃ w, Agrees t w m' s')
    (hend : (Observation.ofRun Machine.seen (act m)).exhausted = false) :
    Observation.ofRun Machine.seen (act m) = Observation.ofRun State.seen (act' s) := by
  cases h with
  | of_ok h h' hq' =>
    obtain ⟨w', hw⟩ := hq _ _ _ _ hq'
    rw [h, h', Observation.ofRun, hw.seen]
    rfl
  | @of_error f _ _ _ h h' hw =>
    rw [h, h']
    cases f <;> simp only [Observation.ofRun, hw.seen]
  | of_exhausted _ h hf =>
    rw [h, exhausted_ofRun _ hf] at hend
    cases hend
  | of_exhausted' hside => cases hside

end Scoping

/-- Evaluation by hops implements static scoping: a program without reports that is not ended by the
limits of the machine prints the same texts, ends with the same error or without one, and leaves the
same globals as it does under static scoping, up to where functions keep their variables. -/
theorem Session.run_eq_lexical {limits' : Limits} {hosts : List HostFunction} {clock : Clock}
    (h : Resolves limits source ss) (hroom : limits.room ≤ limits'.room)
    (hrounds : limits.rounds ≤ limits'.rounds)
    (hend : (Observation.ofRun Session.seen
      (Session.run limits source (Session.start clock hosts))).exhausted = false) :
    Observation.ofRun Session.seen (Session.run limits source (Session.start clock hosts)) =
      Observation.ofRun Lexical.State.seen
        (Lexical.run limits' ss (Lexical.State.start (clockFunction :: hosts) clock)) := by
  rw [Session.ofRun_run h] at hend ⊢
  have hrun := (Scoping.mirrors_program h hroom hrounds).ofRun
    (fun _ _ _ _ ⟨w', hc, _⟩ => ⟨w', hc.agrees⟩) hend
  rw [hrun]
  simp only [Lexical.run, bind, EStateM.bind]
  cases Lexical.executeAll (Lexical.execute limits'.rounds limits'.room) .top ss
    (.start (clockFunction :: hosts) clock) with
  | ok c s => rfl
  | error f s => cases f <;> rfl

/-- A function inside a function that changes a parameter of the outer one, with `\x7b` and `\x7d`
for the braces. -/
def nestedCall : String := "fun f(x)\x7bfun g()\x7bx=true;return x;\x7dreturn g();\x7dprint f(nil);"

def nestedCallStatements : List Statement :=
  Code.statementsOf (Code.ofSource? .program 60 0 nestedCall)

theorem resolves_nestedCall : Resolves ⟨60, 1⟩ nestedCall nestedCallStatements :=
  .of_checks (by decide +kernel) rfl (by decide +kernel)

theorem Session.run_eq_lexical_nestedCall :
    let r := Observation.ofRun Session.seen (Session.run ⟨60, 1⟩ nestedCall (Session.start 0 []))
    Resolves ⟨60, 1⟩ nestedCall nestedCallStatements ∧ r.exhausted = false ∧
      r.printed = ["true"] ∧
      r = Observation.ofRun Lexical.State.seen
        (Lexical.run .standard nestedCallStatements (Lexical.State.start [clockFunction] 0)) := by
  have hend : (Observation.ofRun Session.seen
      (Session.run ⟨60, 1⟩ nestedCall (Session.start 0 []))).exhausted = false := by
    decide +kernel
  refine ⟨resolves_nestedCall, hend, by decide +kernel, ?_⟩
  exact Session.run_eq_lexical resolves_nestedCall (by decide) (by decide) hend

end Lox
