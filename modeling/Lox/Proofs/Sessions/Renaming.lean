import Lox.Proofs.Evaluation.Renaming
import Lox.Proofs.Grammar.Renaming
import Lox.Proofs.Scanning.Renaming
import Lox.Proofs.Scoping.Renaming
import Lox.Proofs.Sessions.Pieces

/-!
# Programs with other names for local variables

A program that is accepted may use another name for one of its local variables, as long as this name
occurs nowhere in it. The program with the other name is accepted as well, and from every state of a
session both are seen to do the same.
-/
namespace Lox

open Binding (Table resolve)

/-- The scopes of a store, none of them chosen. -/
def Layout.ofStore (s : Store Value) : Layout :=
  s.scopes.toList.map fun scope => (scope.parent, false)

section
variable {ρ : Renaming} {t : Table} {s : Store Value}

theorem Layout.getElem?_ofStore (s : Store Value) (id : ScopeId) :
    (ofStore s)[id]? = (s.scope? id).map fun scope => (scope.parent, false) := by
  simp [ofStore, Store.scope?]

/-- A scope of some depth has a chain of so many scopes, of which none is chosen. -/
theorem Store.Depth.exists_chain {id : ScopeId} {depth : Nat} (h : s.Depth id depth) :
    ∃ marks, (Layout.ofStore s).Chain id marks ∧ ∀ chosen ∈ marks, chosen = false := by
  have hreaches := h.reaches
  clear h
  induction depth generalizing id with
  | zero =>
    obtain rfl := Option.some.inj hreaches
    exact ⟨[], .global, List.forall_mem_nil _⟩
  | succ depth ih =>
    obtain ⟨parent, hparent, hrest⟩ := Option.bind_eq_some_iff.1 hreaches
    obtain ⟨scope, hscope, hp⟩ := Option.bind_eq_some_iff.1 hparent
    obtain ⟨marks, hchain, hmarks⟩ := ih hrest
    refine ⟨false :: marks, .inner ?_ hchain, List.forall_mem_cons.2 ⟨rfl, hmarks⟩⟩
    rw [Layout.getElem?_ofStore, hscope, Option.map_some, hp]

/-- Where no scope is chosen, a value may stay as it is. -/
theorem Value.renames_self {us : List Code} {v : Value} (h : FunctionLayered us s v) :
    v.Renames ρ t (Layout.ofStore s) v := by
  cases v with
  | function f =>
    refine .function ?_
    cases f with
    | host host => exact .host host
    | closure c =>
      obtain ⟨depth, hdepth, -⟩ := h c rfl
      obtain ⟨marks, hchain, hmarks⟩ := hdepth.exists_chain
      have hbody : Statement.RenamesAll ρ t (false :: marks) c.body c.body :=
        Statement.renamesAll_self (List.forall_mem_cons.2 ⟨rfl, hmarks⟩) c.body
      have hclosure : (Function.closure c).Renames ρ t (Layout.ofStore s) _ :=
        .closure hchain (fun p _ => Renaming.fits_of_eq_false rfl p) hbody
      rwa [Renaming.map_token_false] at hclosure
  | _ => exact Value.renames_of_plain fun c h => by cases h

theorem Values.renames_self {us : List Code} {vs : Values Value}
    (h : ∀ entry ∈ vs, FunctionLayered us s entry.2) :
    Values.Renames ρ t (Layout.ofStore s) false vs vs := by
  induction vs with
  | nil => exact .nil
  | cons entry vs ih =>
    obtain ⟨hentry, hvs⟩ := List.forall_mem_cons.1 h
    have hname : entry.1 = ρ.name false entry.1 := (Renaming.name_false entry.1).symm
    exact .cons ⟨fun h => absurd h Bool.false_ne_true, hname, Value.renames_self hentry⟩ (ih hvs)

theorem Store.renames_self {us : List Code} (h : StoreLayered us s) :
    s.Renames ρ t (Layout.ofStore s) s where
  size := by simp [Layout.ofStore, Store.size]
  size' := by simp [Layout.ofStore, Store.size]
  scopes id parent chosen hid := by
    rw [Layout.getElem?_ofStore, Option.map_eq_some_iff] at hid
    obtain ⟨scope, hscope, heq⟩ := hid
    cases heq
    have hvalues : ∀ entry ∈ scope.values, FunctionLayered us s entry.2 := fun entry hentry =>
      h.functions _ ⟨scope, Array.mem_of_getElem? hscope, entry, hentry, rfl⟩
    exact ⟨scope.values, scope.values, hscope, hscope, Values.renames_self hvalues⟩

/-- Both programs begin on the same machine, in the global scope. -/
theorem Machine.renames_self {us : List Code} {m : Machine} (hscope : m.scope = Store.global)
    (hstore : StoreLayered us m.store) :
    m.Renames ρ m.table (Layout.ofStore m.store) [] m where
  rooted := by
    obtain ⟨scope, hglobal⟩ : ∃ scope, m.store.scope? Store.global = some scope :=
      ⟨_, Array.getElem?_eq_getElem hstore.size⟩
    have hparent := hstore.global
    rw [Store.parent?, hglobal, Option.bind_some] at hparent
    rw [Layout.Rooted, Layout.getElem?_ofStore, hglobal, Option.map_some, hparent]
  store := Store.renames_self hstore
  chain := hscope ▸ .global
  table := rfl
  rest := rfl

end

/-- A value without the code of a function. Its identity, its name and the number of its parameters
are left. -/
def Value.withoutCode : Value → Value
  | .function (.closure c) => .function (.closure
    { c with parameters := c.parameters.map fun _ => default, body := [] })
  | v => v

/-- What is seen of a run without its diagnostics, and with the code of all functions left out. -/
def Observation.withoutCode (o : Observation) : Observation :=
  { o with globals := o.globals.map fun x => (x.1, x.2.withoutCode), diagnostics := [] }

@[simp] theorem Observation.printed_withoutCode (o : Observation) :
    o.withoutCode.printed = o.printed := rfl

/-- The same is seen, up to the code of functions, but that the last diagnostic may say of the new
name that it is undefined where it said so of the old one. -/
structure Observation.Renames (ρ : Renaming) (o o' : Observation) : Prop where
  withoutCode : o'.withoutCode = o.withoutCode
  diagnostics : o'.diagnostics = o.diagnostics ∨ ∃ before line,
    o.diagnostics = before ++ [.runtime line (RuntimeFault.undefinedVariable ρ.old).message] ∧
    o'.diagnostics = before ++ [.runtime line (RuntimeFault.undefinedVariable ρ.new).message]

section
variable {ρ : Renaming} {t : Table} {l : Layout} {marks : List Bool} {m m' : Machine}

theorem Value.Renames.withoutCode_eq {v v' : Value} (h : v.Renames ρ t l v') :
    v'.withoutScope.withoutCode = v.withoutScope.withoutCode := by
  cases h with
  | function hf =>
    cases hf with
    | host h => rfl
    | closure _ _ _ => simp [Value.withoutScope, Value.withoutCode, Function.comp_def]
  | _ => rfl

theorem Values.Renames.withoutCode_eq {vs vs' : Values Value}
    (h : Values.Renames ρ t l false vs vs') :
    vs'.map (fun x => (x.1, x.2.withoutScope.withoutCode)) =
      vs.map fun x => (x.1, x.2.withoutScope.withoutCode) := by
  induction h with
  | nil => rfl
  | cons hentry _ ih =>
    rw [List.map_cons, List.map_cons, ih, hentry.2.1, Renaming.name_false,
      hentry.2.2.withoutCode_eq]

/-- Of both machines the same is seen: the global scope is never chosen. -/
theorem Machine.Renames.withoutCode_seen (h : m.Renames ρ t l marks m') :
    m'.seen.withoutCode = m.seen.withoutCode := by
  obtain ⟨vs, vs', hscope, hscope', hvs⟩ := h.store.scopes _ _ _ h.rooted
  have hglobals : m.store.globals = vs := by rw [Store.globals, hscope]; rfl
  have hglobals' : m'.store.globals = vs' := by rw [Store.globals, hscope']; rfl
  have houtput : m'.output = m.output := by rw [h.rest]
  simp only [Machine.seen, Observation.withoutCode, Observation.ofState, hglobals, hglobals',
    houtput, List.map_map, Function.comp_def, hvs.withoutCode_eq]

/-- An error is about the same line, and about the same but for a name. -/
theorem Failure.Renames.diagnostic_eq {e e' : RuntimeError}
    (h : Failure.Renames ρ (.error e) (.error e')) : e'.diagnostic = e.diagnostic ∨ ∃ line,
      e.diagnostic = .runtime line (RuntimeFault.undefinedVariable ρ.old).message ∧
        e'.diagnostic = .runtime line (RuntimeFault.undefinedVariable ρ.new).message := by
  cases h with
  | refl => exact .inl rfl
  | undefined chosen name =>
    by_cases hname : chosen = true ∧ name.lexeme = ρ.old
    · have hnew : (ρ.token chosen name).lexeme = ρ.new := if_pos hname
      refine .inr ⟨name.line, by rw [← hname.2]; rfl, ?_⟩
      rw [hnew]
      rfl
    · have hsame : ρ.token chosen name = name := by
        rw [Renaming.token, Renaming.name, if_neg hname]
      exact .inl (by rw [hsame])

end

namespace Binds

variable {ρ : Renaming} {t : Table} {limits : Limits} {source : String} {first next : Site}
  {ss ss' : List Statement}

/-- What no token of a text is, no token of the program is. -/
theorem unused (h : Binds limits source first ss next)
    (hu : ρ.Unused (Token.scan source).tokens) : ρ.Unused (Statement.allTokens ss) := by
  obtain ⟨-, hread⟩ := Code.ofSource?_eq_some_iff.1 h.read
  rw [Token.tokens_scan] at hread hu
  have htokens := (Grammar.program?_renames (ρ := ρ) (t := []) rfl hread).1
  exact fun token hmem => hu token (htokens hmem)

/-- A program is bound by every table that leads its uses where its own table does. -/
theorem allBound (h : Binds limits source first ss next)
    (ht : ∀ site ∈ Statement.allSites ss, t.lookup site = (tableOf limits ss).lookup site) :
    Statement.AllBound t ss [] :=
  Binding.allBound_of_recorded (Code.canonical_of_ofSource? h.read).1 h.fresh.nodup h.complete
    h.silent ht

/-- The variable of any scope may be renamed. -/
theorem renamesAll (h : Binds limits source first ss next)
    (hu : ρ.Unused (Statement.allTokens ss))
    (ht : ∀ site ∈ Statement.allSites ss, t.lookup site = (tableOf limits ss).lookup site)
    (k : Nat) :
    Statement.RenamesAll ρ t [] ss (Statement.renameAll ρ (tableOf limits ss) k [] 0 ss) := by
  rw [← Statement.renameAll_congr ss ht]
  exact Statement.renamesAll_rename 0 ss (h.allBound ht) hu fun hhead => by cases hhead

theorem of_renamesAll {source' : String} (h : Binds limits source first ss next)
    (hu : ρ.Unused (Statement.allTokens ss))
    (hss : Statement.RenamesAll ρ (tableOf limits ss) [] ss ss')
    (hread : Code.ofSource? .program limits.room first source' =
      some ⟨.program ss', [], next⟩) : Binds limits source' first ss' next := by
  obtain ⟨-, hreports, -⟩ := hss.resolve hu (h.allBound fun _ _ => rfl) h.complete
  rw [h.silent] at hreports
  exact ⟨hread, Nat.le_trans (Nat.le_of_eq hss.depths_eq) h.depth,
    List.eq_nil_of_length_eq_zero hreports⟩

/-- There is a text of the renamed program, and it is accepted. -/
theorem exists_renamed (h : Binds limits source first ss next)
    (hname : Token.isName ρ.new = true) (hu : ρ.Unused (Statement.allTokens ss))
    (hss : Statement.RenamesAll ρ (tableOf limits ss) [] ss ss') :
    ∃ source', Binds limits source' first ss' next := by
  obtain ⟨hfaults, hread⟩ := Code.ofSource?_eq_some_iff.1 h.read
  rw [Token.tokens_scan] at hread
  obtain ⟨ts', hts, hread'⟩ := (Grammar.program?_renames rfl hread).2 [] ss' hss
  obtain ⟨source', hscan⟩ := Token.exists_rewritten_text hname hts
  refine ⟨source', h.of_renamesAll hu hss (Code.ofSource?_eq_some_iff.2 ?_)⟩
  rw [hscan]
  exact ⟨hfaults, hread'⟩

end Binds

/-- A program without a report is bound in a new session. -/
theorem Resolves.exists_binds {limits : Limits} {source : String} {ss : List Statement}
    (h : Resolves limits source ss) : ∃ next, Binds limits source 0 ss next :=
  h.read.imp fun _ hread =>
    ⟨hread, (Binding.resolve_complete_iff _ _).1 h.complete, h.silent⟩

namespace Session

variable {ρ : Renaming} {limits : Limits} {clock : Clock} {hosts : List HostFunction}
  {a : Stage} {s : Session} {us : List Code} {vs : List Value} {source source' : String}
  {ss ss' : List Statement} {next : Site}

/-- What is seen of the execution of a program and of the renamed program. -/
theorem ofRun_ended_renames {t : Table} {l : Layout} {m m' : Machine}
    (hm : m.Renames ρ t l [] m') (hss : Statement.RenamesAll ρ t [] ss ss') (d : Diagnostics) :
    Observation.Renames ρ
      (.ofRun Session.seen
        (ended d next (Eval.executeAll (Eval.execute limits.rounds limits.room) ss m)))
      (.ofRun Session.seen
        (ended d next (Eval.executeAll (Eval.execute limits.rounds limits.room) ss' m'))) := by
  have hend := (shadowedBy limits.rounds limits.room).executeAll hss l (List.prefix_refl l) m m' hm
  cases hact : Eval.executeAll (Eval.execute limits.rounds limits.room) ss m with
  | ok c m₁ =>
    obtain ⟨l₁, c', m₁', -, hact', -, hm₁⟩ := hend.ok hact
    rw [hact']
    exact ⟨hm₁.withoutCode_seen, .inl rfl⟩
  | error f m₁ =>
    obtain ⟨l₁, f', m₁', -, hact', hf, hm₁⟩ := hend.error hact
    rw [hact']
    have hseen := hm₁.withoutCode_seen
    cases f with
    | abort cause =>
      cases hf
      exact ⟨congrArg (fun o : Observation => { o with abort? := some cause }) hseen, .inl rfl⟩
    | error e =>
      obtain ⟨e', rfl⟩ : ∃ e', f' = .error e' := by cases hf <;> exact ⟨_, rfl⟩
      refine ⟨hseen, ?_⟩
      have hlist (e : RuntimeError) : (d.add e.diagnostic).toList = d.toList ++ [e.diagnostic] :=
        Diagnostics.toList_add _ _
      show (d.add e'.diagnostic).toList = (d.add e.diagnostic).toList ∨ _
      rw [hlist, hlist]
      refine hf.diagnostic_eq.imp (fun heq => by rw [heq]) ?_
      rintro ⟨line, heq, heq'⟩
      exact ⟨d.toList, line, (hlist e).trans (by rw [heq]), (hlist e').trans (by rw [heq'])⟩

/-- Once something static was reported, a program without a report is read and nothing else. -/
theorem run_of_blocked (h : Binds limits source s.nextSite ss next)
    (hstatic : s.diagnostics.hasStatic = true) :
    run limits source s = .ok () { s with nextSite := next } := by
  let s₀ : Session := { s with nextSite := next }
  have hunit : read limits .program source s = .ok (.program ss) s₀ := by
    simp [read, h.read, Diagnostics.addAll, s₀]
  have hblocked : blocked s₀ = .ok true s₀ := by rw [blocked_eq, hstatic]
  have hperform : perform limits .program source s = .ok none s₀ := by
    rw [perform, bind_of_ok hunit, bind_of_ok hblocked]
    rfl
  rw [run, bind_of_ok hperform]
  rfl

/-- The table of a session leads the uses of a new program where the table of the program does. -/
theorem lookup_bound (hs : Sound limits s us vs) (h : Binds limits source s.nextSite ss next)
    {site : Site} (hsite : site ∈ Statement.allSites ss) :
    (bound limits ss s.machine).table.lookup site = (tableOf limits ss).lookup site := by
  have hnone : s.machine.table.lookup site = none := by
    refine Option.eq_none_iff_forall_ne_some.2 fun hops hsome => ?_
    obtain ⟨u, hu, hmem⟩ := hs.keys site hops hsome
    exact Nat.not_lt.2 (h.fresh.range site hsite).1 (hs.numbered u hu site hmem)
  have hlookup : (bound limits ss s.machine).table.lookup site =
      ((tableOf limits ss).lookup site).or (s.machine.table.lookup site) :=
    Sound.lookup_install_or _ _ _
  rw [hlookup, hnone, Option.or_none]

/-- From a session in which two programs extend the table in the same way, the same is seen of both
if the one is the other one renamed. -/
theorem run_renames (hs : Sound limits s us vs) (h : Binds limits source s.nextSite ss next)
    (h' : Binds limits source' s.nextSite ss' next)
    (hsame : bound limits ss' s.machine = bound limits ss s.machine)
    (hss : Statement.RenamesAll ρ (bound limits ss s.machine).table [] ss ss') :
    Observation.Renames ρ (.ofRun Session.seen (run limits source s))
      (.ofRun Session.seen (run limits source' s)) := by
  cases hstatic : s.diagnostics.hasStatic with
  | true =>
    rw [run_of_blocked h hstatic, run_of_blocked h' hstatic]
    exact ⟨rfl, .inl rfl⟩
  | false =>
    rw [run_of_binds h hstatic, run_of_binds h' hstatic, hsame]
    have hm : (bound limits ss s.machine).Renames ρ _ _ [] (bound limits ss s.machine) :=
      Machine.renames_self hs.scope hs.layered
    exact ofRun_ended_renames hm hss s.diagnostics

/-- A local name is only a name. From every session, let a program be read and bound without a
report, and let a name be given that is no token of it. Then the variable that the program declares
in any of its local scopes, as a parameter or with `var`, can be called by this name, together with
all uses that the table of the program leads to this scope under the old name. The program with the
other name is read and bound without a report as well, and from this session the same is seen of
both: they print the same, leave the same globals up to the code of functions, and end with the same
error or without one, but that the error may be about the new name where it is about the old one. -/
theorem Stage.run_renamed (ha : (Stage.first clock hosts).Leads limits a)
    (h : Binds limits source a.session.nextSite ss next) (hname : Token.isName ρ.new = true)
    (hunused : ∀ token ∈ (Token.scan source).tokens, token.lexeme ≠ ρ.new) (k : Nat) :
    let ss' := Statement.renameAll ρ (tableOf limits ss) k [] 0 ss
    (∃ source', Binds limits source' a.session.nextSite ss' next) ∧
      ∀ source', Binds limits source' a.session.nextSite ss' next →
        Observation.Renames ρ (.ofRun Session.seen (run limits source a.session))
          (.ofRun Session.seen (run limits source' a.session)) := by
  intro ss'
  have hs := Stage.sound ha
  have hu : ρ.Unused (Statement.allTokens ss) := h.unused hunused
  have hss : Statement.RenamesAll ρ (tableOf limits ss) [] ss ss' :=
    h.renamesAll hu (fun _ _ => rfl) k
  refine ⟨h.exists_renamed hname hu hss, fun source' h' => ?_⟩
  have hbound : Statement.RenamesAll ρ (bound limits ss a.session.machine).table [] ss ss' :=
    h.renamesAll hu (fun _ hsite => lookup_bound hs h hsite) k
  obtain ⟨-, -, hinstall⟩ := hss.resolve hu (h.allBound fun _ _ => rfl) h.complete
  refine run_renames hs h h' ?_ hbound
  rw [bound, hinstall]
  rfl

/-- A program that calls a function of an outer variable where an inner one hides it, and fails. -/
def shadowing : String :=
  "\x7bvar a = 1; fun f(x) \x7bprint a + x;\x7d \x7bvar a = 2; f(a);\x7d a = 3; f(a);\n-nil;\x7d"

theorem resolves_shadowing : Resolves ⟨60, 1⟩ shadowing (statementsIn shadowing) :=
  .of_checks (by decide +kernel) rfl (by decide +kernel)

theorem seen_shadowing :
    let o := Observation.ofRun Session.seen (run ⟨60, 1⟩ shadowing newStage.session)
    o.printed = ["3", "6"] ∧
      o.diagnostics = [.runtime 2 RuntimeFault.operandNotNumber.message] := by
  decide +kernel

/-- Only the outer variable is renamed. -/
theorem Stage.run_renamed_shadowing :
    let ss := statementsIn shadowing
    let ss' := Statement.renameAll ⟨"a", "b"⟩ (tableOf ⟨60, 1⟩ ss) 0 [] 0 ss
    (Stage.first 0 []).Leads ⟨60, 1⟩ newStage ∧ Token.isName "b" = true ∧
      (∀ token ∈ (Token.scan shadowing).tokens, token.lexeme ≠ "b") ∧
      (Statement.allTokens ss').map (·.lexeme) =
        ["b", "f", "x", "b", "+", "x", "a", "f", "a", ")", "b", "f", "b", ")", "-"] ∧
      ∃ next source', Binds ⟨60, 1⟩ shadowing newStage.session.nextSite ss next ∧
        Binds ⟨60, 1⟩ source' newStage.session.nextSite ss' next ∧
        let o := Observation.ofRun Session.seen (run ⟨60, 1⟩ source' newStage.session)
        o.printed = ["3", "6"] ∧
          o.diagnostics = [.runtime 2 RuntimeFault.operandNotNumber.message] := by
  intro ss ss'
  have hleads : (Stage.first 0 []).Leads ⟨60, 1⟩ newStage := .refl
  have hname : Token.isName "b" = true := by decide +kernel
  have hunused : ∀ token ∈ (Token.scan shadowing).tokens, token.lexeme ≠ "b" := by decide +kernel
  have htokens : (Statement.allTokens ss').map (·.lexeme) =
      ["b", "f", "x", "b", "+", "x", "a", "f", "a", ")", "b", "f", "b", ")", "-"] := by
    decide +kernel
  obtain ⟨next, h⟩ := resolves_shadowing.exists_binds
  have hrenamed := Stage.run_renamed (ρ := ⟨"a", "b"⟩) hleads h hname hunused 0
  obtain ⟨source', h'⟩ := hrenamed.1
  have hsame := hrenamed.2 source' h'
  obtain ⟨hprinted, hdiagnostics⟩ := seen_shadowing
  refine ⟨hleads, hname, hunused, htokens, next, source', h, h', ?_, ?_⟩
  · have hsamePrinted := congrArg Observation.printed hsame.withoutCode
    rw [Observation.printed_withoutCode, Observation.printed_withoutCode] at hsamePrinted
    exact hsamePrinted.trans hprinted
  · refine hsame.diagnostics.elim (fun heq => heq.trans hdiagnostics) ?_
    rintro ⟨before, line, hlast, -⟩
    rw [hdiagnostics] at hlast
    have hline := congrArg List.getLast? hlast
    rw [List.getLast?_singleton, List.getLast?_concat] at hline
    have hmessage := (Diagnostic.runtime.inj (Option.some.inj hline)).2
    exact absurd hmessage (by decide +kernel)

end Session

end Lox
