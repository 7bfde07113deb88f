import Lox.Proofs.Evaluation.Lines
import Lox.Proofs.Evaluation.Returning
import Lox.Proofs.Grammar.Joining
import Lox.Proofs.Scanning.Joining
import Lox.Proofs.Scoping.Programs
import Lox.Proofs.Scoping.Relabelling
import Lox.Proofs.Sessions.Depths

/-!
# Programs in pieces

Two programs that are run one after the other do what they do as one program, with a line end
between them. Everything that a program goes through is shown to be done piece by piece: scanning,
reading, binding and execution.
-/
namespace Lox

open Binding (Table resolve)
open Relabelling (lines down onward)

namespace Code

variable {room : Nat} {site next : Site} {source : String} {ss : List Statement}

/-- What it is to be read as a program without a report. -/
theorem ofSource?_eq_some_iff : ofSource? .program room site source = some ⟨.program ss, [], next⟩ ↔
    (Token.scan source).faults = [] ∧
      Grammar.program? room site (Token.scan source).tokens = some ⟨ss, [], next⟩ := by
  simp only [ofSource?, ofTokens?, Option.map_map, scanDiagnostics]
  cases Grammar.program? room site (Token.scan source).tokens with
  | none => simp
  | some parsed =>
    obtain ⟨tree, reports, nextSite⟩ := parsed
    simp [and_left_comm, and_comm, and_assoc]

/-- A program is read with any sites. -/
theorem ofSource?_onward (h : ofSource? .program room 0 source = some ⟨.program ss, [], next⟩)
    (n : Site) : ofSource? .program room n source =
      some ⟨.program (Statement.relabelAll (onward n) ss), [], next + n⟩ := by
  obtain ⟨hfaults, hread⟩ := ofSource?_eq_some_iff.1 h
  rw [Token.tokens_scan] at hread
  have hsame (ts : List Token) : ts.map (Token.relabel (onward n)) = ts := List.map_id ts
  have happend := Grammar.program?_append (ρ := onward n) (τ := onward n) rfl
    (fun t => Token.tokensOf_ne_eof) rfl hread
    (Grammar.program?_nil room next (e := Token.endToken source.toList) rfl)
    (Nat.add_right_comm · 1 n) (Nat.add_right_comm · 1 n) rfl
  have hsite : (onward n).site 0 = n := Nat.zero_add n
  rw [hsite, hsame, hsame, List.nil_append, ← Token.tokens_scan] at happend
  rw [ofSource?_eq_some_iff]
  refine ⟨hfaults, happend.trans ?_⟩
  rw [Statement.relabelAll, List.append_nil]
  rfl

/-- A text behind another one is read as it is alone, further down and with sites that go on from
the ones before. -/
theorem ofSource?_join {source' : String} {ss' : List Statement} {next' : Site}
    (h : ofSource? .program room 0 source = some ⟨.program ss, [], next⟩)
    (h' : ofSource? .program room 0 source' = some ⟨.program ss', [], next'⟩) (n : Site) :
    ofSource? .program room n (source ++ "\n" ++ source') =
      some ⟨.program (Statement.relabelAll (onward n) ss ++
        Statement.relabelAll (down (Token.linesAbove source))
          (Statement.relabelAll (onward (next + n)) ss')), [], next' + (next + n)⟩ := by
  obtain ⟨hfaults, hread⟩ := ofSource?_eq_some_iff.1 h
  obtain ⟨hfaults', hread'⟩ := ofSource?_eq_some_iff.1 h'
  rw [Token.tokens_scan] at hread hread'
  let τ := (onward (next + n)).andThen (down (Token.linesAbove source))
  have happend := Grammar.program?_append (ρ := onward n) (τ := τ) rfl
    (fun t => Token.tokensOf_ne_eof) rfl hread hread'
    (Nat.add_right_comm · 1 n) (Nat.add_right_comm · 1 (next + n)) (Nat.zero_add _)
  have hsite : (onward n).site 0 = n := Nat.zero_add n
  have hsame : (Token.tokensOf source).map (Token.relabel (onward n)) = Token.tokensOf source :=
    List.map_id _
  have hdown (ts : List Token) : ts.map (Token.relabel τ) =
      ts.map (Token.relabel (down (Token.linesAbove source))) := rfl
  rw [hsite, hsame, hdown, ← Token.tokens_scan] at happend
  rw [ofSource?_eq_some_iff, Token.scan_join hfaults]
  refine ⟨by rw [hfaults']; rfl, happend.trans ?_⟩
  rw [Statement.relabelAll_relabelAll]
  rfl

end Code

/-- A text is read as these statements, with sites from `first` on and before `next`, and they are
resolved, both without a report. -/
structure Binds (limits : Limits) (source : String) (first : Site) (ss : List Statement)
    (next : Site) : Prop where
  read : Code.ofSource? .program limits.room first source = some ⟨.program ss, [], next⟩
  depth : Statement.depths ss ≤ limits.room
  silent : (resolve limits.room (.program ss)).reports = []

namespace Binds

variable {limits : Limits} {source : String} {ss : List Statement} {first next : Site}

theorem complete (h : Binds limits source first ss next) :
    (resolve limits.room (.program ss)).complete = true :=
  (Binding.resolve_complete_iff _ _).2 h.depth

theorem fresh (h : Binds limits source first ss next) :
    FreshSites first (Statement.allSites ss) next :=
  Code.ofSource?_fresh h.read

/-- The entries of a program are about its own uses. -/
theorem lookup_eq_none (h : Binds limits source first ss next) {site : Site}
    (hsite : site < first ∨ next ≤ site) :
    (Table.install [] (resolve limits.room (.program ss)).entries).lookup site = none := by
  refine Option.eq_none_iff_forall_ne_some.2 fun hops hsome => ?_
  have hdepth : (Code.program ss).depth ≤ limits.room := h.depth
  have hmem := Session.Sound.mem_sites_of_lookup hdepth h.fresh.nodup hsome
  have hrange := h.fresh.range site hmem
  exact hsite.elim (Nat.not_lt.2 hrange.1) (Nat.not_le.2 hrange.2)

/-- Outside of functions there is no `return`. -/
theorem endsNormally (h : Binds limits source first ss next) (rounds room : Nat) :
    EndsNormally (Eval.executeAll (Eval.execute rounds room) ss) := by
  have hsilent := h.silent
  have hunit : (Code.program ss).depth ≤ limits.room := h.depth
  rw [Binding.resolve_eq_walk hunit] at hsilent
  have hreturns : Binding.ReturnsInside (Statement.allVisits ss false) :=
    Binding.returnsInside_of_silent (List.reverse_eq_nil_iff.1 hsilent)
  exact .executeAll fun st hst => endsNormally_execute _ _ st (hreturns.statements st hst)

end Binds

/-- A program that is bound in a new session is bound in any session. -/
theorem Resolves.binds_at {limits : Limits} {source : String} {ss : List Statement} {k : Site}
    (h : Resolves limits source ss)
    (hread : Code.ofSource? .program limits.room 0 source = some ⟨.program ss, [], k⟩) (n : Site) :
    Binds limits source n (Statement.relabelAll (onward n) ss) (k + n) := by
  have hdepth : Statement.depths ss ≤ limits.room :=
    (Binding.resolve_complete_iff _ _).1 h.complete
  refine ⟨Code.ofSource?_onward hread n, ?_, ?_⟩
  · rwa [Statement.depths_relabel]
  · rw [Binding.resolve_relabelAll _ hdepth, h.silent]
    rfl

/-- Two programs that are bound in a new session are bound as one in any session, the second one
further down. -/
theorem Resolves.binds_join {limits : Limits} {source source' : String}
    {ss ss' : List Statement} (h : Resolves limits source ss) (h' : Resolves limits source' ss')
    (n : Site) : ∃ P Q middle next, Binds limits source n P middle ∧
      Binds limits source' middle Q next ∧
      Binds limits (source ++ "\n" ++ source') n
        (P ++ Statement.relabelAll (down (Token.linesAbove source)) Q) next := by
  obtain ⟨k, hread⟩ := h.read
  obtain ⟨k', hread'⟩ := h'.read
  have hP := h.binds_at hread n
  have hQ := h'.binds_at hread' (k + n)
  have hdepth : Statement.depths (Statement.relabelAll (down (Token.linesAbove source))
      (Statement.relabelAll (onward (k + n)) ss')) ≤ limits.room := by
    rw [Statement.depths_relabel]
    exact hQ.depth
  refine ⟨_, _, _, _, hP, hQ, Code.ofSource?_join hread hread' n, ?_, ?_⟩
  · rw [Statement.depths_append]
    exact Nat.max_le.2 ⟨hP.depth, hdepth⟩
  · rw [Binding.resolve_append hP.depth hdepth, hP.silent,
      Binding.resolve_relabelAll _ hQ.depth, hQ.silent]
    rfl

theorem Statement.exists_of_mem_allSites {ss : List Statement} {site : Site}
    (h : site ∈ Statement.allSites ss) : ∃ s ∈ ss, site ∈ s.sites := by
  induction ss with
  | nil => cases h
  | cons s ss ih =>
    rcases List.mem_append.1 h with hs | hss
    · exact ⟨s, List.mem_cons_self, hs⟩
    · obtain ⟨s', hs', hsite⟩ := ih hss
      exact ⟨s', List.mem_cons_of_mem s hs', hsite⟩

section
variable {rounds room : Nat} {ss : List Statement} {m m₁ : Machine} {t u : Table} {c : Completion}

/-- Execution leaves the table as it is. -/
theorem table_of_executeAll
    (h : Eval.executeAll (Eval.execute rounds room) ss m = .ok c m₁) : m₁.table = m.table :=
  ((((matches_of_site (ρ := lines id) rfl m.table).followedBy rounds room).executeAll ss
    m rfl).ok h).1

/-- Entries for other uses do not matter to an execution: those of the statements and of all
functions have sites below `n`, where the tables agree, and the one table has no others. -/
theorem executeAll_of_lookup {n free : Site} (hm : m.table = t)
    (hlookup : ∀ site < n, u.lookup site = t.lookup site)
    (hkeys : ∀ site hops, t.lookup site = some hops → site < n) (hfree : u.lookup free = none)
    (hss : ∀ site ∈ Statement.allSites ss, site < n)
    (hstore : ∀ v, m.store.Has v → ∀ site ∈ v.sites, site < n)
    (hstore₁ : ∀ v, m₁.store.Has v → ∀ site ∈ v.sites, site < n)
    (h : Eval.executeAll (Eval.execute rounds room) ss m = .ok .normal m₁) :
    Eval.executeAll (Eval.execute rounds room) ss { m with table := u } =
      .ok .normal { m₁ with table := u } := by
  -- The sites that do not occur are all taken for one that is free.
  let ρ : Relabelling := ⟨id, fun site => if site < n then site else free⟩
  have hfixes {sites : List Site} (hsites : ∀ site ∈ sites, site < n) : ρ.Fixes sites :=
    ⟨fun _ => rfl, fun site hsite => if_pos (hsites site hsite)⟩
  have hmatches : Matches ρ t u := by
    intro site
    by_cases hlt : site < n
    · rw [show ρ.site site = site from if_pos hlt]
      exact hlookup site hlt
    · rw [show ρ.site site = free from if_neg hlt, hfree]
      exact (Option.eq_none_iff_forall_ne_some.2 fun hops hsome => hlt (hkeys site hops hsome)).symm
  have hok := ((hmatches.followedBy rounds room).executeAll ss).ok hm h
  rwa [Statement.relabelAll_of_fixes ss (hfixes hss),
    Machine.relabel_of_fixes u fun v hv => hfixes (hstore v hv),
    Machine.relabel_of_fixes u fun v hv => hfixes (hstore₁ v hv)] at hok

end

namespace Session

/-- The uses in a function of a session have sites that were handed out. -/
theorem Sound.site_lt {limits : Limits} {s : Session} {us : List Code} {vs : List Value}
    (h : Sound limits s us vs) {v : Value} (hv : s.machine.store.Has v) :
    ∀ site ∈ v.sites, site < s.nextSite := by
  intro site hsite
  match v, hv, hsite with
  | .function (.closure c), hv, hsite =>
    obtain ⟨depth, -, hbody⟩ := h.layered.functions _ hv c rfl
    obtain ⟨st, hst, hmem⟩ := Statement.exists_of_mem_allSites hsite
    obtain ⟨unit, hunit, hsub, -⟩ := (hbody st hst).exists_unit
    exact h.numbered unit hunit site (hsub hmem)

/-- How a step of a session ends with the execution of a program. -/
def ended (d : Diagnostics) (next : Site) : EStateM.Result Failure Machine Completion →
    EStateM.Result Failure Session Unit
  | .ok _ m => .ok () ⟨m, d, next⟩
  | .error (.error e) m => .ok () ⟨m, d.add e.diagnostic, next⟩
  | .error (.abort a) m => .error (.abort a) ⟨m, d, next⟩

variable {limits : Limits} {s : Session} {source : String} {ss : List Statement} {next : Site}

/-- The machine of a session that has bound the names of statements. -/
def bound (limits : Limits) (ss : List Statement) (m : Machine) : Machine :=
  { m with table := m.table.install (resolve limits.room (.program ss)).entries }

/-- A program without a report is executed with its names bound. -/
theorem run_of_binds (h : Binds limits source s.nextSite ss next)
    (hstatic : s.diagnostics.hasStatic = false) :
    run limits source s = ended s.diagnostics next
      (Eval.executeAll (Eval.execute limits.rounds limits.room) ss
        (bound limits ss s.machine)) := by
  let s₀ : Session := { s with nextSite := next }
  let s₁ : Session := { s₀ with machine := bound limits ss s.machine }
  have hunit : read limits .program source s = .ok (.program ss) s₀ := by
    simp [read, h.read, Diagnostics.addAll, s₀]
  have hbind : bindNames limits (.program ss) s₀ = .ok () s₁ := by
    simp only [bindNames, h.silent, h.complete, if_true]
    rfl
  have hblocked (s' : Session) (hs' : s'.diagnostics = s.diagnostics) :
      blocked s' = .ok false s' := by
    rw [blocked_eq, hs', hstatic]
  have hperform : perform limits .program source s = interpret limits (.program ss) s₁ := by
    rw [perform, bind_of_ok hunit, bind_of_ok (hblocked s₀ rfl)]
    simp only [Bool.false_eq_true, if_false, Code.isMissing]
    rw [bind_of_ok hbind, bind_of_ok (hblocked s₁ rfl)]
    rfl
  simp only [run, bind, EStateM.bind, hperform, interpret, reporting, onMachine, s₁, s₀]
  cases Eval.executeAll (Eval.execute limits.rounds limits.room) ss
      (bound limits ss s.machine) with
  | ok c m => rfl
  | error f m => cases f <;> rfl

/-- What is executed of a program that ends without an error. -/
theorem executeAll_of_run (h : Binds limits source s.nextSite ss next)
    (hstatic : s.diagnostics.hasStatic = false) {b : Session}
    (hrun : run limits source s = .ok () b) (hquiet : b.diagnostics = s.diagnostics) :
    Eval.executeAll (Eval.execute limits.rounds limits.room) ss (bound limits ss s.machine) =
      .ok .normal b.machine ∧ b.nextSite = next := by
  rw [run_of_binds h hstatic] at hrun
  cases hact : Eval.executeAll (Eval.execute limits.rounds limits.room) ss
      (bound limits ss s.machine) with
  | ok c m =>
    rw [hact] at hrun
    cases hrun
    exact ⟨by rw [h.endsNormally _ _ _ c m hact], rfl⟩
  | error f m =>
    rw [hact] at hrun
    cases f with
    | abort a => cases hrun
    | error e =>
      cases hrun
      have hlonger := congrArg (fun d : Diagnostics => d.newest.length) hquiet
      simp [Diagnostics.add] at hlonger

/-- The session with all functions that were made so far on one line. -/
def functionsOn (line : Int) (s : Session) : Session :=
  { s with machine := s.machine.relabel (lines fun _ => line) s.machine.table }

end Session

theorem Binding.install_append (t : Table) (es es' : List Binding.Entry) :
    t.install (es ++ es') = (t.install es).install es' :=
  List.foldl_append

/-- What is installed has nothing to do with lines. -/
theorem Binding.install_down (t : Table) (es : List Binding.Entry) (n : Int) :
    t.install (es.map (Binding.Entry.relabel (down n))) = t.install es := by
  rw [Table.install, List.foldl_map]
  rfl

namespace Session

variable {limits : Limits} {clock : Clock} {hosts : List HostFunction} {a : Stage} {b : Session}
  {source source' : String} {P Q : List Statement} {middle next : Site}

/-- The statements of the one program are executed with the uses of the other one in the table as
they are without. -/
theorem executeAll_bound (ha : (Stage.first clock hosts).Leads limits a)
    (hstatic : a.session.diagnostics.hasStatic = false)
    (hP : Binds limits source a.session.nextSite P middle)
    (hQ : Binds limits source' middle Q next) (hrun : run limits source a.session = .ok () b)
    (hquiet : b.diagnostics = a.session.diagnostics) :
    Eval.executeAll (Eval.execute limits.rounds limits.room) P
        (bound limits Q (bound limits P a.session.machine)) =
      .ok .normal (bound limits Q b.machine) := by
  obtain ⟨hact, hnext⟩ := executeAll_of_run hP hstatic hrun hquiet
  have htable := table_of_executeAll hact
  have hsound := Stage.sound ha
  obtain ⟨added, hleads, -⟩ := Stage.leads_performed ha .program source
  have hbehind : behind (perform limits .program source) a.session = b := by
    rw [← behind_run, behind, hrun]
  have hsound' : Sound limits b (a.units ++ added) a.held :=
    hbehind ▸ Stage.sound (ha.trans hleads)
  have hkeys (site : Site) (hops : Nat) (h : b.machine.table.lookup site = some hops) :
      site < middle := by
    obtain ⟨u, hu, hsite⟩ := hsound'.keys site hops h
    exact hnext ▸ hsound'.numbered u hu site hsite
  have hlookup (site : Site) : (bound limits Q b.machine).table.lookup site =
      ((Table.install [] (resolve limits.room (.program Q)).entries).lookup site).or
        (b.machine.table.lookup site) := Sound.lookup_install_or _ _ _
  have hfree : (bound limits Q b.machine).table.lookup next = none := by
    rw [hlookup, hQ.lookup_eq_none (.inr (Nat.le_refl _)), Option.none_or]
    exact Option.eq_none_iff_forall_ne_some.2 fun hops hsome =>
      Nat.not_lt.2 hQ.fresh.le (hkeys next hops hsome)
  have hgo := executeAll_of_lookup (n := middle) (t := b.machine.table)
    (u := (bound limits Q b.machine).table) htable.symm
    (fun site hsite => by rw [hlookup, hQ.lookup_eq_none (.inl hsite), Option.none_or])
    hkeys hfree (fun site hsite => (hP.fresh.range site hsite).2)
    (fun v hv site hsite => Nat.lt_of_lt_of_le (hsound.site_lt hv site hsite) hP.fresh.le)
    (fun v hv => hnext ▸ hsound'.site_lt hv) hact
  have hstart : bound limits Q (bound limits P a.session.machine) =
      { bound limits P a.session.machine with table := (bound limits Q b.machine).table } := by
    rw [bound, ← htable]
    rfl
  rw [hstart, hgo]
  rfl

/-- In pieces and as one program, the same is executed last: the second program, on the machine that
the first one left, alone on its own lines, as one program further down. -/
theorem run_join_eq (ha : (Stage.first clock hosts).Leads limits a)
    (hstatic : a.session.diagnostics.hasStatic = false)
    (hP : Binds limits source a.session.nextSite P middle)
    (hQ : Binds limits source' middle Q next)
    (hPQ : Binds limits (source ++ "\n" ++ source') a.session.nextSite
      (P ++ Statement.relabelAll (down (Token.linesAbove source)) Q) next)
    (hrun : run limits source a.session = .ok () b)
    (hquiet : b.diagnostics = a.session.diagnostics) :
    run limits (source ++ "\n" ++ source') a.session = ended b.diagnostics next
      (Eval.executeAll (Eval.execute limits.rounds limits.room)
        (Statement.relabelAll (down (Token.linesAbove source)) Q) (bound limits Q b.machine)) := by
  have hfirst := executeAll_bound ha hstatic hP hQ hrun hquiet
  have hbound : bound limits (P ++ Statement.relabelAll (down (Token.linesAbove source)) Q)
      a.session.machine = bound limits Q (bound limits P a.session.machine) := by
    have hdepth : Statement.depths (Statement.relabelAll (down (Token.linesAbove source)) Q) ≤
        limits.room := by
      rw [Statement.depths_relabel]
      exact hQ.depth
    rw [bound, Binding.resolve_append hP.depth hdepth, Binding.install_append,
      Binding.resolve_relabelAll _ hQ.depth, Binding.install_down]
    rfl
  rw [run_of_binds hPQ hstatic, hbound, executeAll_append _ _ _ hfirst, hquiet]

/-- Both times the second program is executed last, on the machine that the first one left. -/
theorem exists_last_joined {ss ss' : List Statement} (ha : (Stage.first clock hosts).Leads limits a)
    (hstatic : a.session.diagnostics.hasStatic = false) (h : Resolves limits source ss)
    (h' : Resolves limits source' ss') (hrun : run limits source a.session = .ok () b)
    (hquiet : b.diagnostics = a.session.diagnostics) :
    ∃ Q next, Binds limits source' b.nextSite Q next ∧
      (do run limits source; run limits source' : Step Unit) a.session =
        ended b.diagnostics next (Eval.executeAll (Eval.execute limits.rounds limits.room) Q
          (bound limits Q b.machine)) ∧
      run limits (source ++ "\n" ++ source') a.session =
        ended b.diagnostics next (Eval.executeAll (Eval.execute limits.rounds limits.room)
          (Statement.relabelAll (lines (· + Token.linesAbove source)) Q)
          (bound limits Q b.machine)) := by
  obtain ⟨P, Q, middle, next, hP, hQ, hPQ⟩ := h.binds_join h' a.session.nextSite
  obtain ⟨-, hnext⟩ := executeAll_of_run hP hstatic hrun hquiet
  have hQb : Binds limits source' b.nextSite Q next := hnext.symm ▸ hQ
  refine ⟨Q, next, hQb, ?_, run_join_eq ha hstatic hP hQ hPQ hrun hquiet⟩
  rw [bind_of_ok hrun, run_of_binds hQb (hquiet ▸ hstatic)]

end Session

theorem Machine.relabel_id (m : Machine) : m.relabel (lines id) m.table = m :=
  Machine.relabel_of_fixes _ fun _ _ => ⟨fun _ => rfl, fun _ _ => rfl⟩

/-- The machine with all lines in functions forgotten. -/
def Machine.withoutLines (m : Machine) : Machine := m.relabel (lines fun _ => 0) m.table

theorem Machine.withoutLines_relabel_eq (m : Machine) (f g : Int → Int) (t : Table) :
    (m.relabel (lines f) t).withoutLines = (m.relabel (lines g) t).withoutLines := by
  rw [Machine.withoutLines, Machine.withoutLines, Machine.relabel_relabel,
    Machine.relabel_relabel]
  rfl

/-- In pieces and as one program, the same session is left but for diagnostics and the lines of
functions: the variables are the same in all scopes, also in those that only functions get to. -/
theorem Session.left_join {limits : Limits} {clock : Clock} {hosts : List HostFunction}
    {a : Stage} {b : Session} {source source' : String} {ss ss' : List Statement}
    (ha : (Stage.first clock hosts).Leads limits a)
    (hstatic : a.session.diagnostics.hasStatic = false) (h : Resolves limits source ss)
    (h' : Resolves limits source' ss') (hrun : run limits source a.session = .ok () b)
    (hquiet : b.diagnostics = a.session.diagnostics) :
    let pieces := behind (do run limits source; run limits source') a.session
    let joined := behind (run limits (source ++ "\n" ++ source')) a.session
    joined.machine.withoutLines = pieces.machine.withoutLines ∧
      joined.nextSite = pieces.nextSite := by
  obtain ⟨Q, next, -, hpieces, hjoined⟩ := exists_last_joined ha hstatic h h' hrun hquiet
  let start := bound limits Q b.machine
  -- Nothing is moved in pieces, and only the new statements are in the one program.
  have hstart : start = start.relabel (lines id) start.table := (Machine.relabel_id start).symm
  have hunmoved : Q = Statement.relabelAll (lines id) Q :=
    (Statement.relabelAll_of_fixes Q ⟨fun _ => rfl, fun _ _ => rfl⟩).symm
  have hinPlace : Eval.executeAll (Eval.execute limits.rounds limits.room) Q start =
      Eval.executeAll (Eval.execute limits.rounds limits.room) (Statement.relabelAll (lines id) Q)
        (start.relabel (lines id) start.table) := by
    rw [← hstart, ← hunmoved]
  rw [hinPlace] at hpieces
  rw [show bound limits Q b.machine = start.relabel (lines id) start.table from hstart] at hjoined
  simp only [behind, hpieces, hjoined]
  rcases executeAll_lines limits.rounds limits.room Q start with ⟨c, m, hend⟩ | ⟨f, m, hend⟩
  · rw [hend id id, hend (· + Token.linesAbove source) id]
    exact ⟨m.withoutLines_relabel_eq _ _ _, rfl⟩
  · rw [hend id id, hend (· + Token.linesAbove source) id]
    cases f with
    | error e => exact ⟨m.withoutLines_relabel_eq _ _ _, rfl⟩
    | abort x => exact ⟨m.withoutLines_relabel_eq _ _ _, rfl⟩

/-- What is seen of a run without its diagnostics, and with all lines in functions forgotten. -/
def Observation.withoutLines (o : Observation) : Observation :=
  { o with
    globals := o.globals.map fun x => (x.1, x.2.relabel (lines fun _ => 0))
    diagnostics := [] }

@[simp] theorem Observation.printed_withoutLines (o : Observation) :
    o.withoutLines.printed = o.printed := rfl

theorem Value.withoutScope_relabel (ρ : Relabelling) (v : Value) :
    (v.relabel ρ).withoutScope = v.withoutScope.relabel ρ := by
  cases v with
  | function f => cases f <;> rfl
  | _ => rfl

theorem Store.globals_map (f : Value → Value) (s : Store Value) :
    (s.map f).globals = s.globals.map fun x => (x.1, f x.2) := by
  rw [Store.globals, Store.globals, Store.scope?_map]
  cases s.scope? Store.global <;> rfl

/-- Machines that differ in lines only look the same. -/
theorem Machine.seen_relabel (m : Machine) (f : Int → Int) (t : Table) :
    (m.relabel (lines f) t).seen.withoutLines = m.seen.withoutLines := by
  have hvalue (v : Value) : ((v.relabel (lines f)).withoutScope).relabel (lines fun _ => 0) =
      v.withoutScope.relabel (lines fun _ => 0) := by
    rw [Value.withoutScope_relabel, Value.relabel_relabel]
    rfl
  have hglobals : (m.relabel (lines f) t).store.globals =
      m.store.globals.map fun x => (x.1, x.2.relabel (lines f)) := Store.globals_map _ _
  simp only [Machine.seen, hglobals, Observation.ofState, Observation.withoutLines, List.map_map,
    Function.comp_def, hvalue]
  rfl

namespace Session

/-- What is seen of a step that executes new statements, with other lines in them and in the old
functions. -/
def seenOn (limits : Limits) (ss : List Statement) (m : Machine) (d : Diagnostics) (next : Site)
    (new old : Int → Int) : Observation :=
  .ofRun Session.seen <| ended d next <|
    Eval.executeAll (Eval.execute limits.rounds limits.room) (Statement.relabelAll (lines new) ss)
      (m.relabel (lines old) m.table)

theorem seenOn_id (limits : Limits) (ss : List Statement) (m : Machine) (d : Diagnostics)
    (next : Site) (old : Int → Int) : seenOn limits ss m d next id old = .ofRun Session.seen
      (ended d next (Eval.executeAll (Eval.execute limits.rounds limits.room) ss
        (m.relabel (lines old) m.table))) := by
  rw [seenOn, Statement.relabelAll_of_fixes ss ⟨fun _ => rfl, fun _ _ => rfl⟩]

/-- Nothing else is different then but the line of an error, and this is the line of a new statement
or the line of an old function. -/
theorem seenOn_lines (limits : Limits) (ss : List Statement) (m : Machine) (d : Diagnostics)
    (next : Site) :
    (∃ o, ∀ new old, (seenOn limits ss m d next new old).withoutLines = o) ∧
      ((∀ new old, (seenOn limits ss m d next new old).diagnostics = d.toList) ∨
        ∃ line message, ∃ isNew : Bool, ∀ new old,
          (seenOn limits ss m d next new old).diagnostics =
            d.toList ++ [.runtime (if isNew then new line else old line) message]) := by
  unfold seenOn
  rcases executeAll_lines limits.rounds limits.room ss m with ⟨c, m₁, hend⟩ | ⟨f, m₁, hend⟩
  · simp only [hend]
    exact ⟨⟨_, fun _ _ => m₁.seen_relabel _ _⟩, .inl fun _ _ => rfl⟩
  · simp only [hend]
    cases f with
    | error e =>
      refine ⟨⟨_, fun _ _ => m₁.seen_relabel _ _⟩, .inr
        ⟨e.token.line / 2, e.fault.message, Relabelling.isOdd e.token.line, fun new old => ?_⟩⟩
      exact Diagnostics.toList_add _ _
    | abort a =>
      refine ⟨⟨{ m₁.seen.withoutLines with abort? := some a }, fun new old => ?_⟩,
        .inl fun _ _ => rfl⟩
      exact congrArg (fun o : Observation => { o with abort? := some a }) (m₁.seen_relabel _ _)

/-- Running in pieces is running at once. From any session without a static diagnostic, let two
programs be given that are read and bound without a report, the first of which ends without an
error. Then running one after the other, and running both as one program with a line end between
them, print the same, leave the same globals up to lines and the scopes of functions, and end with
the same error or without one. The error has the same message. It is further down in the one
program, by the lines that the first program takes, if its token comes from the second program; if
it comes from a function that was made before, its line is the same. Of this kind are the tokens
whose line changes when all functions that are there before the second program are moved to some
other line. -/
theorem Stage.run_join {limits : Limits} {clock : Clock} {hosts : List HostFunction} {a : Stage}
    {b : Session} {source source' : String} {ss ss' : List Statement}
    (ha : (Stage.first clock hosts).Leads limits a)
    (hstatic : a.session.diagnostics.hasStatic = false) (h : Resolves limits source ss)
    (h' : Resolves limits source' ss') (hrun : run limits source a.session = .ok () b)
    (hquiet : b.diagnostics = a.session.diagnostics) :
    let pieces := Observation.ofRun Session.seen
      ((do run limits source; run limits source' : Step Unit) a.session)
    let joined := Observation.ofRun Session.seen
      (run limits (source ++ "\n" ++ source') a.session)
    let marked (line : Int) := Observation.ofRun Session.seen
      (run limits source' (b.functionsOn line))
    let before := a.session.diagnostics.toList
    joined.withoutLines = pieces.withoutLines ∧
      ((pieces.diagnostics = before ∧ joined.diagnostics = before ∧
          ∀ line, (marked line).diagnostics = before) ∨
        ∃ line message, ∃ fromSecond : Bool,
          pieces.diagnostics = before ++ [.runtime line message] ∧
          joined.diagnostics = before ++
            [.runtime (if fromSecond then line + Token.linesAbove source else line) message] ∧
          ∀ line', (marked line').diagnostics = before ++
            [.runtime (if fromSecond then line else line') message]) := by
  obtain ⟨Q, next, hQb, hpieces, hjoined⟩ := exists_last_joined ha hstatic h h' hrun hquiet
  have hstatic' : b.diagnostics.hasStatic = false := hquiet ▸ hstatic
  let seenWith := seenOn limits Q (bound limits Q b.machine) b.diagnostics next
  have hpieces : Observation.ofRun Session.seen
      ((do run limits source; run limits source' : Step Unit) a.session) = seenWith id id := by
    rw [hpieces]
    simp only [seenWith, seenOn_id, Machine.relabel_id]
  have hjoined : Observation.ofRun Session.seen
      (run limits (source ++ "\n" ++ source') a.session) =
        seenWith (· + Token.linesAbove source) id := by
    rw [hjoined]
    simp only [seenWith, seenOn, Machine.relabel_id]
  have hmarked (line : Int) : Observation.ofRun Session.seen
      (run limits source' (b.functionsOn line)) = seenWith id fun _ => line := by
    rw [run_of_binds (s := b.functionsOn line) hQb hstatic']
    simp only [seenWith, seenOn_id]
    rfl
  obtain ⟨⟨o, hlook⟩, hdiagnostics⟩ :=
    seenOn_lines limits Q (bound limits Q b.machine) b.diagnostics next
  simp only [hpieces, hjoined, hmarked, ← hquiet]
  refine ⟨(hlook _ _).trans (hlook _ _).symm, hdiagnostics.imp (fun hnone => ?_) ?_⟩
  · exact ⟨hnone _ _, hnone _ _, fun _ => hnone _ _⟩
  · rintro ⟨line, message, isNew, hsome⟩
    refine ⟨line, message, isNew, ?_, hsome _ _, fun _ => hsome _ _⟩
    exact (hsome id id).trans (by simp)

/-- A function that fails for what is no number, on three lines. -/
def negation : String := "fun f(x)\x7b\nreturn -x;\n\x7d"

/-- A program that fails on its second line. -/
def failing : String := "print f;\n-nil;"

def statementsIn (source : String) : List Statement :=
  Code.statementsOf (Code.ofSource? .program 60 0 source)

theorem resolves_negation : Resolves ⟨60, 1⟩ negation (statementsIn negation) :=
  .of_checks (by decide +kernel) rfl (by decide +kernel)

theorem resolves_failing : Resolves ⟨60, 1⟩ failing (statementsIn failing) :=
  .of_checks (by decide +kernel) rfl (by decide +kernel)

/-- A session before its first unit. -/
def newStage : Stage := Stage.first 0 []

/-- The session in which the function is defined. -/
def negating : Session := behind (run ⟨60, 1⟩ negation) newStage.session

theorem run_negation : run ⟨60, 1⟩ negation newStage.session = .ok () negating := by
  have hok : resultsOf (run ⟨60, 1⟩ negation) newStage.session = [()] := by decide +kernel
  rw [resultsOf] at hok
  rw [negating, behind]
  split at hok
  · next h => rw [h]
  · cases hok

theorem pieces_negation :
    let pieces := Observation.ofRun Session.seen
      ((do run ⟨60, 1⟩ negation; run ⟨60, 1⟩ failing : Step Unit) newStage.session)
    pieces.printed = ["<fn f>"] ∧
      pieces.diagnostics = [.runtime 2 RuntimeFault.operandNotNumber.message] := by
  decide +kernel

theorem marked_negation : (Observation.ofRun Session.seen
    (run ⟨60, 1⟩ failing (negating.functionsOn 7))).diagnostics =
      [.runtime 2 RuntimeFault.operandNotNumber.message] := by
  decide +kernel

theorem Stage.run_join_negation :
    let joined := Observation.ofRun Session.seen
      (run ⟨60, 1⟩ (negation ++ "\n" ++ failing) newStage.session)
    (Stage.first 0 []).Leads ⟨60, 1⟩ newStage ∧
      newStage.session.diagnostics.hasStatic = false ∧
      Resolves ⟨60, 1⟩ negation (statementsIn negation) ∧
      Resolves ⟨60, 1⟩ failing (statementsIn failing) ∧
      run ⟨60, 1⟩ negation newStage.session = .ok () negating ∧
      negating.diagnostics = newStage.session.diagnostics ∧
      joined.printed = ["<fn f>"] ∧
      joined.diagnostics = [.runtime 5 RuntimeFault.operandNotNumber.message] := by
  have hleads : (Stage.first 0 []).Leads ⟨60, 1⟩ newStage := .refl
  have hstatic : newStage.session.diagnostics.hasStatic = false := rfl
  have hquiet : negating.diagnostics = newStage.session.diagnostics := by decide +kernel
  have hbefore : newStage.session.diagnostics.toList = [] := rfl
  obtain ⟨hprinted, hdiagnostics⟩ := pieces_negation
  obtain ⟨hsame, hend⟩ :=
    Stage.run_join hleads hstatic resolves_negation resolves_failing run_negation hquiet
  have hsamePrinted := congrArg Observation.printed hsame
  rw [Observation.printed_withoutLines, Observation.printed_withoutLines, hprinted]
    at hsamePrinted
  refine ⟨hleads, hstatic, resolves_negation, resolves_failing, run_negation, hquiet,
    hsamePrinted, ?_⟩
  rw [hdiagnostics, hbefore] at hend
  rcases hend with ⟨hnone, -⟩ | ⟨line, message, fromSecond, hp, hj, hk⟩
  · cases hnone
  · obtain ⟨rfl, rfl⟩ := Diagnostic.runtime.inj (List.singleton_inj.mp hp)
    -- Moved to line 7, the function would report there.
    have hmoved := hk 7
    rw [marked_negation] at hmoved
    cases fromSecond with
    | false => simp at hmoved
    | true =>
      rw [hj]
      decide

end Session

end Lox
