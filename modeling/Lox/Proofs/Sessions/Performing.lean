import Lox.Proofs.Evaluation.Cursor
import Lox.Proofs.Grammar.Soundness
import Lox.Proofs.Scoping.LexicalScope
import Lox.Session

/-!
# What a source text does to a session

A text is read, its names are bound, and it is executed, each only as far as nothing static was
reported. `Takes` says which of these happens.
-/
namespace Lox

open Binding (resolve)

/-- Every text is read as something, with a site of its own for every use of a variable. All that is
reported then is static, and an expression is missing only if something is reported. -/
theorem Code.exists_reading (mode : Mode) (room : Nat) (site : Site) (source : String) :
    ∃ r, Code.ofSource? mode room site source = some r ∧
      FreshSites site r.code.sites r.nextSite ∧ (∀ d ∈ r.diagnostics, d.isStatic = true) ∧
      (r.code.isMissing = true → r.diagnostics ≠ []) := by
  let scanned := Token.scan source
  have hend : Grammar.HasEnd scanned.tokens :=
    ⟨Token.endToken source.toList, by simp [scanned, Token.scan], rfl⟩
  let all (reports : List Grammar.Report) : List Diagnostic :=
    Code.scanDiagnostics scanned ++ reports.map (·.diagnostic)
  have hstatic (reports : List Grammar.Report) : ∀ d ∈ all reports, d.isStatic = true := by
    intro d hd
    rcases List.mem_append.1 hd with hd | hd
    · obtain ⟨_, -, rfl⟩ := List.mem_map.1 hd
      rfl
    · obtain ⟨_, -, rfl⟩ := List.mem_map.1 hd
      rfl
  cases mode with
  | program =>
    obtain ⟨parsed, hparsed, -, hfresh⟩ :=
      Grammar.program?_fresh room site scanned.tokens hend
    refine ⟨⟨.program parsed.tree, all parsed.reports, parsed.nextSite⟩, ?_, hfresh, hstatic _,
      nofun⟩
    simp only [Code.ofSource?, Code.ofTokens?, scanned, hparsed, Option.map_some, all]
  | expression =>
    obtain ⟨⟨tree, reports, next⟩, hparsed, hfresh, hmissing⟩ :=
      Grammar.expression?_fresh room site scanned.tokens hend
    refine ⟨⟨.expression tree, all reports, next⟩, ?_, ?_, hstatic _, fun hm => ?_⟩
    · simp only [Code.ofSource?, Code.ofTokens?, scanned, hparsed, Option.map_some, all]
    · cases tree <;> exact hfresh
    · cases tree with
      | none => simpa [all] using fun _ => hmissing rfl
      | some e => cases hm

theorem Code.ofSource?_fresh {mode : Mode} {room : Nat} {site : Site} {source : String}
    {r : Code.Reading} (h : Code.ofSource? mode room site source = some r) :
    FreshSites site r.code.sites r.nextSite := by
  obtain ⟨r', hr', hfresh, -⟩ := Code.exists_reading mode room site source
  rw [h] at hr'
  cases hr'
  exact hfresh

namespace Session

/-- The session that a step leaves behind, however it ends. -/
def behind {α : Type} (act : Step α) (s : Session) : Session :=
  match act s with
  | .ok _ s' => s'
  | .error _ s' => s'

/-- The results of a step. -/
def resultsOf {α : Type} (act : Step α) (s : Session) : List α :=
  match act s with
  | .ok a _ => [a]
  | .error _ _ => []

section
variable {limits : Limits} {s : Session} {unit : Code}

/-- A session with the diagnostics that come of binding a unit. -/
def told (limits : Limits) (unit : Code) (s : Session) : Session :=
  { s with diagnostics :=
    s.diagnostics.addAll ((resolve limits.room unit).reports.map (·.diagnostic)) }

/-- A session with the names of a unit bound. -/
def named (limits : Limits) (unit : Code) (s : Session) : Session :=
  { told limits unit s with machine :=
    { s.machine with table := s.machine.table.install (resolve limits.room unit).entries } }

theorem bindNames_of_le (hdepth : unit.depth ≤ limits.room) :
    Session.bindNames limits unit s = .ok () (named limits unit s) := by
  rw [Session.bindNames]
  simp only [(Binding.resolve_complete_iff unit limits.room).2 hdepth, if_true]
  rfl

theorem bindNames_of_not_le (hdepth : ¬ unit.depth ≤ limits.room) :
    Session.bindNames limits unit s = .error (.abort .stackExhausted) (told limits unit s) := by
  have hcomplete : (resolve limits.room unit).complete = false := by
    rw [← Bool.not_eq_true, Binding.resolve_complete_iff]
    exact hdepth
  rw [Session.bindNames]
  simp only [hcomplete]
  rfl

/-- Reading changes nothing on the machine. -/
theorem machine_behind_read (limits : Limits) (mode : Mode) (source : String) (s : Session) :
    (behind (Session.read limits mode source) s).machine = s.machine := by
  rw [behind, Session.read]
  split
  · next heq => split at heq <;> cases heq; rfl
  · next heq => split at heq <;> cases heq; rfl

/-- Binding names changes nothing there but the table. -/
theorem machine_behind_bindNames (limits : Limits) (unit : Code) (s : Session) :
    ∃ table, (behind (Session.bindNames limits unit) s).machine =
      { s.machine with table := table } := by
  by_cases hdepth : unit.depth ≤ limits.room
  · exact ⟨_, by rw [behind, bindNames_of_le hdepth]; rfl⟩
  · exact ⟨s.machine.table, by rw [behind, bindNames_of_not_le hdepth]; rfl⟩

theorem blocked_eq (s : Session) : blocked s = .ok s.diagnostics.hasStatic s := rfl

end

/-- The session after something was read. -/
def taken (r : Code.Reading) (s : Session) : Session :=
  { s with diagnostics := s.diagnostics.addAll r.diagnostics, nextSite := r.nextSite }

/-- The execution of a unit. -/
def execution (limits : Limits) : Code → Run (Option String)
  | .program statements => do
    let _ ← Eval.executeAll (Eval.execute limits.rounds limits.room) statements
    pure none
  | .expression none => pure none
  | .expression (some e) => do
    let text := (← Eval.evaluate limits.rounds limits.room e).display
    Run.print text
    pure (some text)

section
variable {limits : Limits} {mode : Mode} {source : String} {s : Session} {r : Code.Reading}
  {unit : Code}

variable (limits s r) in
/-- How a session takes what was read: three gates lie before its execution. -/
inductive Takes : EStateM.Result Failure Session (Option String) → Prop where
  /-- Something static was reported by the time it is read. -/
  | unread (h : (taken r s).diagnostics.hasStatic = true ∨ r.code.isMissing = true) :
    Takes (.ok none (taken r s))
  /-- The stack does not suffice to bind its names. -/
  | tooDeep (hstatic : (taken r s).diagnostics.hasStatic = false)
      (hmissing : r.code.isMissing = false) (hdepth : ¬ r.code.depth ≤ limits.room) :
    Takes (.error (.abort .stackExhausted) (told limits r.code (taken r s)))
  /-- Something static was reported by the time its names are bound. -/
  | rejected (hstatic : (taken r s).diagnostics.hasStatic = false)
      (hmissing : r.code.isMissing = false) (hdepth : r.code.depth ≤ limits.room)
      (h : (named limits r.code (taken r s)).diagnostics.hasStatic = true) :
    Takes (.ok none (named limits r.code (taken r s)))
  | executed (hmissing : r.code.isMissing = false) (hdepth : r.code.depth ≤ limits.room)
      (h : (named limits r.code (taken r s)).diagnostics.hasStatic = false) :
    Takes (interpret limits r.code (named limits r.code (taken r s)))

theorem read_eq (h : Code.ofSource? mode limits.room s.nextSite source = some r) :
    read limits mode source s = .ok r.code (taken r s) := by
  simp only [read, h, taken]

theorem perform_of_static (h : Code.ofSource? mode limits.room s.nextSite source = some r)
    (hstatic : (taken r s).diagnostics.hasStatic = true) :
    perform limits mode source s = .ok none (taken r s) := by
  rw [perform, bind_of_ok (read_eq h), bind_of_ok (blocked_eq _), hstatic]
  rfl

theorem perform_of_missing (h : Code.ofSource? mode limits.room s.nextSite source = some r)
    (hmissing : r.code.isMissing = true) : perform limits mode source s = .ok none (taken r s) := by
  rw [perform, bind_of_ok (read_eq h), bind_of_ok (blocked_eq _), hmissing]
  cases (taken r s).diagnostics.hasStatic <;> rfl

theorem perform_of_read (h : Code.ofSource? mode limits.room s.nextSite source = some r)
    (hstatic : (taken r s).diagnostics.hasStatic = false) (hmissing : r.code.isMissing = false) :
    perform limits mode source s = (do
      bindNames limits r.code
      if ← blocked then pure none else interpret limits r.code) (taken r s) := by
  rw [perform, bind_of_ok (read_eq h), bind_of_ok (blocked_eq _), hstatic, hmissing]
  rfl

theorem perform_of_le (h : Code.ofSource? mode limits.room s.nextSite source = some r)
    (hstatic : (taken r s).diagnostics.hasStatic = false) (hmissing : r.code.isMissing = false)
    (hdepth : r.code.depth ≤ limits.room) :
    perform limits mode source s =
      if (named limits r.code (taken r s)).diagnostics.hasStatic then
        .ok none (named limits r.code (taken r s))
      else interpret limits r.code (named limits r.code (taken r s)) := by
  rw [perform_of_read h hstatic hmissing, bind_of_ok (bindNames_of_le hdepth),
    bind_of_ok (blocked_eq _)]
  cases (named limits r.code (taken r s)).diagnostics.hasStatic <;> rfl

theorem perform_of_not_le (h : Code.ofSource? mode limits.room s.nextSite source = some r)
    (hstatic : (taken r s).diagnostics.hasStatic = false) (hmissing : r.code.isMissing = false)
    (hdepth : ¬ r.code.depth ≤ limits.room) :
    perform limits mode source s =
      .error (.abort .stackExhausted) (told limits r.code (taken r s)) := by
  rw [perform_of_read h hstatic hmissing, bind_of_error (bindNames_of_not_le hdepth)]

theorem takes_perform (h : Code.ofSource? mode limits.room s.nextSite source = some r) :
    Takes limits s r (perform limits mode source s) := by
  cases hstatic : (taken r s).diagnostics.hasStatic with
  | true => exact perform_of_static h hstatic ▸ .unread (.inl hstatic)
  | false =>
    cases hmissing : r.code.isMissing with
    | true => exact perform_of_missing h hmissing ▸ .unread (.inr hmissing)
    | false =>
      by_cases hdepth : r.code.depth ≤ limits.room
      · rw [perform_of_le h hstatic hmissing hdepth]
        split
        · next hnamed => exact .rejected hstatic hmissing hdepth hnamed
        · next hnamed => exact .executed hmissing hdepth (by simpa using hnamed)
      · exact perform_of_not_le h hstatic hmissing hdepth ▸ .tooDeep hstatic hmissing hdepth

theorem interpret_of_ok {text : Option String} {m : Machine}
    (h : execution limits unit s.machine = .ok text m) :
    interpret limits unit s = .ok text { s with machine := m } := by
  have hrun : onMachine (execution limits unit) s = .ok text { s with machine := m } := by
    simp only [onMachine, h]
  show reporting (onMachine (execution limits unit)) s = _
  simp only [reporting, hrun]

theorem interpret_of_error {e : RuntimeError} {m : Machine}
    (h : execution limits unit s.machine = .error (.error e) m) :
    interpret limits unit s =
      .ok none { s with machine := m, diagnostics := s.diagnostics.add e.diagnostic } := by
  have hrun : onMachine (execution limits unit) s = .error (.error e) { s with machine := m } := by
    simp only [onMachine, h]
  show reporting (onMachine (execution limits unit)) s = _
  simp only [reporting, hrun]

theorem interpret_of_abort {a : Abort} {m : Machine}
    (h : execution limits unit s.machine = .error (.abort a) m) :
    interpret limits unit s = .error (.abort a) { s with machine := m } := by
  have hrun : onMachine (execution limits unit) s = .error (.abort a) { s with machine := m } := by
    simp only [onMachine, h]
  show reporting (onMachine (execution limits unit)) s = _
  simp only [reporting, hrun]

variable (limits unit) in
theorem goesOn_execution (m : Machine) : GoesOn (execution limits unit) m := by
  have hk := Invariant.anything.keptBy limits.rounds limits.room
  match unit with
  | .program ss =>
    have hstatements : ∀ s ∈ ss, Invariant.anything.node m.store m.scope (.statement s) :=
      fun _ _ => trivial
    exact ((hk.executeAll trivial hstatements).bind (R := fun _ _ => True)
      fun _ _ _ _ _ => .result trivial trivial).goesOn
  | .expression none => exact .refl m
  | .expression (some e) =>
    refine ((hk.evaluate e m trivial trivial).bind (R := fun _ _ => True) ?_).goesOn
    exact fun v _ _ _ _ => (Invariant.keeps_print trivial v.display).bind
      fun _ _ _ _ _ => .result trivial trivial

variable (limits s unit) in
/-- Execution leads on to the machine that it ends or fails with. -/
theorem later_interpret : s.machine.Later (behind (interpret limits unit) s).machine := by
  have hgoes := goesOn_execution limits unit s.machine
  cases h : execution limits unit s.machine with
  | ok text m =>
    rw [behind, interpret_of_ok h]
    exact hgoes.ok h
  | error f m =>
    have hl := hgoes.error h
    cases f with
    | error e =>
      rw [behind, interpret_of_error h]
      exact hl
    | abort a =>
      rw [behind, interpret_of_abort h]
      exact hl

end

/-- A program is performed for what it does only. -/
theorem behind_run (limits : Limits) (source : String) (s : Session) :
    behind (run limits source) s = behind (perform limits .program source) s := by
  rw [behind, behind, run]
  cases h : perform limits .program source s with
  | ok a s' => rw [bind_of_ok h]; rfl
  | error f s' => rw [bind_of_error h]

end Session
end Lox
