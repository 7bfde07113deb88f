import Lox.Proofs.Evaluation.Outlasting
import Lox.Proofs.Grammar.CompletedTrees
import Lox.Proofs.Scanning.Joining
import Lox.Proofs.Sessions.Gates

/-!
# An expression and the program that prints it

To evaluate an expression is to run the program that prints it. Behind `print` and in front of a
line end, its text is cut into the same tokens; they are read as the same tree, with the same
reports; the same names are bound in the same way; and the same value is computed and printed. Only
the room differs, as a statement lies around the expression. A program that does not exhaust its
stack does not tell the difference.
-/
namespace Lox

open Binding (resolve)

namespace Token

/-- The keyword in front of what is printed. -/
def printToken : Token := ⟨.print, "print", .nil, 1⟩

theorem pieces_print (cs : List Char) :
    pieces ("print ".toList ++ cs) = .token printToken :: .gap [' '] :: pieces cs := by
  have hword : firstPiece 1 'p' ("rint".toList ++ ' ' :: cs) = .token printToken := by
    have htake : ("print".toList ++ ' ' :: cs).takeWhile isWordPart = "print".toList :=
      takeWhile_append_of_stop (by decide) _ _
    show wordPiece 1 ("print".toList ++ ' ' :: cs) = _
    rw [wordPiece, htake]
    rfl
  show piecesFrom 1 0 ('p' :: ("rint".toList ++ ' ' :: cs)) = _
  simp only [piecesFrom, hword]
  rfl

/-- A program that prints a text has the tokens of the text between a keyword and a semicolon. -/
theorem scan_printing {source : String} (h : (scan source).faults = []) :
    ∃ semicolon last : Token, semicolon.kind = .semicolon ∧ last.kind = .eof ∧
      scan ("print " ++ source ++ "\n;") =
        ⟨printToken :: (tokensOf source ++ [semicolon, last]), []⟩ := by
  have hpieces : pieces ("print " ++ source).toList =
      .token printToken :: .gap [' '] :: pieces source.toList := by
    rw [String.toList_append]
    exact pieces_print source.toList
  have hfaults : (scan ("print " ++ source)).faults = [] := by
    rw [scan, hpieces]
    exact h
  have htokens : tokensOf ("print " ++ source) = printToken :: tokensOf source := by
    rw [tokensOf, hpieces]
    rfl
  have htext : "print " ++ source ++ "\n;" = "print " ++ source ++ "\n" ++ ";" := by
    rw [show "\n;" = "\n" ++ ";" by decide, ← String.append_assoc]
  rw [htext, scan_join hfaults, htokens]
  exact ⟨_, _, rfl, rfl, rfl⟩

end Token

namespace Grammar

/-- One expression takes all of these tokens, up to the end token. -/
def TakesAll (room : Nat) (site : Site) (tokens : List Token) : Prop :=
  ∃ start e c, start? tokens site = some start ∧ expression room start = .ok e c ∧ c.atEnd = true

/-- Whether a reading ended at the end token. -/
def endedThere : EStateM.Result Stop Cursor Expr → Bool
  | .ok _ c => c.atEnd
  | .error _ _ => false

instance (room : Nat) (site : Site) (tokens : List Token) : Decidable (TakesAll room site tokens) :=
  decidable_of_iff ((start? tokens site).any fun c => endedThere (expression room c)) <| by
    rw [Option.any_eq_true]
    constructor
    · rintro ⟨start, hstart, hc⟩
      cases hread : expression room start with
      | ok e c => exact ⟨start, e, c, hstart, hread, by rwa [hread] at hc⟩
      | error stop c => rw [hread] at hc; cases hc
    · rintro ⟨start, e, c, hstart, hread, hend⟩
      exact ⟨start, hstart, by rw [hread]; exact hend⟩

section
variable {room : Nat} {site next : Site} {ts after : List Token} {last keyword semicolon : Token}
  {c c' : Cursor} {e : Expr} {made : List Report}

/-- Such an expression is read in the same way in front of anything else that may follow it. -/
theorem TakesAll.exists_reading (h : TakesAll room site (ts ++ [last]))
    (hts : ∀ t ∈ ts, t.kind ≠ .eof) (hlast : last.kind = .eof) :
    ∃ e made next,
      expression? room site (ts ++ [last]) = some ⟨some e, made.reverse, next⟩ ∧
      ∀ c z, c.rest = ts ++ z → c.nextSite = site → Follows (MayFollow 0) z →
        expression room c = .ok e (c.past made next z) := by
  obtain ⟨start, e, c₁, hstart, hok, hat⟩ := h
  have hend : HasEnd (ts ++ [last]) := ⟨last, by simp, hlast⟩
  obtain ⟨start', hstart', hrest, hreports, hsite⟩ := exists_start hend site
  obtain rfl : start' = start := Option.some.inj (hstart'.symm.trans hstart)
  have hcompletes := ((completesTrees room 0).expression.completes Unit (ts.length + 1)) start'
    (hrest ▸ hend)
  obtain ⟨passed, made, hmoves, halongside⟩ := Ends.ok hcompletes hok
  have hpassed : passed = ts := by
    have hfront : beforeEnd c₁.rest = [] := by
      rw [(hmoves.hasEnd (hrest ▸ hend)).rest_eq_cons, beforeEnd,
        List.takeWhile_cons_of_neg (by simpa [Cursor.atEnd] using hat)]
    rw [← beforeEnd_append hmoves.noEnd hfront, ← hmoves.rest, hrest,
      beforeEnd_append hts (by simp [beforeEnd, hlast])]
  subst hpassed
  refine ⟨e, made, c₁.nextSite, ?_, fun c z hc hn hz => ?_⟩
  · have hmade : c₁.reports = made := by rw [hmoves.reports, hreports, List.append_nil]
    simp only [expression?, hstart, hok, Option.bind_eq_bind, Option.bind_some, hmade]
    rfl
  · exact halongside (Nat.lt_succ_self _) () c z ⟨hc, hn.trans hsite.symm⟩ (.inr hz)

/-- A print statement leaves its expression less room, which may not suffice. -/
theorem declaration_print (hend : HasEnd c.rest) (hk : c.current.kind = .print)
    (hs : semicolon.kind = .semicolon)
    (he : expression room c.advance = .ok e (c.advance.past made next (semicolon :: after))) :
    (∃ c₁, declaration room c = .ok (.print e) c₁ ∧ c₁.rest = after ∧
      c₁.reports = made ++ c.reports ∧ c₁.nextSite = next) ∨
    ∃ c₁, declaration room c = .error .tooDeep c₁ := by
  match room, he with
  | 0, _ | 1, _ | 2, _ | 3, _ => exact .inr ⟨c, rfl⟩
  | r + 4, he =>
    have hfun : ¬ (c.current.kind = .fun ∧ c.second.kind = .identifier) := by simp [hk]
    have hprint : declaration (r + 4) c = printRest (expression (r + 1)) c.advance := by
      rw [declaration_of_not_fun hfun, variableOrStatement,
        accept_bind_of_not_mem (by simp [hk])]
      show statement (r + 3) c = _
      rw [statement, accept_of_mem (by simp [hk, statementStarts])]
      simp only [hk]
    have hreports : c.advance.reports = c.reports := by
      rw [Cursor.advance]
      split <;> rfl
    have hmoves := moves_advance hend (by simp [hk])
    have hcompletes := ((completesTrees (r + 1) 3).expression.completes Unit
      (c.advance.rest.length + 1)) c.advance (hmoves.hasEnd hend)
    rw [hprint]
    cases hless : expression (r + 1) c.advance with
    | ok e' c₂ =>
      obtain ⟨passed, made', hmoves', halongside⟩ := Ends.ok hcompletes hless
      have hlength := hmoves'.length
      have hmore := halongside (by omega) () c.advance c₂.rest ⟨hmoves'.rest, rfl⟩
        (.inl (hmoves'.hasEnd (hmoves.hasEnd hend)).head?_eq)
      obtain ⟨rfl, hpast⟩ : e' = e ∧ c.advance.past made' c₂.nextSite c₂.rest =
          c.advance.past made next (semicolon :: after) := by
        simpa using hmore.symm.trans he
      obtain ⟨hrest, -, hmade, hnext⟩ : c₂.rest = semicolon :: after ∧ _ ∧
          made' ++ c.advance.reports = made ++ c.advance.reports ∧ c₂.nextSite = next := by
        simpa only [Cursor.past, Cursor.mk.injEq] using hpast
      have hcurrent : c₂.current.kind = .semicolon := by
        rw [Cursor.current, hrest]
        exact hs
      have hexpect : expect .semicolon .semicolonAfterPrint c₂ = .ok c₂.current c₂.advance :=
        if_pos hcurrent
      have hadvance : c₂.advance = { c₂ with rest := c₂.rest.tail } :=
        if_neg (by simp [Cursor.atEnd, hcurrent])
      refine .inl ⟨c₂.advance, ?_, ?_, ?_, ?_⟩
      · rw [printRest, bind_of_ok hless, bind_of_ok hexpect]
        rfl
      · rw [hadvance, hrest]
        rfl
      · rw [hadvance, ← hreports, ← hmade]
        exact hmoves'.reports
      · rw [hadvance]
        exact hnext
    | error stop c₂ =>
      cases stop with
      | tooDeep => exact .inr ⟨c₂, by rw [printRest, bind_of_error hless]⟩
      | fault =>
        obtain ⟨passed, made', hmoves', halongside⟩ := Ends.error hcompletes hless rfl
        have hlength := hmoves'.length
        have hmore := (halongside (by omega)).1 () c.advance c₂.rest ⟨hmoves'.rest, rfl⟩
          (hmoves'.hasEnd (hmoves.hasEnd hend)).head?_eq
        cases hmore.symm.trans he

/-- A program that prints an expression is read as such, with the reports of the expression, unless
its nesting is too deep. -/
theorem program?_print (hk : keyword.kind = .print) (hs : semicolon.kind = .semicolon)
    (hlast : last.kind = .eof)
    (he : ∀ c z, c.rest = ts ++ z → c.nextSite = site → Follows (MayFollow 0) z →
      expression room c = .ok e (c.past made next z)) :
    let tokens := keyword :: (ts ++ [semicolon, last])
    program? room site tokens = some ⟨[.print e], made.reverse, next⟩ ∨
      ∃ p, program? room site tokens = some p ∧ ∃ r ∈ p.reports, r.fault = .tooMuchNesting := by
  intro tokens
  have hend : HasEnd tokens := ⟨last, by simp [tokens], hlast⟩
  obtain ⟨start, hstart, hrest, hnone, hsite⟩ := exists_start hend site
  have hcurrent : start.current.kind = .print := by
    rw [Cursor.current, hrest]
    exact hk
  have hat : start.atEnd = false := by simp [Cursor.atEnd, hcurrent]
  have hadvance : start.advance = { start with rest := ts ++ [semicolon, last] } := by
    rw [Cursor.advance, if_neg (by simp [hat]), hrest]
    rfl
  have hexpression := he start.advance [semicolon, last] (by rw [hadvance])
    (by rw [hadvance]; exact hsite) (follows_cons (by rw [hs]; decide))
  rcases declaration_print (hrest ▸ hend) hcurrent hs hexpression with
    ⟨c₁, hd, hrest₁, hreports, hnext⟩ | ⟨c₁, hd⟩
  · have hat₁ : c₁.atEnd = true := by simpa [Cursor.atEnd, Cursor.current, hrest₁] using hlast
    left
    rw [program?_of_rounds hstart (.round (.statement hat hd) (.none c₁)) (hrest ▸ hend) hat₁,
      hreports, hnone, hnext, List.append_nil, List.append_nil]
  · right
    obtain ⟨passed, made', hmoves, -⟩ := declaration_error (hrest ▸ hend) hd
    obtain ⟨rest, hrecover, hrestEnd⟩ := recover_hasEnd (hmoves.hasEnd (hrest ▸ hend))
    obtain ⟨ss, c₂, hrounds, hat₂⟩ :=
      exists_rounds room { afterStop .tooDeep c₁ with rest := rest } hrestEnd
    obtain ⟨_, made₂, hmoves₂⟩ := hrounds.moves hrestEnd
    refine ⟨_, program?_of_rounds hstart (.round (.fault hat hd hrecover) hrounds) (hrest ▸ hend)
      hat₂, ⟨c₁.current, .tooMuchNesting⟩, ?_, rfl⟩
    rw [List.mem_reverse, hmoves₂.reports]
    exact List.mem_append_right _ List.mem_cons_self

end

end Grammar

/-- Whether a diagnostic tells of an exhausted stack. -/
def Diagnostic.OfStack : Diagnostic → Prop
  | .static _ _ message => message = Grammar.Fault.tooMuchNesting.message
  | .runtime _ message => message = RuntimeFault.stackOverflow.message

namespace Session

/-- The program that prints what a text says. -/
def printing (source : String) : String := "print " ++ source ++ "\n;"

/-- An action exhausts the stack: that is why it fails, or it reports so. -/
def Exhausts {α : Type} (act : Step α) (s : Session) : Prop :=
  (∃ s', act s = .error (.abort .stackExhausted) s') ∨
    ∃ new, (behind act s).diagnostics.toList = s.diagnostics.toList ++ new ∧ ∃ d ∈ new, d.OfStack

section
variable {limits : Limits} {s : Session} {source : String} {e : Expr}

theorem behind_of_eq {α : Type} {act act' : Step α} {s' : Session} (h : act s = act' s') :
    behind act s = behind act' s' := by
  rw [behind, behind, h]

theorem Exhausts.of_eq {α : Type} {act act' : Step α} {s' : Session} (hexhausts : Exhausts act' s')
    (h : act s = act' s') (hs : s.diagnostics.toList <+: s'.diagnostics.toList) :
    Exhausts act s := by
  rcases hexhausts with ⟨s'', herror⟩ | ⟨new, hnew, d, hd, hstack⟩
  · exact .inl ⟨s'', h.trans herror⟩
  · obtain ⟨earlier, hearlier⟩ := hs
    refine .inr ⟨earlier ++ new, ?_, d, List.mem_append_right _ hd, hstack⟩
    rw [behind_of_eq h, hnew, ← hearlier, List.append_assoc]

/-- Statements are executed with less room than an expression by itself. -/
theorem outlasts_print (hdepth : (Statement.print e).depth ≤ limits.room) :
    Run.Outlasts (do let _ ← execution limits (.expression (some e)); pure none)
      (execution limits (.program [.print e])) := by
  obtain ⟨r, hr⟩ : ∃ r, limits.room = r + 1 := ⟨limits.room - 1, by
    simp only [Statement.depth] at hdepth
    omega⟩
  have hprogram : execution limits (.program [.print e]) = (do
      let v ← Eval.evaluate limits.rounds r e
      Run.print v.display
      pure none) := by
    simp only [execution, hr, Eval.executeAll, Eval.execute, bind_assoc, pure_bind]
  have hexpression : (do let _ ← execution limits (.expression (some e)); pure none) = (do
      let v ← Eval.evaluate limits.rounds (r + 1) e
      Run.print v.display
      pure (none : Option String)) := by
    simp only [execution, hr, bind_assoc, pure_bind]
  rw [hprogram, hexpression]
  exact ((Eval.outlasting limits.rounds r 1).evaluate e).bind fun _ => .refl _

theorem resolve_print {room : Nat} (hdepth : (Statement.print e).depth ≤ room) :
    resolve room (.program [.print e]) = resolve room (.expression (some e)) := by
  have hprogram : (Code.program [.print e]).depth ≤ room := by
    simpa [Code.depth, Statement.depths] using hdepth
  have hexpression : (Code.expression (some e)).depth ≤ room := by
    simp only [Statement.depth] at hdepth
    exact Nat.le_of_succ_le hdepth
  rw [Binding.resolve_eq_walk hprogram, Binding.resolve_eq_walk hexpression]
  simp [Code.visits, Statement.allVisits, Statement.visits, Binding.Visit.step]

theorem interpret_print (hdepth : (Statement.print e).depth ≤ limits.room)
    (hstack : ¬ Exhausts (interpret limits (.program [.print e])) s) :
    interpret limits (.program [.print e]) s =
      (do let _ ← interpret limits (.expression (some e)); pure none : Step (Option String)) s := by
  have hends := outlasts_print hdepth s.machine
  cases hprogram : execution limits (.program [.print e]) s.machine with
  | ok text m =>
    obtain ⟨text', m', hexpression, hnone⟩ := ok_of_bind (hends.ok hprogram)
    cases hnone
    rw [interpret_of_ok hprogram, bind_of_ok (interpret_of_ok hexpression)]
    rfl
  | error f m =>
    have hsame : ¬ f.OfStack → execution limits (.expression (some e)) s.machine = .error f m := by
      intro hf
      have hbind := (hends.error hprogram).resolve_left hf
      cases hexpression : execution limits (.expression (some e)) s.machine with
      | ok text m' => cases (bind_of_ok hexpression).symm.trans hbind
      | error f' m' => exact (bind_of_error hexpression).symm.trans hbind
    cases f with
    | error error =>
      have hfault : error.fault ≠ .stackOverflow := by
        intro hf
        refine hstack (.inr ⟨[error.diagnostic], ?_, error.diagnostic,
          List.mem_singleton_self _, ?_⟩)
        · rw [behind, interpret_of_error hprogram]
          exact s.diagnostics.toList_add _
        · show error.fault.message = _
          rw [hf]
      rw [interpret_of_error hprogram, bind_of_ok (interpret_of_error (hsame hfault))]
      rfl
    | abort a =>
      have habort : a ≠ .stackExhausted := by
        rintro rfl
        exact hstack (.inl ⟨_, interpret_of_abort hprogram⟩)
      have hsame := hsame (by cases a <;> first | exact (habort rfl).elim | exact id)
      rw [interpret_of_abort hprogram, bind_of_error (interpret_of_abort hsame)]

/-- A program is run for its effect: a stack that it exhausts is exhausted when it is performed. -/
theorem exhausts_run (h : Exhausts (perform limits .program source) s) :
    Exhausts (run limits source) s := by
  rcases h with ⟨s', h⟩ | ⟨new, hnew, hd⟩
  · exact .inl ⟨s', bind_of_error h⟩
  · exact .inr ⟨new, by rw [behind_run]; exact hnew, hd⟩

/-- The text that comes of a step was printed last. -/
theorem printed_of_perform {mode : Mode} {r : Code.Reading} {text : String} {s' : Session}
    (hr : Code.ofSource? mode limits.room s.nextSite source = some r)
    (h : perform limits mode source s = .ok (some text) s') :
    ∃ earlier, s'.machine.printed = s.machine.printed ++ earlier ++ [text] := by
  have htakes := takes_perform hr
  generalize hend : perform limits mode source s = ending at htakes
  cases htakes with
  | executed =>
    have hinterpret := hend.symm.trans h
    cases hexecution : execution limits r.code (named limits r.code (taken r s)).machine with
    | ok result m =>
      rw [interpret_of_ok hexecution] at hinterpret
      cases hinterpret
      obtain ⟨-, hnone⟩ | ⟨e, earlier, t, -, ht, hprinted⟩ := result_of_execution hexecution
      · cases hnone
      · cases ht
        exact ⟨earlier, hprinted⟩
    | error f m =>
      cases f with
      | error e =>
        rw [interpret_of_error hexecution] at hinterpret
        cases hinterpret
      | abort a =>
        rw [interpret_of_abort hexecution] at hinterpret
        cases hinterpret
  | _ => cases hend.symm.trans h

theorem perform_printing {r r' : Code.Reading}
    (hr : Code.ofSource? .expression limits.room s.nextSite source = some r)
    (hr' : Code.ofSource? .program limits.room s.nextSite (printing source) = some r')
    (hcode : r.code = .expression (some e)) (hcode' : r'.code = .program [.print e])
    (hdiagnostics : r'.diagnostics = r.diagnostics) (hnext : r'.nextSite = r.nextSite)
    (hstack : ¬ Exhausts (perform limits .program (printing source)) s) :
    perform limits .program (printing source) s =
      (do let _ ← perform limits .expression source; pure none : Step (Option String)) s := by
  have htaken : taken r' s = taken r s := by rw [taken, taken, hdiagnostics, hnext]
  have hmissing : r.code.isMissing = false := by rw [hcode]; rfl
  have hmissing' : r'.code.isMissing = false := by rw [hcode']; rfl
  cases hstatic : (taken r s).diagnostics.hasStatic with
  | true =>
    rw [perform_of_static hr' (htaken ▸ hstatic), bind_of_ok (perform_of_static hr hstatic), htaken]
    rfl
  | false =>
    by_cases hdepth : (Statement.print e).depth ≤ limits.room
    · have hle : r.code.depth ≤ limits.room := by
        rw [hcode]
        simp only [Statement.depth] at hdepth
        exact Nat.le_of_succ_le hdepth
      have hle' : r'.code.depth ≤ limits.room := by
        simpa [hcode', Code.depth, Statement.depths] using hdepth
      have hnamed : named limits r'.code (taken r' s) = named limits r.code (taken r s) := by
        rw [htaken, named, named, told, told, hcode, hcode', resolve_print hdepth]
      have hperform := perform_of_le hr hstatic hmissing hle
      have hperform' := perform_of_le hr' (htaken ▸ hstatic) hmissing' hle'
      rw [hnamed] at hperform'
      cases hgate : (named limits r.code (taken r s)).diagnostics.hasStatic with
      | true =>
        rw [hgate] at hperform hperform'
        rw [hperform', bind_of_ok hperform]
        rfl
      | false =>
        rw [hgate] at hperform hperform'
        simp only [Bool.false_eq_true, if_false] at hperform hperform'
        have hless : ¬ Exhausts (interpret limits (.program [.print e]))
            (named limits r.code (taken r s)) := by
          refine fun h => hstack (h.of_eq (hcode' ▸ hperform') ?_)
          rw [toList_named, List.append_assoc]
          exact List.prefix_append _ _
        rw [hperform', hcode', interpret_print hdepth hless, bind_of_eq hperform, hcode]
    · refine absurd (.inl ⟨_, perform_of_not_le hr' (htaken ▸ hstatic) hmissing' ?_⟩) hstack
      simpa [hcode', Code.depth, Statement.depths] using hdepth

/-- To evaluate a text is to run the program that prints it. Let the text be scanned without fault,
and let all of its tokens be one expression, on any session. If the program does not exhaust the
stack, it ends as the evaluation does, with a result or with the same failure, and leaves the same
session behind: what was printed, all diagnostics and with them the exit status, the globals and all
other variables are the same. The text that the evaluation answers is what was printed last. -/
theorem run_printing (hscan : (Token.scan source).faults = [])
    (htakes : Grammar.TakesAll limits.room s.nextSite (Token.scan source).tokens)
    (hstack : ¬ Exhausts (run limits (printing source)) s) :
    run limits (printing source) s = (do let _ ← evaluate limits source : Step Unit) s ∧
      ∀ text s', evaluate limits source s = .ok (some text) s' →
        ∃ earlier, s'.machine.printed = s.machine.printed ++ earlier ++ [text] := by
  rw [Token.tokens_scan] at htakes
  obtain ⟨e, made, next, hexpression, hagain⟩ :=
    htakes.exists_reading (fun t => Token.tokensOf_ne_eof) rfl
  let diagnostics := made.reverse.map Grammar.Report.diagnostic
  have hr : Code.ofSource? .expression limits.room s.nextSite source =
      some ⟨.expression (some e), diagnostics, next⟩ := by
    simp only [Code.ofSource?, Code.ofTokens?, Token.tokens_scan, hexpression, Code.scanDiagnostics,
      hscan]
    rfl
  obtain ⟨semicolon, last, hs, hlast, hscan'⟩ := Token.scan_printing hscan
  have hkeyword : Token.printToken.kind = .print := rfl
  rcases Grammar.program?_print hkeyword hs hlast hagain with
    hprogram | ⟨p, hprogram, report, hreport, hnesting⟩
  · have hr' : Code.ofSource? .program limits.room s.nextSite (printing source) =
        some ⟨.program [.print e], diagnostics, next⟩ := by
      simp only [Code.ofSource?, Code.ofTokens?, printing, hscan', hprogram, Code.scanDiagnostics]
      rfl
    have hperform := perform_printing hr hr' rfl rfl rfl rfl fun h => hstack (exhausts_run h)
    refine ⟨?_, fun text s' hevaluate => ?_⟩
    · rw [run, bind_of_eq hperform]
      simp only [evaluate, bind_assoc, pure_bind]
    · exact printed_of_perform hr hevaluate
  · refine absurd (exhausts_run ?_) hstack
    have hr' : Code.ofSource? .program limits.room s.nextSite (printing source) =
        some ⟨.program p.tree, p.reports.map (·.diagnostic), p.nextSite⟩ := by
      simp only [Code.ofSource?, Code.ofTokens?, printing, hscan', hprogram, Code.scanDiagnostics]
      rfl
    obtain ⟨later, hlater⟩ := diagnostics_taken limits s hr'
    refine .inr ⟨p.reports.map (·.diagnostic) ++ later, ?_, report.diagnostic, ?_, ?_⟩
    · rw [← hlater, taken, Diagnostics.toList_addAll, List.append_assoc]
    · exact List.mem_append_left _ (List.mem_map_of_mem hreport)
    · show report.fault.message = _
      rw [hnesting]

/-- A call of a function that prints something before it returns. -/
def printingCall : String := "fun (x) \x7b print x; return !x; \x7d(nil)"

theorem run_printing_call :
    (Token.scan printingCall).faults = [] ∧
      Grammar.TakesAll 100 0 (Token.scan printingCall).tokens ∧
      ¬ Exhausts (run ⟨100, 1⟩ (printing printingCall)) (start 0 []) ∧
      run ⟨100, 1⟩ (printing printingCall) (start 0 []) =
        (do let _ ← evaluate ⟨100, 1⟩ printingCall : Step Unit) (start 0 []) ∧
      resultsOf (evaluate ⟨100, 1⟩ printingCall) (start 0 []) = [some "true"] ∧
      (behind (run ⟨100, 1⟩ (printing printingCall)) (start 0 [])).machine.printed =
        ["nil", "true"] := by
  have hscan : (Token.scan printingCall).faults = [] := by decide +kernel
  have htakes : Grammar.TakesAll 100 0 (Token.scan printingCall).tokens := by decide +kernel
  have hstack : ¬ Exhausts (run ⟨100, 1⟩ (printing printingCall)) (start 0 []) := by
    have hends : resultsOf (run ⟨100, 1⟩ (printing printingCall)) (start 0 []) = [()] := by
      decide +kernel
    have hsilent : (behind (run ⟨100, 1⟩ (printing printingCall)) (start 0 [])).diagnostics.toList =
        [] := by decide +kernel
    rintro (⟨s', herror⟩ | ⟨new, hnew, d, hd, -⟩)
    · rw [resultsOf, herror] at hends
      cases hends
    · obtain ⟨-, rfl⟩ := List.append_eq_nil_iff.1 (hnew.symm.trans hsilent)
      cases hd
  exact ⟨hscan, htakes, hstack, (run_printing hscan htakes hstack).1, by decide +kernel,
    by decide +kernel⟩

end

end Session

end Lox
