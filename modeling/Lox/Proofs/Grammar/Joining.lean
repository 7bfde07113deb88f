import Lox.Proofs.Grammar.Rounds

/-!
# Programs that are read one behind the other

What is wrong with a program makes no difference to one behind it, if the first one can be told from
the other: its faults are found in front of its end, and a semicolon stands there for recovery to
stop at. Then both are read as one program, with the statements and the reports of the one in front
of those of the other. Programs that are read without a report need no semicolon, for nothing has to
be recovered from; and such a program does not begin with an `else`.
-/
namespace Lox.Grammar

/-- A reader that does not end well where an `else` comes next. -/
def RefusesElse {α : Type} (act : Reader α) : Prop :=
  ∀ c a c₁, c.current.kind = .else → act c ≠ .ok a c₁

section
variable {α β : Type}

theorem RefusesElse.bind {act : Reader α} {next : α → Reader β} (h : RefusesElse act) :
    RefusesElse (act >>= next) := by
  intro c b c₂ hk hok
  obtain ⟨a, c₁, hact, -⟩ := ok_of_bind hok
  exact h c a c₁ hk hact

theorem RefusesElse.accept {kinds : List Token.Kind} {next : Option Token → Reader β}
    (hk : .else ∉ kinds) (h : RefusesElse (next none)) : RefusesElse (accept kinds >>= next) := by
  intro c b c₂ helse hok
  rw [accept_bind_of_not_mem (by rwa [helse])] at hok
  exact h c b c₂ helse hok

/-- No expression begins with an `else`. -/
structure ExprsRefuseElse (room : Nat) : Prop where
  expression : RefusesElse (expression room)
  assignment : RefusesElse (assignment room)
  operator : ∀ level, RefusesElse (operator room level)
  unary : RefusesElse (unary room)
  call : RefusesElse (call room)
  primary : RefusesElse (primary room)

theorem exprsRefuseElse (room : Nat) : ExprsRefuseElse room := by
  have hdeep : RefusesElse (tooDeep : Reader Expr) := fun _ _ _ _ => nofun
  induction room using Nat.strongRecOn with
  | ind room ih =>
    constructor
    · match room, ih with
      | 0, _ | 1, _ => exact hdeep
      | room + 2, ih => exact (ih room (by omega)).assignment.bind
    · match room, ih with
      | 0, _ => exact hdeep
      | room + 1, ih => exact ((ih room (by omega)).operator .or).bind
    · match room, ih with
      | 0, _ | 1, _ => exact fun _ => hdeep
      | room + 2, ih =>
        intro level
        cases level with
        | factor => exact (ih room (by omega)).unary.bind
        | or | and | equality | comparison | term => exact ((ih room (by omega)).operator _).bind
    · match room, ih with
      | 0, _ => exact hdeep
      | room + 1, ih => exact .accept (by decide) (ih room (by omega)).call
    · match room, ih with
      | 0, _ | 1, _ => exact hdeep
      | room + 2, ih => exact (ih (room + 1) (by omega)).primary.bind
    · match room, ih with
      | 0, _ | 1, _ | 2, _ => exact hdeep
      | room + 3, _ => exact .accept (by decide) fun _ _ _ _ => nofun

theorem declaration_refusesElse (room : Nat) : RefusesElse (declaration room) := by
  match room with
  | 0 | 1 | 2 | 3 => exact fun _ _ _ _ => nofun
  | room + 4 =>
    intro c s c₁ hk hok
    rw [declaration_of_not_fun (by rw [hk]; exact fun h => nomatch h.1)] at hok
    exact (RefusesElse.accept (by decide) <| .accept (by decide)
      (exprsRefuseElse (room + 1)).expression.bind) c s c₁ hk hok

end

/-- Without a report, a program that is not at its end begins with a declaration. -/
theorem programFrom_quiet {room : Nat} {t : Token} {bound : List Token} {c c₁ : Cursor}
    {ss : List Statement} (hc : HasEnd c.rest) (hk : c.current.kind ≠ .eof)
    (hrun : programFrom room (t :: bound) c = some (ss, c₁)) (hr : c₁.reports = []) :
    ∃ s c₂ rest, declaration room c = .ok s c₂ ∧ programFrom room bound c₂ = some (rest, c₁) ∧
      ss = s :: rest ∧ HasEnd c₂.rest ∧ c₂.reports = [] := by
  have hat : c.atEnd = false := by simp [Cursor.atEnd, hk]
  have hread := (readsTrees room).declaration c
  cases hd : declaration room c with
  | ok s c₂ =>
    simp only [programFrom, hat, hd, Bool.false_eq_true, if_false, Option.map_eq_some_iff] at hrun
    obtain ⟨⟨rest, c₃⟩, hrest, heq⟩ := hrun
    obtain ⟨rfl, rfl⟩ := Prod.mk.inj heq
    have hend : HasEnd c₂.rest := (hread.ok hd).1.onward.hasEnd hc
    obtain ⟨ss', c', hrun', hpass, -⟩ := programFrom_passes room bound c₂ hend
    cases hrest.symm.trans hrun'
    have hmore := hpass.onward.reports.length_le
    rw [hr] at hmore
    exact ⟨s, c₂, rest, rfl, hrest, rfl, hend,
      List.eq_nil_of_length_eq_zero (Nat.le_zero.1 hmore)⟩
  | error stop c₂ =>
    simp only [programFrom, hat, hd, Bool.false_eq_true, if_false, Option.bind_eq_some_iff] at hrun
    obtain ⟨rest, hrest, hrun⟩ := hrun
    obtain ⟨honward, hreported⟩ := fails_afterStop (hread.error hd)
    obtain ⟨rest', hrest', hend⟩ := recover_hasEnd (honward.hasEnd hc)
    cases hrest.symm.trans hrest'
    obtain ⟨ss', c', hrun', hpass, -⟩ :=
      programFrom_passes room bound { afterStop stop c₂ with rest := rest } hend
    cases hrun.symm.trans hrun'
    have hmore := hpass.onward.reports.length_le
    rw [hr] at hmore
    exact absurd (Nat.lt_of_lt_of_le hreported hmore) (Nat.not_lt_zero _)

/-- The cursor at the first of some tokens in front of an end token. -/
def startAt (ts : List Token) (e : Token) (site : Site) : Cursor := ⟨ts ++ [e], e, [], site⟩

theorem hasEnd_startAt {ts : List Token} {e : Token} {site : Site} (he : e.kind = .eof) :
    HasEnd (startAt ts e site).rest := ⟨e, by simp [startAt], he⟩

section
variable {room : Nat} {site next : Site} {ts : List Token} {e : Token} {ss : List Statement}

theorem program?_eq (room : Nat) (site : Site) (ts : List Token) (e : Token) :
    program? room site (ts ++ [e]) =
      (programFrom room (startAt ts e site).ahead (startAt ts e site)).map
        fun p => ⟨p.1, p.2.reports.reverse, p.2.nextSite⟩ := by
  simp only [program?, start?, List.getLast?_concat, Option.map_some, Option.bind_eq_bind,
    Option.bind_some, startAt]
  cases programFrom room _ _ <;> rfl

theorem exists_programFrom (h : program? room site (ts ++ [e]) = some ⟨ss, [], next⟩) :
    ∃ c, programFrom room (startAt ts e site).ahead (startAt ts e site) = some (ss, c) ∧
      c.reports = [] ∧ c.nextSite = next := by
  rw [program?_eq, Option.map_eq_some_iff] at h
  obtain ⟨⟨ss', c⟩, hrun, heq⟩ := h
  simp only [Parsed.mk.injEq, List.reverse_eq_nil_iff] at heq
  obtain ⟨rfl, hreports, hsite⟩ := heq
  exact ⟨c, hrun, hreports, hsite⟩

/-- A program without a report does not begin with an `else`. -/
theorem not_else_of_program? (he : e.kind = .eof)
    (h : program? room site (ts ++ [e]) = some ⟨ss, [], next⟩) :
    (startAt ts e site).current.kind ≠ .else := by
  intro helse
  obtain ⟨c, hrun, hr, -⟩ := exists_programFrom h
  obtain ⟨s, c₂, rest, hd, -⟩ :=
    programFrom_quiet (hasEnd_startAt he) (by rw [helse]; decide) hrun hr
  exact declaration_refusesElse room _ s c₂ helse hd

theorem programFrom_end {c : Cursor} (hrest : c.rest = [e]) (he : e.kind = .eof)
    (bound : List Token) : programFrom room bound c = some ([], c) := by
  have hat : c.atEnd = true := by simp [Cursor.atEnd, Cursor.current, hrest, he]
  cases bound with
  | nil => rfl
  | cons t bound => simp [programFrom, hat]

theorem program?_nil (room : Nat) (site : Site) (he : e.kind = .eof) :
    program? room site ([] ++ [e]) = some ⟨[], [], site⟩ := by
  rw [program?_eq, programFrom_end rfl he]
  rfl

end

section
variable {room : Nat} {site site' : Site} {ts tokens : List Token} {e : Token}
  {first second : Parsed (List Statement)} {ρ τ : Relabelling}

/-- Two programs are read as one if no fault of the first one is told what is behind it. The tokens
may have other labels then, and the sites of the second program go on from those of the first. -/
theorem program?_join (he : e.kind = .eof) (hts : ∀ t ∈ ts, t.kind ≠ .eof)
    (h : program? room site (ts ++ [e]) = some first) (hend : HasEnd tokens)
    (h' : program? room site' tokens = some second)
    (hρ : ∀ site, ρ.site (site + 1) = ρ.site site + 1)
    (hτ : ∀ site, τ.site (site + 1) = τ.site site + 1)
    (hnext : τ.site site' = ρ.site first.nextSite) (helse : ∀ t ∈ tokens.head?, t.kind ≠ .else)
    (hsealed : AllSealed ρ e (tokens.map (Token.relabel τ)) ts first.reports) :
    program? room (ρ.site site) (ts.map (Token.relabel ρ) ++ tokens.map (Token.relabel τ)) =
      some ⟨Statement.relabelAll ρ first.tree ++ Statement.relabelAll τ second.tree,
        first.reports.map (Report.relabel ρ) ++ second.reports.map (Report.relabel τ),
        τ.site second.nextSite⟩ := by
  obtain ⟨before, e', after, rfl, hbefore, he'⟩ := hend.split
  have hjoined : HasEnd
      (ts.map (Token.relabel ρ) ++ (before ++ e' :: after).map (Token.relabel τ)) :=
    ⟨e'.relabel τ, by simp, he'⟩
  obtain ⟨start, hstart, hrest, hreports, hsite⟩ := exists_start hjoined (ρ.site site)
  -- The end token of the first program is not the beginning of an `else` branch either.
  have hfirst : ElseAlike [e] ((before ++ e' :: after).map (Token.relabel τ)) := by
    cases before with
    | nil => exact ⟨e, _, rfl, rfl, by simp [he, he']⟩
    | cons t before => exact ⟨e, _, rfl, rfl, by simpa [he] using helse t rfl⟩
  obtain ⟨c₁, hrounds, hrest₁, hreports₁, hsite₁⟩ :=
    program?_again hρ he hts h hfirst hsealed hrest hsite
  rw [List.map_append] at hrest₁
  have hsecond : ElseAlike (e' :: after) ((e' :: after).map (Token.relabel τ)) :=
    ⟨e', e'.relabel τ, rfl, rfl, Iff.rfl⟩
  obtain ⟨c₂, hrounds', hrest₂, hreports₂, hsite₂⟩ :=
    program?_again hτ he' hbefore h' hsecond (.inl ⟨_, rfl⟩) hrest₁ (hsite₁.trans hnext.symm)
  have hat : c₂.atEnd = true := by simp [Cursor.atEnd, Cursor.current, hrest₂, he']
  rw [program?_of_rounds hstart (hrounds.trans hrounds') (hrest ▸ hjoined) hat, hreports₂,
    hreports₁, hreports, hsite₂]
  simp

/-- Two programs that are each read without a report are read as one, the second one behind the
first, with the labels that their tokens have then and with sites that go on from the first program
to the second. -/
theorem program?_append {ts' : List Token} {e' : Token} {next next' : Site}
    {ss ss' : List Statement} (he : e.kind = .eof) (hts : ∀ t ∈ ts, t.kind ≠ .eof)
    (he' : e'.kind = .eof)
    (h : program? room site (ts ++ [e]) = some ⟨ss, [], next⟩)
    (h' : program? room site' (ts' ++ [e']) = some ⟨ss', [], next'⟩)
    (hρ : ∀ site, ρ.site (site + 1) = ρ.site site + 1)
    (hτ : ∀ site, τ.site (site + 1) = τ.site site + 1) (hnext : τ.site site' = ρ.site next) :
    program? room (ρ.site site)
        (ts.map (Token.relabel ρ) ++ (ts' ++ [e']).map (Token.relabel τ)) =
      some ⟨Statement.relabelAll ρ ss ++ Statement.relabelAll τ ss', [], τ.site next'⟩ := by
  have helse (t : Token) (ht : t ∈ (ts' ++ [e']).head?) : t.kind ≠ .else := by
    have hcurrent : (startAt ts' e' site').current = t := by
      rw [Cursor.current, startAt, List.headD_eq_head?_getD, ht]
      rfl
    exact hcurrent ▸ not_else_of_program? he' h'
  have hsealed : AllSealed ρ e ((ts' ++ [e']).map (Token.relabel τ)) ts [] := .inr (by simp)
  have hend : HasEnd (ts' ++ [e']) := ⟨e', by simp, he'⟩
  exact program?_join he hts h hend h' hρ hτ hnext helse hsealed

end

/-- What is wrong with a program neither hides nor adds anything in one behind it: if the first one
ends with a semicolon and nothing is reported at its end, and if the other one does not begin with
an `else`, then both are read as one program as they are read alone. -/
theorem program?_independent (room : Nat) (site : Site) (first second : List Token) (e : Token)
    (he : e.kind = .eof) (hfirst : ∀ t ∈ first, t.kind ≠ .eof)
    (hlast : ∃ t ∈ first.getLast?, t.kind = .semicolon)
    (hreports : ∀ parsed, program? room site (first ++ [e]) = some parsed →
      ∀ r ∈ parsed.reports, r.token.kind ≠ .eof)
    (hsecond : ∃ t ∈ second, t.kind = .eof) (helse : ∀ t ∈ second.head?, t.kind ≠ .else) :
    ∃ parsed parsed', program? room site (first ++ [e]) = some parsed ∧
      program? room parsed.nextSite second = some parsed' ∧
      program? room site (first ++ second) = some
        ⟨parsed.tree ++ parsed'.tree, parsed.reports ++ parsed'.reports, parsed'.nextSite⟩ := by
  have hend : HasEnd (first ++ [e]) := ⟨e, by simp, he⟩
  obtain ⟨parsed, -, -, h, -⟩ := exists_program? room site hend
  obtain ⟨parsed', -, -, h', -⟩ := exists_program? room parsed.nextSite hsecond
  refine ⟨parsed, parsed', h, h', ?_⟩
  have hfixes := Relabelling.fixes_lines_id
  have hsealed : AllSealed (.lines id) e (second.map (Token.relabel (.lines id))) first
      parsed.reports := by
    obtain ⟨t, ht, hk⟩ := hlast
    refine .inr fun r hr _ => ⟨hreports parsed h r hr, fun u hu => ?_⟩
    rwa [Option.some.inj (hu.symm.trans ht)]
  have hjoin := program?_join (ρ := .lines id) (τ := .lines id) he hfirst h hsecond h'
    (fun _ => rfl) (fun _ => rfl) rfl helse hsealed
  have hsame (made : List Report) : made.map (Report.relabel (.lines id)) = made :=
    List.map_id'' (fun _ => rfl) made
  rwa [(hfixes []).tokens, (hfixes []).tokens, Statement.relabelAll_of_fixes _ (hfixes _),
    Statement.relabelAll_of_fixes _ (hfixes _), hsame, hsame] at hjoin

/-- The tokens of `var ; print 1 ;` and of `print ; print 2 ;`, each with a statement that misses
something in front of a good one. -/
def twoFaults : List Token × List Token :=
  ([⟨.var, "var", .nil, 1⟩, ⟨.semicolon, ";", .nil, 1⟩, ⟨.print, "print", .nil, 2⟩,
    ⟨.number, "1", .number 1, 2⟩, ⟨.semicolon, ";", .nil, 2⟩],
   [⟨.print, "print", .nil, 3⟩, ⟨.semicolon, ";", .nil, 3⟩, ⟨.print, "print", .nil, 4⟩,
    ⟨.number, "2", .number 2, 4⟩, ⟨.semicolon, ";", .nil, 4⟩, ⟨.eof, "", .nil, 4⟩])

theorem program?_independent_twoFaults :
    (∃ t ∈ twoFaults.1.getLast?, t.kind = .semicolon) ∧ (∃ t ∈ twoFaults.2, t.kind = .eof) ∧
      ∃ parsed parsed' : Parsed (List Statement),
        parsed.reports.length = 1 ∧ parsed'.reports.length = 1 ∧
        program? 60 0 (twoFaults.1 ++ twoFaults.2) = some
          ⟨parsed.tree ++ parsed'.tree, parsed.reports ++ parsed'.reports, parsed'.nextSite⟩ := by
  have hlast : ∃ t ∈ twoFaults.1.getLast?, t.kind = .semicolon := ⟨_, rfl, rfl⟩
  have hsecond : ∃ t ∈ twoFaults.2, t.kind = .eof := by decide
  have hread : (program? 60 0 (twoFaults.1 ++ [⟨.eof, "", .nil, 2⟩])).map
      (fun parsed => (parsed.reports.map (·.token.kind), parsed.nextSite)) =
        some ([.semicolon], 0) := rfl
  have hread' : (program? 60 0 twoFaults.2).map (·.reports.length) = some 1 := rfl
  have hfirst {parsed : Parsed (List Statement)}
      (h : program? 60 0 (twoFaults.1 ++ [⟨.eof, "", .nil, 2⟩]) = some parsed) :
      parsed.reports.map (·.token.kind) = [.semicolon] ∧ parsed.nextSite = 0 := by
    rwa [h, Option.map_some, Option.some.injEq, Prod.mk.injEq] at hread
  obtain ⟨parsed, parsed', h, h', hjoined⟩ :=
    program?_independent 60 0 twoFaults.1 twoFaults.2 ⟨.eof, "", .nil, 2⟩ rfl (by decide) hlast
      (fun parsed h r hr he => by
        have hk := List.mem_map_of_mem (f := (·.token.kind)) hr
        rw [(hfirst h).1, List.mem_singleton, he] at hk
        cases hk)
      hsecond (by simp [twoFaults])
  rw [(hfirst h).2] at h'
  have hone : parsed.reports.length = 1 := by
    have := congrArg List.length (hfirst h).1
    rwa [List.length_map] at this
  rw [h', Option.map_some, Option.some.injEq] at hread'
  exact ⟨hlast, hsecond, parsed, parsed', hone, hread', hjoined⟩

end Lox.Grammar
