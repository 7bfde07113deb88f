import Lox.Proofs.Grammar.CompletedTrees
import Lox.Proofs.Grammar.Nesting

/-!
# Faults at the earliest token

The first fault of a program is reported at the earliest token at which it could be: whatever comes
behind that token, the tokens up to it are no beginning of a program without a fault, while those in
front of it are one.

Both is known of a single declaration, by what `Completes` says of its reader. The declarations
before it are read as they were, since the same token comes behind each of them.
-/
namespace Lox.Grammar

/-- The first report that stopped a reader. -/
def Parsed.firstFatal? {α : Type} (parsed : Parsed α) : Option Report :=
  parsed.reports.find? (·.fault.fatal)

/-- Statements that are read one behind the other, with no fault among them. -/
inductive Series (room : Nat) : Cursor → List Statement → Cursor → Prop where
  | none (c : Cursor) : Series room c [] c
  | more {c c₁ c₂ : Cursor} {s : Statement} {ss : List Statement} :
    c.atEnd = false → declaration room c = .ok s c₁ → Series room c₁ ss c₂ →
      Series room c (s :: ss) c₂

/-- Some statements are read, and then a fault stops the one that is begun. -/
structure StopsFirst (room : Nat) (start : Cursor) (ss : List Statement) (c c₁ : Cursor) :
    Prop where
  series : Series room start ss c
  notEnd : c.atEnd = false
  fault : declaration room c = .error .fault c₁

section
variable {room more : Nat} {start c c₁ c₂ : Cursor} {ss ss' : List Statement} {s : Statement}

theorem Series.rounds (h : Series room c ss c₁) : Rounds room c ss c₁ := by
  induction h with
  | none c => exact .none c
  | more hat hd _ ih => exact .round (.statement hat hd) ih

theorem Series.concat (h : Series room c ss c₁) (hat : c₁.atEnd = false)
    (hd : declaration room c₁ = .ok s c₂) : Series room c (ss ++ [s]) c₂ := by
  induction h with
  | none c => exact .more hat hd (.none c₂)
  | more hat' hd' _ ih => exact .more hat' hd' (ih hat hd)

/-- Rounds are such statements, or begin with some up to a first fault. -/
theorem Rounds.series_or_stop (h : Rounds room c ss c₁) (hc : HasEnd c.rest) :
    Series room c ss c₁ ∨ ∃ ss' c₀ stop c₂, Series room c ss' c₀ ∧ c₀.atEnd = false ∧
      declaration room c₀ = .error stop c₂ ∧ (afterStop stop c₂).reports <:+ c₁.reports := by
  induction h with
  | none c => exact .inl (.none c)
  | @round c c₂ c₁ ss ss' hround hrounds ih =>
    have hc₂ : HasEnd c₂.rest := by
      obtain ⟨passed, made, hmoves, -⟩ := hround.moves hc
      exact hmoves.hasEnd hc
    cases hround with
    | statement hat hd =>
      rcases ih hc₂ with hseries | ⟨ss₀, c₀, stop, c₃, hseries, hstop⟩
      · exact .inl (.more hat hd hseries)
      · exact .inr ⟨_, c₀, stop, c₃, .more hat hd hseries, hstop⟩
    | fault hat hd hrecover =>
      obtain ⟨passed, made, hmoves⟩ := hrounds.moves hc₂
      exact .inr ⟨[], c, _, _, .none c, hat, hd, made, hmoves.reports.symm⟩

/-- The statements are read in the same way, with as much or more room, if the same token comes
behind them, or one that may follow a statement. -/
theorem Series.again (h : Series room c ss c₁) (hc : HasEnd c.rest) :
    ∃ passed made, Moves c passed made c₁ ∧ Minor made ∧ ss.length ≤ passed.length ∧
      ∀ more c' z, Rereads c c' passed z →
        z.head? = some c₁.current ∨ Follows (· ≠ .else) z →
        Series (room + more) c' ss (c'.past made c₁.nextSite z) := by
  induction h with
  | none c =>
    refine ⟨[], [], .refl c, .nil, Nat.le_refl _, fun more c' z hr _ => ?_⟩
    rw [past_nil hr]
    exact .none c'
  | @more c c₁ c₂ s ss hat hd _ ih =>
    obtain ⟨passed, made, hmoves, hminor, hsettled⟩ := declaration_ok hc hd
    have hpos := List.length_pos_iff.2 hsettled.ne_nil
    have hlength := hmoves.length
    have hc₁ := hmoves.hasEnd hc
    obtain ⟨passed', made', hrest, hminor', hle, hbehind⟩ := ih hc₁
    refine ⟨passed ++ passed', made' ++ made, hmoves.trans hrest, hminor'.append hminor, ?_,
      fun more c' z hr hz => ?_⟩
    · rw [List.length_cons, List.length_append]
      omega
    · obtain ⟨_, _, hmoves', hagain⟩ := Ends.ok
        ((completesTrees room more).declaration.completes Unit (c.rest.length + 1) c hc) hd
      obtain ⟨rfl, rfl⟩ := hmoves.unique hmoves'
      have hcurrent : c'.current = c.current := current_of_head? (by
        rw [hr.rest, List.append_assoc]
        exact hmoves.head?_append hc hsettled.ne_nil _)
      have hsuits : (passed' ++ z).head? = some c₁.current ∨
          Follows (· ≠ .else) (passed' ++ z) := by
        by_cases hp : passed' = []
        · subst hp
          rwa [List.nil_append, ← hrest.current_eq hc₁]
        · exact .inl (hrest.head?_append hc₁ hp z)
      have hok := hagain (by omega) () c' _ hr.first hsuits
      refine .more (by rw [Cursor.atEnd, hcurrent]; exact hat) hok ?_
      rw [← past_past c₁.nextSite c₂.nextSite (passed' ++ z) z]
      exact hbehind more _ z (rereads_past ..) hz

/-- The first fault is the same whatever comes behind its token, and without the token there are
tokens with which there is none. -/
theorem StopsFirst.again (h : StopsFirst room start ss c c₁) (hstart : HasEnd start.rest) :
    ∃ front made, Moves start front made c₁ ∧ ss.length ≤ front.length ∧
      (∃ what minor, made = ⟨c₁.current, .expected what⟩ :: minor ∧ Minor minor) ∧
      (∀ more start' z, Rereads start start' front z → z.head? = some c₁.current →
        ∃ c', StopsFirst (room + more) start' ss c' (start'.past made c₁.nextSite z)) ∧
      ∃ w, ∀ start' z, Rereads start start' (front ++ w) z → Follows (· ≠ .else) z →
        ∃ ss' last, Series (room + 24) start' ss' last ∧ last.rest = z := by
  obtain ⟨before, made, hbefore, hminor, hle, hagain⟩ := h.series.again hstart
  have hc := hbefore.hasEnd hstart
  obtain ⟨passed, made', hmoves, hstopped⟩ := declaration_error hc h.fault
  have hlength := hmoves.length
  have hfault (more : Nat) : Alongside (fun _ : Unit => declaration (room + more)) c passed made' c₁
      (·.head? = some c₁.current) (.error .fault) ∧
      (24 ≤ more →
        Completable (· ≠ .else) (fun _ : Unit => declaration (room + more)) c passed) := by
    obtain ⟨_, _, hmoves', hfault⟩ := Ends.error
      ((completesTrees room more).declaration.completes Unit (c.rest.length + 1) c hc) h.fault rfl
    obtain ⟨rfl, rfl⟩ := hmoves.unique hmoves'
    exact hfault (by omega)
  refine ⟨before ++ passed, made' ++ made, hbefore.trans hmoves, ?_, ?_,
    fun more start' z hr hz => ?_, ?_⟩
  · rw [List.length_append]
    omega
  · cases hstopped with
    | fault what hminor' => exact ⟨what, _, rfl, hminor'.append hminor⟩
  · have hhead := hmoves.head?_eq hc hz
    refine ⟨_, hagain more start' _ hr.first (.inl hhead), ?_, ?_⟩
    · have hcurrent : (start'.past made c.nextSite (passed ++ z)).current = c.current :=
        current_of_head? hhead
      rw [Cursor.atEnd, hcurrent]
      exact h.notEnd
    · rw [← past_past c.nextSite c₁.nextSite (passed ++ z) z]
      exact (hfault more).1 () _ z (rereads_past ..) hz
  · by_cases hp : passed = []
    · subst hp
      refine ⟨[], fun start' z hr hz => ⟨ss, _, hagain 24 start' z ?_ (.inr hz), rfl⟩⟩
      rwa [List.append_nil, List.append_nil] at hr
    · obtain ⟨w, hw⟩ := (hfault 24).2 (Nat.le_refl _) hp
      refine ⟨w, fun start' z hr hz => ?_⟩
      rw [List.append_assoc] at hr
      have hhead : ((passed ++ w) ++ z).head? = some c.current := by
        rw [List.append_assoc]
        exact hmoves.head?_append hc hp _
      have hseries := hagain 24 start' _ hr.first (.inl hhead)
      obtain ⟨s, last, hok, hlast⟩ := hw () _ z (rereads_past ..) hz
      refine ⟨_, last, hseries.concat ?_ hok, hlast⟩
      have hcurrent : (start'.past made c.nextSite (passed ++ w ++ z)).current = c.current :=
        current_of_head? hhead
      rw [Cursor.atEnd, hcurrent]
      exact h.notEnd

end

section
variable {room : Nat} {site : Site} {tokens : List Token} {c c₁ : Cursor}
  {ss : List Statement} {parsed : Parsed (List Statement)} {r : Report}

theorem start?_eq_some (h : start? tokens site = some c) :
    c.rest = tokens ∧ c.reports = [] ∧ c.nextSite = site := by
  obtain ⟨last, -, rfl⟩ := Option.map_eq_some_iff.1 h
  exact ⟨rfl, rfl, rfl⟩

theorem program?_eq_some (h : program? room site tokens = some parsed) : ∃ start last,
    start? tokens site = some start ∧
      programFrom room start.ahead start = some (parsed.tree, last) ∧
      parsed.reports = last.reports.reverse := by
  obtain ⟨start, hstart, h⟩ := Option.bind_eq_some_iff.1 h
  obtain ⟨⟨ss, last⟩, hrun, h⟩ := Option.bind_eq_some_iff.1 h
  cases h
  exact ⟨start, last, hstart, hrun, rfl⟩

/-- No report is taken back. -/
theorem programFrom_suffix {bound : List Token} (h : programFrom room bound c = some (ss, c₁)) :
    c.reports <:+ c₁.reports := by
  induction bound generalizing c ss with
  | nil =>
    cases h
    exact List.suffix_rfl
  | cons t bound ih =>
    cases hat : c.atEnd with
    | true =>
      rw [programFrom, if_pos hat] at h
      cases h
      exact List.suffix_rfl
    | false =>
      have hread := (readsTrees room).declaration c
      cases hd : declaration room c with
      | ok s c₂ =>
        simp only [programFrom, hat, hd, Bool.false_eq_true, if_false, Option.map_eq_some_iff] at h
        obtain ⟨⟨rest, c₃⟩, hrest, heq⟩ := h
        cases heq
        exact (hread.ok hd).1.onward.reports.trans (ih hrest)
      | error stop c₂ =>
        simp only [programFrom, hat, hd, Bool.false_eq_true, if_false, Option.bind_eq_some_iff] at h
        obtain ⟨rest, -, hrest⟩ := h
        exact (fails_afterStop (hread.error hd)).1.reports.trans (ih hrest :)

theorem programFrom_of_series {front bound : List Token} (h : Series room c ss c₁)
    (hlen : front.length = ss.length) :
    programFrom room (front ++ bound) c =
      (programFrom room bound c₁).map fun p => (ss ++ p.1, p.2) := by
  induction h generalizing front with
  | none c =>
    rw [List.eq_nil_of_length_eq_zero hlen]
    exact Option.map_id'.symm
  | more hat hd _ ih =>
    obtain ⟨t, front, rfl⟩ := List.exists_cons_of_length_eq_add_one hlen
    rw [List.cons_append, programFrom_of_round (.statement hat hd), ih (Nat.succ.inj hlen),
      Option.map_map]
    rfl

theorem find?_minor {minor : List Report} (hminor : Minor minor) :
    minor.reverse.find? (·.fault.fatal) = none := by
  rw [List.find?_eq_none]
  intro r hr
  simp [hminor r (List.mem_reverse.1 hr)]

/-- The first fatal report is the one behind minor ones. -/
theorem find?_fatal {minor reports : List Report} (h : r :: minor <:+ reports)
    (hr : r.fault.fatal = true) (hminor : Minor minor) :
    reports.reverse.find? (·.fault.fatal) = some r := by
  obtain ⟨later, rfl⟩ := h
  simp [List.find?_append, find?_minor hminor, hr]

/-- A program with such a first fault has its report. -/
theorem StopsFirst.reports {start : Cursor} (h : StopsFirst room start ss c c₁)
    (hstart : start? tokens site = some start) (hlen : ss.length ≤ tokens.length)
    (hparsed : program? room site tokens = some parsed) :
    ∃ reports, parsed.reports = reports.reverse ∧ c₁.reports <:+ reports := by
  obtain ⟨start', last, hstart', hrun, hreports⟩ := program?_eq_some hparsed
  obtain rfl : start' = start := Option.some.inj (hstart'.symm.trans hstart)
  refine ⟨last.reports, hreports, ?_⟩
  have hahead : ss.length < start'.ahead.length := by
    rw [Cursor.ahead, List.length_cons, (start?_eq_some hstart).1]
    omega
  obtain ⟨t, bound, hbound⟩ := List.exists_cons_of_ne_nil (List.ne_nil_of_length_pos
    (show 0 < (start'.ahead.drop ss.length).length by rw [List.length_drop]; omega))
  rw [← List.take_append_drop ss.length start'.ahead, hbound, programFrom_of_series h.series
    (List.length_take_of_le (Nat.le_of_lt hahead)), Option.map_eq_some_iff] at hrun
  obtain ⟨⟨rest, last'⟩, hrun, heq⟩ := hrun
  obtain ⟨-, rfl⟩ := Prod.mk.inj heq
  simp only [programFrom, h.notEnd, h.fault, Bool.false_eq_true, if_false,
    Option.bind_eq_some_iff] at hrun
  obtain ⟨later, -, hrun⟩ := hrun
  exact (programFrom_suffix hrun :)

/-- Behind statements the report of what stopped the next one is the first fatal one. -/
theorem Series.find?_afterStop {start : Cursor} {stop : Stop} {reports : List Report}
    (h : Series room start ss c) (hend : HasEnd start.rest) (hnone : start.reports = [])
    (hd : declaration room c = .error stop c₁) (hsuffix : (afterStop stop c₁).reports <:+ reports) :
    ∃ fault, reports.reverse.find? (·.fault.fatal) = some ⟨c₁.current, fault⟩ ∧
      (fault ≠ .tooMuchNesting → stop = .fault) := by
  obtain ⟨passed, made, hmoves, hminor, -⟩ := h.again hend
  obtain ⟨passed', made', hmoves', hstopped⟩ := declaration_error (hmoves.hasEnd hend) hd
  obtain ⟨fault, minor, hfatal, hminor', hstop⟩ := hstopped.afterStop hmoves'
  have hreports := hstop.reports
  rw [hmoves.reports, hnone, List.append_nil, List.cons_append] at hreports
  refine ⟨fault, find?_fatal (hreports ▸ hsuffix) hfatal (hminor'.append hminor), fun hnest => ?_⟩
  cases stop with
  | fault => rfl
  | tooDeep =>
    cases (List.cons.inj hreports).1
    exact absurd rfl hnest

/-- A program that is read without a fault that stops a reader. -/
def Accepts (room : Nat) (site : Site) (tokens : List Token) : Prop :=
  ∃ parsed, program? room site tokens = some parsed ∧ parsed.firstFatal? = none

/-- An accepted program is statements up to an end token. -/
theorem accepts_iff {start : Cursor} (hend : HasEnd tokens)
    (hstart : start? tokens site = some start) :
    Accepts room site tokens ↔ ∃ ss last, Series room start ss last ∧ last.atEnd = true := by
  obtain ⟨hrest, hnone, -⟩ := start?_eq_some hstart
  have hstartEnd : HasEnd start.rest := hrest ▸ hend
  constructor
  · rintro ⟨parsed, hparsed, hfirst⟩
    obtain ⟨parsed', start', last, hparsed', hstart', hrounds, hat, hreports, -⟩ :=
      exists_program? room site hend
    obtain rfl : parsed' = parsed := Option.some.inj (hparsed'.symm.trans hparsed)
    obtain rfl : start' = start := Option.some.inj (hstart'.symm.trans hstart)
    refine (hrounds.series_or_stop hstartEnd).elim (fun h => ⟨_, last, h, hat⟩) ?_
    rintro ⟨ss, c, stop, c₁, hseries, -, hd, hsuffix⟩
    obtain ⟨fault, hfind, -⟩ := hseries.find?_afterStop hstartEnd hnone hd hsuffix
    rw [Parsed.firstFatal?, hreports, hfind] at hfirst
    cases hfirst
  · rintro ⟨ss, last, hseries, hat⟩
    obtain ⟨passed, made, hmoves, hminor, -⟩ := hseries.again hstartEnd
    refine ⟨_, program?_of_rounds hstart hseries.rounds hstartEnd hat, ?_⟩
    rw [Parsed.firstFatal?, hmoves.reports, hnone, List.append_nil]
    exact find?_minor hminor

/-- What is accepted is accepted with more room. -/
theorem Accepts.more (hend : HasEnd tokens) (h : Accepts room site tokens) (more : Nat) :
    Accepts (room + more) site tokens := by
  obtain ⟨start, hstart, hrest, -⟩ := exists_start hend site
  have hstartEnd : HasEnd start.rest := hrest ▸ hend
  obtain ⟨ss, last, hseries, hat⟩ := (accepts_iff hend hstart).1 h
  obtain ⟨passed, made, hmoves, -, -, hagain⟩ := hseries.again hstartEnd
  have hlast := (hmoves.hasEnd hstartEnd).head?_eq
  refine (accepts_iff hend hstart).2 ⟨ss, _, hagain more start last.rest ⟨hmoves.rest, rfl⟩
    (.inl hlast), ?_⟩
  rwa [Cursor.atEnd, current_of_head? (c := start.past made last.nextSite last.rest) hlast]

/-- The first fatal report is of a first fault, unless the room was used up. -/
theorem exists_stopsFirst (hend : HasEnd tokens) (hparsed : program? room site tokens = some parsed)
    (hfirst : parsed.firstFatal? = some r) (hnest : r.fault ≠ .tooMuchNesting) :
    ∃ start ss c c₁, start? tokens site = some start ∧ StopsFirst room start ss c c₁ := by
  obtain ⟨parsed', start, last, hparsed', hstart, hrounds, hat, hreports, -⟩ :=
    exists_program? room site hend
  obtain rfl : parsed' = parsed := Option.some.inj (hparsed'.symm.trans hparsed)
  obtain ⟨hrest, hnone, -⟩ := start?_eq_some hstart
  have hstartEnd : HasEnd start.rest := hrest ▸ hend
  rcases hrounds.series_or_stop hstartEnd with
    hseries | ⟨ss, c, stop, c₁, hseries, hat', hd, hsuffix⟩
  · have haccepts := (accepts_iff hend hstart).2 ⟨_, last, hseries, hat⟩
    obtain ⟨parsed₁, hparsed₁, hnone₁⟩ := haccepts
    cases hparsed₁.symm.trans hparsed
    cases hnone₁.symm.trans hfirst
  · obtain ⟨fault, hfind, hstop⟩ := hseries.find?_afterStop hstartEnd hnone hd hsuffix
    rw [Parsed.firstFatal?, hreports, hfind] at hfirst
    cases hfirst
    obtain rfl := hstop hnest
    exact ⟨start, ss, c, c₁, hstart, hseries, hat', hd⟩

/-- The tokens in front of the first fault, and what is known of them and of the next one. -/
theorem exists_earliest (hend : HasEnd tokens) (hparsed : program? room site tokens = some parsed)
    (hfirst : parsed.firstFatal? = some r) (hnest : r.fault ≠ .tooMuchNesting) :
    ∃ front behind, tokens = front ++ r.token :: behind ∧
      (∀ more later parsed',
        program? (room + more) site (front ++ r.token :: later) = some parsed' →
          parsed'.firstFatal? = some r) ∧
      ∃ w, Accepts (room + 24) site (front ++ w ++ [blank .eof]) := by
  obtain ⟨start, ss, c, c₁, hstart, hstops⟩ := exists_stopsFirst hend hparsed hfirst hnest
  obtain ⟨hrest, -, hsite⟩ := start?_eq_some hstart
  have hstartEnd : HasEnd start.rest := hrest ▸ hend
  obtain ⟨front, made, hmoves, hlen, ⟨what, minor, rfl, hminor⟩, hagain, w, hw⟩ :=
    hstops.again hstartEnd
  have htokens : tokens = front ++ c₁.current :: c₁.rest.tail := by
    rw [← hrest, hmoves.rest, ← (hmoves.hasEnd hstartEnd).rest_eq_cons]
  have hfound (more : Nat) (later : List Token) (parsed' : Parsed (List Statement))
      (hparsed' : program? (room + more) site (front ++ c₁.current :: later) = some parsed') :
      parsed'.firstFatal? = some ⟨c₁.current, .expected what⟩ := by
    obtain ⟨start', last, hstart', -⟩ := program?_eq_some hparsed'
    obtain ⟨hrest', hnone, hsite'⟩ := start?_eq_some hstart'
    obtain ⟨c', hstops'⟩ := hagain more start' _ ⟨hrest', hsite'.trans hsite.symm⟩ rfl
    obtain ⟨reports, hreports, hsuffix⟩ := hstops'.reports hstart'
      (by rw [List.length_append]; omega) hparsed'
    rw [Cursor.past, hnone, List.append_nil] at hsuffix
    rw [Parsed.firstFatal?, hreports, find?_fatal hsuffix rfl hminor]
  obtain rfl : r = ⟨c₁.current, .expected what⟩ := by
    have hsame := hfound 0 c₁.rest.tail parsed (htokens ▸ hparsed)
    exact Option.some.inj (hfirst.symm.trans hsame)
  refine ⟨front, c₁.rest.tail, htokens, hfound, w, ?_⟩
  have hend' : HasEnd (front ++ w ++ [blank .eof]) := ⟨blank .eof, by simp, rfl⟩
  obtain ⟨start', hstart', hrest', -, hsite'⟩ := exists_start hend' site
  obtain ⟨ss', last, hseries, hlast⟩ := hw start' [blank .eof] ⟨hrest', hsite'.trans hsite.symm⟩
    (follows_cons (by decide))
  refine (accepts_iff hend' hstart').2 ⟨ss', last, hseries, ?_⟩
  rw [Cursor.atEnd, Cursor.current, hlast]
  rfl

/-- The first fault is reported at the earliest token, if it is no nesting too deep for the room.
Whatever comes behind that token, the same fault is the first one with as much or more room, and no
program is accepted with any room. But the tokens in front of it can be made a program that is. -/
theorem program?_stops_earliest (hend : ∃ t ∈ tokens, t.kind = .eof)
    (hparsed : program? room site tokens = some parsed) (hfirst : parsed.firstFatal? = some r)
    (hroom : r.fault ≠ .tooMuchNesting ∨ 23 * tokens.length ≤ room) :
    ∃ i, tokens[i]? = some r.token ∧
      (∀ tokens', tokens.take (i + 1) <+: tokens' →
        (∀ room' parsed', room ≤ room' → program? room' site tokens' = some parsed' →
          parsed'.firstFatal? = some r) ∧
        ((∃ t ∈ tokens', t.kind = .eof) → ∀ room', ¬ Accepts room' site tokens')) ∧
      ∃ w, Accepts (room + 24) site (tokens.take i ++ w ++ [blank .eof]) := by
  have hnest : r.fault ≠ .tooMuchNesting := hroom.elim id fun hroom =>
    program?_unnested hend hroom hparsed r (List.mem_of_find?_eq_some hfirst)
  obtain ⟨front, behind, rfl, hfound, w, hw⟩ := exists_earliest hend hparsed hfirst hnest
  refine ⟨front.length, by simp, fun tokens' hprefix => ?_, w, by rwa [List.take_left]⟩
  obtain ⟨later, rfl⟩ : ∃ later, tokens' = front ++ r.token :: later := by
    obtain ⟨later, rfl⟩ := hprefix
    exact ⟨later, by simp [List.take_length_add_append]⟩
  refine ⟨fun room' parsed' hle hparsed' => ?_, fun hend' room' haccepts => ?_⟩
  · obtain ⟨more, rfl⟩ := Nat.exists_eq_add_of_le hle
    exact hfound more later parsed' hparsed'
  · -- With the larger one of the two rooms the program would be accepted, too.
    obtain ⟨parsed', hparsed', hnone⟩ := haccepts.more hend' room
    rw [Nat.add_comm] at hparsed'
    cases hnone.symm.trans (hfound room' later parsed' hparsed')

/-- The tokens of `f ( 1 ;`. -/
def openCall : List Token :=
  [⟨.identifier, "f", .nil, 1⟩, ⟨.leftParen, "(", .nil, 1⟩, ⟨.number, "1", .number 1, 1⟩,
   ⟨.semicolon, ";", .nil, 1⟩, ⟨.eof, "", .nil, 1⟩]

theorem program?_stops_earliest_openCall :
    (∃ t ∈ openCall, t.kind = .eof) ∧ ∃ parsed r, program? 60 0 openCall = some parsed ∧
      parsed.firstFatal? = some r ∧ r.fault = .expected .parenAfterArguments ∧
      (∀ tokens', openCall.take 4 <+: tokens' → (∃ t ∈ tokens', t.kind = .eof) →
        ¬ Accepts 60 0 tokens') ∧
      ∃ w, Accepts 84 0 (openCall.take 3 ++ w ++ [blank .eof]) := by
  have hend : ∃ t ∈ openCall, t.kind = .eof := by decide
  have hread : (program? 60 0 openCall).map Parsed.firstFatal? =
      some (some ⟨⟨.semicolon, ";", .nil, 1⟩, .expected .parenAfterArguments⟩) := rfl
  obtain ⟨parsed, hparsed, hfirst⟩ := Option.map_eq_some_iff.1 hread
  obtain ⟨i, hi, hnot, hcompleted⟩ := program?_stops_earliest hend hparsed hfirst (.inl nofun)
  obtain rfl : i = 3 := by
    have hk : openCall[i]?.map Token.kind = some .semicolon := by rw [hi]; rfl
    match i with
    | 0 | 1 | 2 | 4 => cases hk
    | 3 => rfl
    | i + 5 => cases hk
  exact ⟨hend, parsed, _, hparsed, hfirst, rfl,
    fun tokens' hprefix hend' => (hnot tokens' hprefix).2 hend' 60, hcompleted⟩

end

end Lox.Grammar
