import Lox.Proofs.Grammar.Rounds

/-!
# Going on after a fault

However malformed a program is, reading it ends at its first end token, and nothing behind that
token matters. On the way every round moves on: it yields a statement, or it stops at a fault with
a report of it and goes on at the first later place where a statement may begin.
-/
namespace Lox.Grammar

/-- How a round ends that begins at the index `p` of some tokens, and where the next one begins. -/
inductive RoundEnds (room : Nat) (tokens : List Token) (p : Nat) (c c₁ : Cursor) :
    List Statement → Nat → Prop where
  /-- A statement was read. What was reported meanwhile stopped nothing. -/
  | statement {s : Statement} {q : Nat} {made : List Report} :
    declaration room c = .ok s c₁ → c₁.reports = made ++ c.reports → Minor made →
      RoundEnds room tokens p c c₁ [s] q
  /-- Reading stopped at the index `i`, and the fault there is the last report and the only one that
  stopped anything. -/
  | fault {stop : Stop} {stopped : Cursor} {i q : Nat} {t : Token} {fault : Fault}
      {made : List Report} :
    declaration room c = .error stop stopped → p ≤ i → stopped.rest = tokens.drop i →
      t ∈ tokens[i]? → fault.fatal = true → c₁.reports = ⟨t, fault⟩ :: (made ++ c.reports) →
      Minor made → ResumesFrom tokens i q → RoundEnds room tokens p c c₁ [] q

section
variable {room : Nat} {tokens passed : List Token} {made : List Report} {c c₁ : Cursor}
  {ss : List Statement} {p : Nat}

theorem Moves.drop (h : Moves c passed made c₁) (hp : c.rest = tokens.drop p) :
    c₁.rest = tokens.drop (p + passed.length) := by
  rw [← List.drop_drop, ← hp, h.rest, List.drop_left]

theorem HasEnd.current_mem (h : HasEnd c.rest) (hp : c.rest = tokens.drop p) :
    c.current ∈ tokens[p]? := by
  rw [← Nat.add_zero p, ← List.getElem?_drop, ← hp, h.rest_eq_cons]
  rfl

theorem Round.ends (h : Round room c ss c₁) (hc : HasEnd c.rest) (hp : c.rest = tokens.drop p) :
    ∃ q, p < q ∧ c₁.rest = tokens.drop q ∧ RoundEnds room tokens p c c₁ ss q := by
  cases h with
  | statement hat hd =>
    obtain ⟨passed, made, hmoves, hminor, hsettled⟩ := declaration_ok hc hd
    have hpos := List.length_pos_iff.2 hsettled.ne_nil
    exact ⟨p + passed.length, by omega, hmoves.drop hp, .statement hd hmoves.reports hminor⟩
  | @fault stop c₂ rest hat hd hrecover =>
    obtain ⟨passed, made, hmoves, hstopped⟩ := declaration_error hc hd
    obtain ⟨fault, minor, hfatal, hminor, hstop⟩ := hstopped.afterStop hmoves
    have hdrop := hmoves.drop hp
    have hend := hmoves.hasEnd hc
    obtain ⟨q, hrecover', hresumes⟩ := recover_resumes (hdrop ▸ hend)
    obtain rfl : rest = tokens.drop q := by
      rw [hdrop, hrecover'] at hrecover
      exact (Option.some.inj hrecover).symm
    refine ⟨q, ?_, rfl, .fault hd (Nat.le_add_right _ _) hdrop (hend.current_mem hdrop) hfatal
      hstop.reports hminor hresumes⟩
    rcases hresumes with ⟨t, ht, hk, rfl⟩ | ⟨t, ht, hk, ⟨hlt, -⟩, -⟩
    · have hpassed : passed ≠ [] := by
        rintro rfl
        have hcurrent : c.current = t := Option.some.inj ((hc.current_mem hp).symm.trans ht)
        simp [Cursor.atEnd, hcurrent, hk] at hat
      have hpos := List.length_pos_iff.2 hpassed
      omega
    · omega

theorem findIdx_eof {before after : List Token} {e : Token} (hbefore : ∀ t ∈ before, t.kind ≠ .eof)
    (he : e.kind = .eof) : (before ++ e :: after).findIdx (·.kind = .eof) = before.length := by
  rw [List.findIdx_append, if_neg (by simpa using hbefore)]
  simp [List.findIdx_cons, he]

/-- Rounds that end at an end token end at the first one. -/
theorem Rounds.at_end (h : Rounds room c ss c₁) (hend : HasEnd c.rest) (hat : c₁.atEnd = true) :
    c₁.rest = c.rest.drop (c.rest.findIdx (·.kind = .eof)) := by
  obtain ⟨passed, made, hmoves⟩ := h.moves hend
  have hcons := (hmoves.hasEnd hend).rest_eq_cons
  have hfirst : c.rest = passed ++ c₁.current :: c₁.rest.tail := by rw [hmoves.rest, ← hcons]
  rw [hfirst, findIdx_eof hmoves.noEnd (by simpa [Cursor.atEnd] using hat), List.drop_left]
  exact hcons

/-- The rounds of a program, wherever its tokens are read up to their first end token. -/
theorem rounds_of_program? {site : Site} {before after later : List Token} {e : Token}
    {parsed : Parsed (List Statement)} (hbefore : ∀ t ∈ before, t.kind ≠ .eof) (he : e.kind = .eof)
    (h : program? room site (before ++ e :: after) = some parsed)
    (hrest : c.rest = before ++ e :: later) (hsite : c.nextSite = site) :
    ∃ last, Rounds room c parsed.tree last ∧ last.atEnd = true ∧
      last.reports = parsed.reports.reverse ++ c.reports ∧ last.nextSite = parsed.nextSite := by
  have hfixes := Relabelling.fixes_lines_id
  have hsame : c.rest = before.map (Token.relabel (.lines id)) ++ e :: later := by
    rw [hrest, (hfixes []).tokens]
  obtain ⟨last, hrounds, hlast, hmade, hnext⟩ := program?_again (ρ := .lines id) (fun _ => rfl) he
    hbefore h ⟨e, e, rfl, rfl, Iff.rfl⟩ (.inl ⟨later, rfl⟩) hsame hsite
  have hreports : parsed.reports.map (Report.relabel (.lines id)) = parsed.reports :=
    List.map_id'' (fun _ => rfl) _
  rw [Statement.relabelAll_of_fixes _ (hfixes _)] at hrounds
  rw [hreports] at hmade
  exact ⟨last, hrounds, by simp [Cursor.atEnd, Cursor.current, hlast, he], hmade, hnext⟩

/-- What is behind the first end token does not matter. -/
theorem program?_of_take {site : Site} {tokens' : List Token} {parsed : Parsed (List Statement)}
    (hend : HasEnd tokens) (h : program? room site tokens = some parsed)
    (htake : tokens'.take (tokens.findIdx (·.kind = .eof) + 1) =
      tokens.take (tokens.findIdx (·.kind = .eof) + 1)) :
    program? room site tokens' = some parsed := by
  obtain ⟨before, e, after, rfl, hbefore, he⟩ := hend.split
  obtain ⟨later, rfl⟩ : ∃ later, tokens' = before ++ e :: later := by
    rw [findIdx_eof hbefore he, List.take_length_add_append] at htake
    refine ⟨tokens'.drop (before.length + 1), ?_⟩
    conv_lhs => rw [← List.take_append_drop (before.length + 1) tokens', htake]
    simp
  have hend' : HasEnd (before ++ e :: later) := ⟨e, by simp, he⟩
  obtain ⟨start, hstart, hrest, hreports, hsite⟩ := exists_start hend' site
  obtain ⟨last, hrounds, hat, hmade, hnext⟩ := rounds_of_program? hbefore he h hrest hsite
  rw [program?_of_rounds hstart hrounds (hrest ▸ hend') hat, hmade, hreports, hnext,
    List.append_nil, List.reverse_reverse]

end

/-- Reading a program ends well, whatever is wrong with it and however deep it is nested: it goes in
rounds from the first token to the first end token. Every round moves on, and yields a statement or
ends with a fault behind which reading goes on at the first place where it may. What comes behind
the end token does not matter. -/
theorem program?_recovers (room : Nat) (site : Site) (tokens : List Token)
    (hend : ∃ t ∈ tokens, t.kind = .eof) :
    ∃ parsed start last, program? room site tokens = some parsed ∧
      start? tokens site = some start ∧ Rounds room start parsed.tree last ∧
      parsed.reports = last.reports.reverse ∧
      last.rest = tokens.drop (tokens.findIdx (·.kind = .eof)) ∧
      (∀ ss c ss' c₁, Rounds room start ss c → Round room c ss' c₁ →
        ∃ p q, c.rest = tokens.drop p ∧ c₁.rest = tokens.drop q ∧ p < q ∧
          RoundEnds room tokens p c c₁ ss' q) ∧
      ∀ tokens', tokens'.take (tokens.findIdx (·.kind = .eof) + 1) =
          tokens.take (tokens.findIdx (·.kind = .eof) + 1) →
        program? room site tokens' = some parsed := by
  obtain ⟨parsed, start, last, hparsed, hstart, hrounds, hat, hreports, -⟩ :=
    exists_program? room site hend
  obtain ⟨start', hstart', hrest, -, -⟩ := exists_start hend site
  obtain rfl : start' = start := Option.some.inj (hstart'.symm.trans hstart)
  have hstartEnd : HasEnd start'.rest := hrest ▸ hend
  refine ⟨parsed, start', last, hparsed, hstart, hrounds, hreports, ?_,
    fun ss c ss' c₁ hss hround => ?_, fun tokens' => program?_of_take hend hparsed⟩
  · rw [hrounds.at_end hstartEnd hat, hrest]
  · obtain ⟨passed, made, hmoves⟩ := hss.moves hstartEnd
    have hp : c.rest = tokens.drop (0 + passed.length) := hmoves.drop hrest
    obtain ⟨q, hlt, hq, hends⟩ := hround.ends (hmoves.hasEnd hstartEnd) hp
    exact ⟨_, q, hp, hq, hlt, hends⟩

/-- The tokens of `print 1 ) ; var ; print 2 ;`, with another one behind the end. -/
def strayParen : List Token :=
  [⟨.print, "print", .nil, 1⟩, ⟨.number, "1", .number 1, 1⟩, ⟨.rightParen, ")", .nil, 1⟩,
   ⟨.semicolon, ";", .nil, 1⟩, ⟨.var, "var", .nil, 2⟩, ⟨.semicolon, ";", .nil, 2⟩,
   ⟨.print, "print", .nil, 3⟩, ⟨.number, "2", .number 2, 3⟩, ⟨.semicolon, ";", .nil, 3⟩,
   ⟨.eof, "", .nil, 3⟩, ⟨.else, "else", .nil, 3⟩]

theorem program?_recovers_strayParen :
    (∃ t ∈ strayParen, t.kind = .eof) ∧ ∃ parsed, ∃ last : Cursor,
      program? 60 0 strayParen = some parsed ∧ parsed.tree.length = 1 ∧
      parsed.reports.map Report.fault =
        [.expected .semicolonAfterPrint, .expected .variableName] ∧
      parsed.reports = last.reports.reverse ∧ last.rest = strayParen.drop 9 ∧
      program? 60 0 (strayParen.take 10) = some parsed := by
  have hend : ∃ t ∈ strayParen, t.kind = .eof := by decide
  obtain ⟨parsed, -, last, hparsed, -, -, hreports, hlast, -, hsame⟩ :=
    program?_recovers 60 0 strayParen hend
  have hread : (program? 60 0 strayParen).map
      (fun parsed => (parsed.tree.length, parsed.reports.map Report.fault)) =
        some (1, [.expected .semicolonAfterPrint, .expected .variableName]) := rfl
  rw [hparsed, Option.map_some, Option.some.injEq, Prod.mk.injEq] at hread
  exact ⟨hend, parsed, last, hparsed, hread.1, hread.2, hreports, hlast, hsame _ rfl⟩

end Lox.Grammar
