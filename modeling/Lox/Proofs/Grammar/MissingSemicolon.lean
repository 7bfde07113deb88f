import Lox.Proofs.Grammar.Earliest
import Lox.Proofs.Grammar.Joining
import Lox.Proofs.Grammar.Recovery

/-!
# Statements without their semicolon

A `print` statement, a declaration of a variable and an expression statement end with a semicolon of
their own. Where it is left out in front of a keyword that begins a statement, the tokens in front
of it are read as before, and the semicolon is missed at the keyword.

Recovery skips the token of a fault in any case. So the keyword is lost with the statement in front
of it, and reading goes on at the first place behind the keyword where a statement may begin. What
is read from there is no longer what the program says: the next statement has lost its beginning.
-/
namespace Lox.Grammar

/-- What is missed where the semicolon of a statement is left out. A `return` statement has one too,
but without it the value may be missed instead. -/
def semicolon? : Statement → Option Expected
  | .print _ => some .semicolonAfterPrint
  | .var _ _ => some .semicolonAfterVariable
  | .expression _ => some .semicolonAfterExpression
  | _ => none

/-- A reader passes the tokens `written` and a semicolon. With a token behind `written` that begins
a statement it stops there, since it misses the semicolon. -/
def NeedsSemicolon {α : Type} (what : Expected) (act : Reader α) (c : Cursor)
    (written : List Token) (c₁ : Cursor) : Prop :=
  ∃ semi made, semi.kind = .semicolon ∧ Moves c (written ++ [semi]) made c₁ ∧
    ∀ c' t z, Rereads c c' written (t :: z) → startsStatement t.kind = true →
      act c' = .error .fault ((c'.past made c₁.nextSite (t :: z)).report t (.expected what))

/-- A reader reads the semicolon of a statement last, behind at least so many tokens. -/
def SemicolonLast (least : Nat) (act : Reader Statement) : Prop :=
  ∀ c s c₁ what, HasEnd c.rest → act c = .ok s c₁ → semicolon? s = some what →
    ∃ written, least ≤ written.length ∧ NeedsSemicolon what act c written c₁

/-- A reader of other statements. -/
def Compound (act : Reader Statement) : Prop := ∀ c s c₁, act c = .ok s c₁ → semicolon? s = none

section
variable {kind other : Token.Kind}

theorem startsStatement_ne (h : startsStatement kind = true) (ho : startsStatement other = false) :
    kind ≠ other := by
  rintro rfl
  rw [h] at ho
  cases ho

theorem mayFollow_of_startsStatement (h : startsStatement kind = true) : MayFollow 0 kind := by
  revert h
  cases kind <;> decide

end

theorem nextSite_advance (c : Cursor) : c.advance.nextSite = c.nextSite := by
  unfold Cursor.advance
  split <;> rfl

section
variable {α β : Type} {deep : Prop} {what : Expected} {first : Reader α}
  {kinds : List Token.Kind} {k : Option Token → Reader β} {c c' c₁ c₂ : Cursor}
  {written passed z : List Token} {made : List Report} {semi : Token} {a : α} {b : β}

/-- Another reading of tokens that were passed begins with the same one. -/
theorem Rereads.current_eq (h : Rereads c c' written z)
    (hmoves : Moves c (written ++ passed) made c₁) (hw : written ≠ []) :
    c'.current = c.current := by
  cases written with
  | nil => exact absurd rfl hw
  | cons u written =>
    rw [Cursor.current, Cursor.current, h.rest, hmoves.rest]
    rfl

/-- The semicolon itself. -/
theorem needsSemicolon_expect {a' : α} (hc : HasEnd c.rest)
    (hok : (expect .semicolon what >>= fun _ => pure a) c = .ok a' c₁) :
    NeedsSemicolon what (expect .semicolon what >>= fun _ => (pure a : Reader α)) c [] c₁ := by
  by_cases hk : c.current.kind = .semicolon
  · have hexpect : expect .semicolon what c = .ok c.current c.advance := if_pos hk
    rw [bind_of_ok hexpect] at hok
    cases hok
    refine ⟨c.current, [], hk, moves_advance hc (by rw [hk]; decide), fun c' t z hr ht => ?_⟩
    have hcurrent : c'.current = t := by rw [Cursor.current, hr.rest]; rfl
    have hfault : expect .semicolon what c' =
        .error .fault (c'.report c'.current (.expected what)) :=
      if_neg (by rw [hcurrent]; exact startsStatement_ne ht rfl)
    rw [bind_of_error hfault, hcurrent, nextSite_advance, past_nil hr]
  · have hexpect : expect .semicolon what c = .error .fault _ := if_neg hk
    rw [bind_of_error hexpect] at hok
    cases hok

/-- A first step that is over where a statement begins, since nothing of it goes on there. -/
theorem NeedsSemicolon.bind (next : α → Reader β)
    (hfirst : ∀ n, Completes deep n (MayFollow 0) first fun _ : Unit => first)
    (hc : HasEnd c.rest) (hok : first c = .ok a c₁)
    (h : NeedsSemicolon what (next a) c₁ written c₂) :
    ∃ passed made, Moves c passed made c₁ ∧
      NeedsSemicolon what (first >>= next) c (passed ++ written) c₂ := by
  obtain ⟨passed, made, hmoves, hagain⟩ := Ends.ok (hfirst (c.rest.length + 1) c hc) hok
  obtain ⟨semi, made', hsemi, hmoves', hfault⟩ := h
  have hlength := hmoves.length
  refine ⟨passed, made, hmoves, semi, made' ++ made, hsemi, ?_, fun c' t z hr ht => ?_⟩
  · rw [List.append_assoc]
    exact hmoves.trans hmoves'
  · have hsuits : (written ++ t :: z).head? = some c₁.current ∨
        Follows (MayFollow 0) (written ++ t :: z) := by
      cases written with
      | nil => exact .inr (follows_cons (mayFollow_of_startsStatement ht))
      | cons u written =>
        refine .inl ?_
        rw [← (hmoves.hasEnd hc).head?_eq, hmoves'.rest]
        rfl
    rw [bind_of_ok (hagain (by omega) () c' _ hr.first hsuits),
      hfault _ t z (rereads_past made c₁ c' written (t :: z)) ht, past_past]

/-- A token that may come does, and then the rest follows. -/
theorem NeedsSemicolon.accept (hc : HasEnd c.rest) (hk : c.current.kind ∈ kinds)
    (heof : .eof ∉ kinds) (h : NeedsSemicolon what (k (some c.current)) c.advance written c₁) :
    NeedsSemicolon what (Grammar.accept kinds >>= k) c (c.current :: written) c₁ := by
  obtain ⟨semi, made, hsemi, hmoves, hfault⟩ := h
  have hne : c.current.kind ≠ .eof := fun he => heof (he ▸ hk)
  refine ⟨semi, made, hsemi, ?_, fun c' t z hr ht => ?_⟩
  · simpa using (moves_advance hc hne).trans hmoves
  · obtain ⟨hcurrent, hadvance, hpast⟩ := Rereads.advance hr hne
    rw [accept_of_mem (hcurrent ▸ hk), hcurrent, hfault _ t z hadvance ht, hpast]

/-- A token that may come does not, and does not begin a statement if nothing is written. -/
theorem NeedsSemicolon.refuse (hk : c.current.kind ∉ kinds)
    (hw : written ≠ [] ∨ ∀ kind ∈ kinds, startsStatement kind = false)
    (h : NeedsSemicolon what (k none) c written c₁) :
    NeedsSemicolon what (Grammar.accept kinds >>= k) c written c₁ := by
  obtain ⟨semi, made, hsemi, hmoves, hfault⟩ := h
  refine ⟨semi, made, hsemi, hmoves, fun c' t z hr ht => ?_⟩
  rw [accept_bind_of_not_mem, hfault c' t z hr ht]
  by_cases hnil : written = []
  · subst hnil
    have hcurrent : c'.current = t := by rw [Cursor.current, hr.rest]; rfl
    exact fun hmem => startsStatement_ne ht (hw.resolve_left (absurd rfl) _ hmem) (by rw [hcurrent])
  · rwa [hr.current_eq hmoves hnil]

end

section
variable {deep : Prop} {least : Nat} {what : Expected} {expression first : Reader Expr}
  {statement declaration : Reader Statement} {act : Reader Statement} {α : Type}
  {kinds : List Token.Kind} {k : Option Token → Reader Statement}

theorem Compound.bind {first : Reader α} {next : α → Reader Statement}
    (h : ∀ a, Compound (next a)) : Compound (first >>= next) := by
  intro c s c₂ hok
  obtain ⟨a, c₁, -, hnext⟩ := ok_of_bind hok
  exact h a c₁ s c₂ hnext

theorem compound_pure {s : Statement} (h : semicolon? s = none) : Compound (pure s) := by
  intro c s' c₁ hok
  cases hok
  exact h

theorem Compound.semicolonLast (h : Compound act) : SemicolonLast least act := by
  intro c s c₁ what hc hok hs
  rw [h c s c₁ hok] at hs
  cases hs

theorem SemicolonLast.any (h : SemicolonLast least act) : SemicolonLast 0 act :=
  fun c s c₁ what hc hok hs =>
    (h c s c₁ what hc hok hs).imp fun written h => ⟨Nat.zero_le written.length, h.2⟩

theorem semicolonLast_tooDeep : SemicolonLast least tooDeep := by
  intro c s c₁ what hc hok
  cases hok

theorem semicolonLast_fail (fault : Fault) : SemicolonLast least (fail fault) := by
  intro c s c₁ what hc hok
  cases hok

theorem semicolonLast_expect {s : Statement} (hs : semicolon? s = some what) :
    SemicolonLast 0 (do
      let _ ← expect .semicolon what
      pure s) := by
  intro c s' c₁ what' hc hok hs'
  obtain rfl : s = s' := by
    obtain ⟨_, _, -, hpure⟩ := ok_of_bind hok
    cases hpure
    rfl
  obtain rfl : what = what' := Option.some.inj (hs.symm.trans hs')
  exact ⟨[], Nat.zero_le _, needsSemicolon_expect hc hok⟩

/-- A first step that takes a token makes it one that is written. -/
theorem SemicolonLast.bind {first : Reader α} {next : α → Reader Statement}
    (h : ∀ a, SemicolonLast 0 (next a))
    (hfirst : ∀ n, Completes deep n (MayFollow 0) first fun _ : Unit => first)
    (hleast : least = 0 ∨ least = 1 ∧ Taking first) : SemicolonLast least (first >>= next) := by
  intro c s c₂ what hc hok hs
  obtain ⟨a, c₁, hact, hrest⟩ := ok_of_bind hok
  obtain ⟨hc₁, -⟩ := (hfirst 0).steady c a c₁ hc hact
  obtain ⟨written, -, h⟩ := h a c₁ s c₂ what hc₁ hrest hs
  obtain ⟨passed, made, hmoves, h⟩ := h.bind next hfirst hc hact
  refine ⟨_, ?_, h⟩
  rcases hleast with rfl | ⟨rfl, ht⟩
  · exact Nat.zero_le _
  · have hlt := (ht c a c₁ hc hact).2
    have hlength := hmoves.length
    rw [List.length_append]
    omega

/-- A token may come or not. If it does not, something else is written, or it would not begin a
statement. -/
theorem SemicolonLast.accept (hnone : SemicolonLast least (k none))
    (hsome : ∀ t, t.kind ∈ kinds → SemicolonLast 0 (k (some t))) (heof : .eof ∉ kinds)
    (hleast : least = 1 ∨ least = 0 ∧ ∀ kind ∈ kinds, startsStatement kind = false) :
    SemicolonLast least (Grammar.accept kinds >>= k) := by
  intro c s c₁ what hc hok hs
  by_cases hk : c.current.kind ∈ kinds
  · rw [accept_of_mem hk] at hok
    have hadvance := moves_advance hc fun he => heof (he ▸ hk)
    obtain ⟨written, -, h⟩ := hsome _ hk c.advance s c₁ what (hadvance.hasEnd hc) hok hs
    refine ⟨_, ?_, h.accept hc hk heof⟩
    rw [List.length_cons]
    omega
  · rw [accept_bind_of_not_mem hk] at hok
    obtain ⟨written, hle, h⟩ := hnone c s c₁ what hc hok hs
    refine ⟨written, hle, h.refuse hk (hleast.imp (fun hone => ?_) fun hzero => hzero.2)⟩
    exact List.length_pos_iff.1 (by omega)

theorem semicolonLast_printRest (he : CompletesExpr deep expression expression) :
    SemicolonLast 1 (printRest expression) :=
  .bind (fun _ => semicolonLast_expect rfl) (he.completes Unit) (.inr ⟨rfl, he.taking⟩)

theorem semicolonLast_expressionStatement (he : CompletesExpr deep expression expression) :
    SemicolonLast 1 (expressionStatement expression) :=
  .bind (fun _ => semicolonLast_expect rfl) (he.completes Unit) (.inr ⟨rfl, he.taking⟩)

theorem semicolonLast_variableRest (he : CompletesExpr deep expression expression) :
    SemicolonLast 1 (variableRest expression) := by
  have hvalue (n : Nat) :
      Completes deep n (MayFollow 0) (some <$> expression) fun _ : Unit => some <$> expression :=
    (he.continues.map fun _ => some).completes ()
  unfold variableRest
  simp only [expect_bind_eq .identifier]
  refine .accept (semicolonLast_fail _) (fun name _ => ?_) (by decide) (.inl rfl)
  exact .accept (semicolonLast_expect rfl)
    (fun _ _ => .bind (fun _ => semicolonLast_expect rfl) hvalue (.inl rfl)) (by decide)
    (.inr ⟨rfl, by decide⟩)

theorem compound_forRest : Compound (forRest first expression statement) :=
  .bind fun _ => .bind fun initializer => .bind fun _ => .bind fun _ => .bind fun _ =>
    .bind fun _ => .bind fun _ => compound_pure (by cases initializer <;> rfl)

theorem compound_ifRest : Compound (ifRest expression statement) :=
  .bind fun _ => .bind fun _ => .bind fun _ => .bind fun _ => .bind fun
    | none => compound_pure rfl
    | some _ => .bind fun _ => compound_pure rfl

theorem compound_returnRest (keyword : Token) : Compound (returnRest expression keyword) :=
  .bind fun _ => .bind fun _ => compound_pure rfl

theorem compound_whileRest : Compound (whileRest expression statement) :=
  .bind fun _ => .bind fun _ => .bind fun _ => .bind fun _ => compound_pure rfl

theorem compound_block : Compound (Statement.block <$> blockRest declaration) := by
  rw [map_eq_pure_bind]
  exact .bind fun _ => compound_pure rfl

theorem compound_functionDeclaration : Compound (functionDeclaration declaration) :=
  .bind fun _ => .bind fun _ => .bind fun _ => .bind fun _ => compound_pure rfl

end

section
variable {deep : Prop} {room : Nat}

theorem semicolonLast_statement
    (he : CompletesExpr deep (expression (room + 1)) (expression (room + 1))) :
    SemicolonLast 1 (statement (room + 3)) := by
  refine .accept (semicolonLast_expressionStatement he) (fun t ht => ?_) (by decide) (.inl rfl)
  simp only [statementStarts, List.mem_cons, List.not_mem_nil, or_false] at ht
  rcases ht with hk | hk | hk | hk | hk | hk <;> simp only [hk]
  · exact compound_forRest.semicolonLast
  · exact compound_ifRest.semicolonLast
  · exact (compound_returnRest t).semicolonLast
  · exact (semicolonLast_printRest he).any
  · exact compound_whileRest.semicolonLast
  · exact compound_block.semicolonLast

theorem semicolonLast_variableOrStatement (room : Nat) :
    SemicolonLast 1 (variableOrStatement room) :=
  have he (room : Nat) := (completesTrees room 0).expression
  .accept (semicolonLast_statement (he (room + 1)))
    (fun _ _ => (semicolonLast_variableRest (he (room + 2))).any) (by decide) (.inl rfl)

/-- A name does not follow the keyword of a function where it did not before: nothing that begins a
statement is a name. -/
theorem not_fun {c c' c₁ : Cursor} {written z : List Token} {made : List Report} {semi t : Token}
    (hnot : ¬ (c.current.kind = .fun ∧ c.second.kind = .identifier))
    (hmoves : Moves c (written ++ [semi]) made c₁) (hw : written ≠ [])
    (hr : Rereads c c' written (t :: z)) (ht : startsStatement t.kind = true) :
    ¬ (c'.current.kind = .fun ∧ c'.second.kind = .identifier) := by
  rintro ⟨hfun, hname⟩
  rw [hr.current_eq hmoves hw] at hfun
  refine hnot ⟨hfun, ?_⟩
  match written, hw with
  | [_], _ =>
    have hsecond : c'.second = t := by rw [Cursor.second, hr.rest]; rfl
    exact absurd (hsecond ▸ hname) (startsStatement_ne ht rfl)
  | _ :: u :: _, _ =>
    have hsecond : c'.second = c.second := by
      rw [Cursor.second, Cursor.second, hr.rest, hmoves.rest]
      rfl
    rwa [← hsecond]

theorem semicolonLast_declaration (room : Nat) : SemicolonLast 1 (declaration room) := by
  match room with
  | 0 | 1 | 2 | 3 => exact semicolonLast_tooDeep
  | room + 4 =>
    intro c s c₁ what hc hok hs
    by_cases hfun : c.current.kind = .fun ∧ c.second.kind = .identifier
    · rw [declaration_of_fun hfun] at hok
      exact absurd (hs.symm.trans (compound_functionDeclaration c s c₁ hok)) nofun
    · rw [declaration_of_not_fun hfun] at hok
      obtain ⟨written, hle, semi, made, hsemi, hmoves, hfault⟩ :=
        semicolonLast_variableOrStatement room c s c₁ what hc hok hs
      have hw : written ≠ [] := List.length_pos_iff.1 hle
      refine ⟨written, hle, semi, made, hsemi, hmoves, fun c' t z hr ht => ?_⟩
      rw [declaration_of_not_fun (not_fun hfun hmoves hw hr ht), hfault c' t z hr ht]

end

section
variable {room : Nat} {site next : Site} {ts : List Token} {e : Token} {c c₁ c₂ : Cursor}
  {ss ss' : List Statement}

theorem Series.split (h : Series room c (ss ++ ss') c₂) :
    ∃ c₁, Series room c ss c₁ ∧ Series room c₁ ss' c₂ := by
  induction ss generalizing c with
  | nil => exact ⟨c, .none c, h⟩
  | cons s ss ih =>
    cases h with
    | more hat hd hrest =>
      obtain ⟨c₁, hfirst, hsecond⟩ := ih hrest
      exact ⟨c₁, .more hat hd hfirst, hsecond⟩

theorem start?_concat (ts : List Token) (e : Token) (site : Site) :
    start? (ts ++ [e]) site = some (startAt ts e site) := by
  rw [start?, List.getLast?_concat]
  rfl

/-- A program without a report is a series of statements. -/
theorem series_of_program? (hts : ∀ t ∈ ts, t.kind ≠ .eof) (he : e.kind = .eof)
    (h : program? room site (ts ++ [e]) = some ⟨ss, [], next⟩) :
    ∃ last, Series room (startAt ts e site) ss last ∧ Moves (startAt ts e site) ts [] last ∧
      last.nextSite = next := by
  have hend : HasEnd (ts ++ [e]) := ⟨e, by simp, he⟩
  obtain ⟨parsed, start, last, hparsed, hstart, hrounds, hat, hreports, hnext⟩ :=
    exists_program? room site hend
  obtain rfl : parsed = ⟨ss, [], next⟩ := Option.some.inj (hparsed.symm.trans h)
  obtain rfl : startAt ts e site = start := Option.some.inj ((start?_concat ..).symm.trans hstart)
  have hnone : last.reports = [] := List.reverse_eq_nil_iff.1 hreports.symm
  rcases hrounds.series_or_stop hend with hseries | ⟨ss', c, stop, c₂, hseries, -, hd, hsuffix⟩
  · have hlast : last.rest = [e] := by
      rw [hrounds.at_end hend hat, startAt, findIdx_eof hts he, List.drop_left]
    exact ⟨last, hseries, ⟨by rw [hlast]; rfl, hts, hnone⟩, hnext.symm⟩
  · obtain ⟨fault, hfind, -⟩ := hseries.find?_afterStop hend rfl hd hsuffix
    rw [hnone] at hfind
    cases hfind

/-- A series of statements is a program of its own. -/
theorem Series.alone (h : Series room c ss c₁) (hc : HasEnd c.rest) (he : e.kind = .eof) :
    ∃ passed made, Moves c passed made c₁ ∧
      program? room c.nextSite (passed ++ [e]) = some ⟨ss, made.reverse, c₁.nextSite⟩ := by
  obtain ⟨passed, made, hmoves, -, -, hagain⟩ := h.again hc
  have hend : HasEnd (startAt passed e c.nextSite).rest := hasEnd_startAt he
  have hseries : Series room (startAt passed e c.nextSite) ss _ :=
    hagain 0 _ [e] ⟨rfl, rfl⟩ (.inr (follows_cons (by rw [he]; decide)))
  have hat : ((startAt passed e c.nextSite).past made c₁.nextSite [e]).atEnd = true := by
    simp [Cursor.atEnd, Cursor.current, Cursor.past, he]
  refine ⟨passed, made, hmoves, ?_⟩
  rw [program?_of_rounds (start?_concat ..) hseries.rounds hend hat, Cursor.past, startAt,
    List.append_nil]

/-- A program without a report can be cut between any two of its statements. -/
theorem program?_split (hts : ∀ t ∈ ts, t.kind ≠ .eof) (he : e.kind = .eof)
    (h : program? room site (ts ++ [e]) = some ⟨ss ++ ss', [], next⟩) :
    ∃ front rest middle, ts = front ++ rest ∧
      program? room site (front ++ [e]) = some ⟨ss, [], middle⟩ ∧
      program? room middle (rest ++ [e]) = some ⟨ss', [], next⟩ := by
  obtain ⟨last, hseries, hwhole, rfl⟩ := series_of_program? hts he h
  have hend : HasEnd (startAt ts e site).rest := hasEnd_startAt he
  obtain ⟨c₁, hfirst, hsecond⟩ := hseries.split
  obtain ⟨front, made, hmoves, hfront⟩ := hfirst.alone hend he
  obtain ⟨rest, made', hmoves', hrest⟩ := hsecond.alone (hmoves.hasEnd hend) he
  -- A report of either piece would be one of the whole.
  obtain ⟨rfl, hmade⟩ := hwhole.unique (hmoves.trans hmoves')
  obtain ⟨rfl, rfl⟩ := List.append_eq_nil_iff.1 hmade
  exact ⟨front, rest, c₁.nextSite, rfl, hfront, hrest⟩

end

section
variable {room : Nat} {site next : Site} {ts own front written rest : List Token}
  {e t semi : Token} {c' : Cursor} {s s' : Statement} {ss before after : List Statement}
  {what : Expected}

/-- A statement with a semicolon is read up to the semicolon, and without it up to there. -/
theorem exists_written (hown : ∀ t ∈ own, t.kind ≠ .eof) (he : e.kind = .eof)
    (h : program? room site (own ++ [e]) = some ⟨[s], [], next⟩) (hs : semicolon? s = some what) :
    ∃ written semi, own = written ++ [semi] ∧ written ≠ [] ∧ semi.kind = .semicolon ∧
      ∀ c' t z, c'.rest = written ++ t :: z → c'.nextSite = site →
        startsStatement t.kind = true → c'.atEnd = false ∧
        declaration room c' = .error .fault (c'.past [⟨t, .expected what⟩] next (t :: z)) := by
  obtain ⟨last, hseries, hwhole, rfl⟩ := series_of_program? hown he h
  have hend : HasEnd (startAt own e site).rest := hasEnd_startAt he
  cases hseries with
  | more hat hd hnil =>
    cases hnil
    obtain ⟨written, hle, semi, made, hsemi, hmoves, hfault⟩ :=
      semicolonLast_declaration room _ s last what hend hd hs
    have hw : written ≠ [] := List.length_pos_iff.1 hle
    obtain ⟨rfl, rfl⟩ := hwhole.unique hmoves
    refine ⟨written, semi, rfl, hw, hsemi, fun c' t z hrest hsite ht => ?_⟩
    have hr : Rereads (startAt (written ++ [semi]) e site) c' written (t :: z) := ⟨hrest, hsite⟩
    refine ⟨?_, hfault c' t z hr ht⟩
    rw [Cursor.atEnd, hr.current_eq hmoves hw]
    exact hat

/-- A program without a report is read in the same way in front of anything but an `else`. -/
theorem rounds_in_front (hfront : ∀ t ∈ front, t.kind ≠ .eof) (he : e.kind = .eof)
    (h : program? room site (front ++ [e]) = some ⟨before, [], next⟩) {z : List Token}
    (hrest : c'.rest = front ++ z) (hsite : c'.nextSite = site) (hz : Follows (· ≠ .else) z) :
    Rounds room c' before (c'.past [] next z) := by
  obtain ⟨last, hseries, hwhole, rfl⟩ := series_of_program? hfront he h
  have hend : HasEnd (startAt front e site).rest := hasEnd_startAt he
  obtain ⟨passed, made, hmoves, -, -, hagain⟩ := hseries.again hend
  obtain ⟨rfl, rfl⟩ := hwhole.unique hmoves
  exact (hagain 0 c' z ⟨hrest, hsite⟩ (.inr hz)).rounds

/-- The rounds behind a fault at a token that is no end token. -/
theorem rounds_behind_fault {stopped : Cursor} (hend : HasEnd stopped.rest)
    (hat : c'.atEnd = false) (hd : declaration room c' = .error .fault stopped)
    (hk : stopped.current.kind ≠ .eof) :
    ∃ q parsed last, IsLeast {q | 0 < q ∧ Resumes stopped.rest q} q ∧
      program? room stopped.nextSite (stopped.rest.drop q) = some parsed ∧
      Rounds room c' parsed.tree last ∧ last.atEnd = true ∧
      last.reports = parsed.reports.reverse ++ stopped.reports ∧
      last.nextSite = parsed.nextSite := by
  obtain ⟨q, hrecover, hresumes⟩ := recover_resumes (i := 0) hend
  obtain ⟨rest, hrecover', hdrop⟩ := recover_hasEnd hend
  obtain rfl : rest = stopped.rest.drop q := Option.some.inj (hrecover'.symm.trans hrecover)
  obtain ⟨parsed, -, -, hparsed, -⟩ := exists_program? room stopped.nextSite hdrop
  obtain ⟨front, e', behind, hsplit, hfront, he'⟩ := hdrop.split
  obtain ⟨last, hrounds, hlast⟩ := rounds_of_program? hfront he' (hsplit ▸ hparsed)
    (c := { stopped with rest := stopped.rest.drop q }) hsplit rfl
  refine ⟨q, parsed, last, ?_, hparsed, .round (.fault hat hd hrecover) hrounds, hlast⟩
  rcases hresumes with ⟨t, hmem, hkind, -⟩ | ⟨t, -, -, hleast⟩
  · rw [Option.mem_def, ← List.head?_eq_getElem?, hend.head?_eq] at hmem
    cases hmem
    exact absurd hkind hk
  · exact hleast

/-- The statement is lost, and so is the token that the semicolon is missed at. What is behind it is
read from the first place on where a statement may begin. -/
theorem program?_of_missing (rest : List Token) {middle : Site}
    (hfront : ∀ t ∈ front, t.kind ≠ .eof) (hown : ∀ t ∈ own, t.kind ≠ .eof) (he : e.kind = .eof)
    (h : program? room site (front ++ [e]) = some ⟨before, [], middle⟩)
    (hone : program? room middle (own ++ [e]) = some ⟨[s], [], next⟩)
    (hs : semicolon? s = some what) (ht : startsStatement t.kind = true) :
    ∃ written semi q parsed, own = written ++ [semi] ∧ semi.kind = .semicolon ∧
      IsLeast {q | 0 < q ∧ Resumes (t :: rest ++ [e]) q} q ∧
      program? room next ((t :: rest ++ [e]).drop q) = some parsed ∧
      program? room site (front ++ written ++ t :: rest ++ [e]) =
        some ⟨before ++ parsed.tree, ⟨t, .expected what⟩ :: parsed.reports, parsed.nextSite⟩ := by
  obtain ⟨written, semi, rfl, hw, hsemi, hfault⟩ := exists_written hown he hone hs
  obtain ⟨u, written, rfl⟩ := List.exists_cons_of_ne_nil hw
  -- The last statement in front would take an `else` that follows it.
  have helse : u.kind ≠ .else := not_else_of_program? he hone
  let start := startAt (front ++ u :: written ++ t :: rest) e site
  let c := start.past [] middle (u :: written ++ (t :: rest ++ [e]))
  have hstart : Rounds room start before c :=
    rounds_in_front hfront he h (by simp [start, startAt]) rfl (follows_cons helse)
  obtain ⟨hat, hd⟩ := hfault c t (rest ++ [e]) rfl rfl ht
  have hend : HasEnd (t :: rest ++ [e]) := ⟨e, by simp, he⟩
  obtain ⟨q, parsed, last, hleast, hparsed, hrounds, hlast, hreports, hnext⟩ :=
    rounds_behind_fault hend hat hd (startsStatement_ne ht rfl)
  refine ⟨_, semi, q, parsed, rfl, hsemi, hleast, hparsed, ?_⟩
  have hstartEnd : HasEnd start.rest := hasEnd_startAt he
  rw [program?_of_rounds (start?_concat ..) (hstart.trans hrounds) hstartEnd hlast, hreports, hnext]
  simp [Cursor.past, c, start, startAt]

/-- Two statements of a program without a report, the first of them with a semicolon of its own and
the second one with a keyword in front. Without the semicolon there is one report of it, at the
keyword, and the statements in front are read as before. But the keyword is lost, too: reading goes
on at the first place behind it where a statement may begin, with what is read from there alone. -/
theorem program?_without_semicolon (hts : ∀ t ∈ ts, t.kind ≠ .eof) (he : e.kind = .eof)
    (h : program? room site (ts ++ [e]) = some ⟨before ++ s :: s' :: after, [], next⟩)
    (hs : semicolon? s = some what) :
    ∃ front written semi t rest middle behind,
      ts = front ++ written ++ semi :: t :: rest ∧ semi.kind = .semicolon ∧
      program? room site (front ++ [e]) = some ⟨before, [], middle⟩ ∧
      program? room middle (written ++ [semi, e]) = some ⟨[s], [], behind⟩ ∧
      program? room behind (t :: rest ++ [e]) = some ⟨s' :: after, [], next⟩ ∧
      (startsStatement t.kind = true → ∃ q parsed,
        IsLeast {q | 0 < q ∧ Resumes (t :: rest ++ [e]) q} q ∧
        program? room behind ((t :: rest ++ [e]).drop q) = some parsed ∧
        program? room site (front ++ written ++ t :: rest ++ [e]) = some
          ⟨before ++ parsed.tree, ⟨t, .expected what⟩ :: parsed.reports, parsed.nextSite⟩) := by
  obtain ⟨front, tail, middle, rfl, hfront, htail⟩ := program?_split hts he h
  have htailEnd (t : Token) (ht : t ∈ tail) := hts t (List.mem_append_right _ ht)
  have hcons : program? room middle (tail ++ [e]) = some ⟨[s] ++ s' :: after, [], next⟩ := htail
  obtain ⟨own, rest, behind, rfl, hone, hrest⟩ := program?_split htailEnd he hcons
  have hfrontEnd (t : Token) (ht : t ∈ front) := hts t (List.mem_append_left _ ht)
  have hownEnd (t : Token) (ht : t ∈ own) := htailEnd t (List.mem_append_left _ ht)
  cases rest with
  | nil => cases (program?_nil room behind he).symm.trans hrest
  | cons t rest =>
    obtain ⟨written, semi, rfl, -, hsemi, -⟩ := exists_written hownEnd he hone hs
    refine ⟨front, written, semi, t, rest, middle, behind, by simp, hsemi, hfront,
      by simpa using hone, hrest, fun ht => ?_⟩
    obtain ⟨written', semi', q, parsed, hsame, -, hlast⟩ :=
      program?_of_missing rest hfrontEnd hownEnd he hfront hone hs ht
    obtain ⟨rfl, -⟩ := List.append_inj' hsame rfl
    exact ⟨q, parsed, hlast⟩

/-- The tokens of `print 1 ; print 2 ; print 3 ;`, without an end token. -/
def threePrints : List Token :=
  [⟨.print, "print", .nil, 1⟩, ⟨.number, "1", .number 1, 1⟩, ⟨.semicolon, ";", .nil, 1⟩,
   ⟨.print, "print", .nil, 1⟩, ⟨.number, "2", .number 2, 1⟩, ⟨.semicolon, ";", .nil, 1⟩,
   ⟨.print, "print", .nil, 1⟩, ⟨.number, "3", .number 3, 1⟩, ⟨.semicolon, ";", .nil, 1⟩]

theorem program?_without_semicolon_threePrints :
    (∀ t ∈ threePrints, t.kind ≠ .eof) ∧
      program? 60 0 (threePrints ++ [blank .eof]) =
        some ⟨[.print (.literal (.number 1)), .print (.literal (.number 2)),
          .print (.literal (.number 3))], [], 0⟩ ∧
      ∃ i t, ∃ parsed : Parsed (List Statement),
        (∃ semi ∈ threePrints[i]?, semi.kind = .semicolon) ∧ t ∈ threePrints[i + 1]? ∧
        program? 60 0 (threePrints.eraseIdx i ++ [blank .eof]) =
          some ⟨parsed.tree, ⟨t, .expected .semicolonAfterPrint⟩ :: parsed.reports,
            parsed.nextSite⟩ := by
  have hts : ∀ t ∈ threePrints, t.kind ≠ .eof := by decide
  have hread : program? 60 0 (threePrints ++ [blank .eof]) =
      some ⟨[.print (.literal (.number 1)), .print (.literal (.number 2)),
        .print (.literal (.number 3))], [], 0⟩ := rfl
  have hprint : ∀ i < 9, threePrints[i]?.map Token.kind = some .semicolon →
      ∀ kind ∈ threePrints[i + 1]?.map Token.kind, startsStatement kind = true := by decide
  obtain ⟨front, written, semi, t, rest, middle, behind, hsplit, hsemi, -, -, -, hlost⟩ :=
    program?_without_semicolon hts rfl
      (show _ = some (Parsed.mk ([] ++ _ :: _ :: _) _ _) from hread) rfl
  have hi : threePrints[(front ++ written).length]? = some semi := by rw [hsplit]; simp
  have ht : threePrints[(front ++ written).length + 1]? = some t := by
    rw [hsplit, List.getElem?_append_right (Nat.le_add_right _ 1), Nat.add_sub_cancel_left]
    rfl
  have hlt : (front ++ written).length < 9 := (List.getElem?_eq_some_iff.1 hi).1
  obtain ⟨q, parsed, -, -, hparsed⟩ := hlost
    (hprint _ hlt (by rw [hi, ← hsemi]; rfl) t.kind (by rw [ht]; rfl))
  refine ⟨hts, hread, _, t, parsed, ⟨semi, hi, hsemi⟩, ht, ?_⟩
  have herase : threePrints.eraseIdx (front ++ written).length = front ++ written ++ t :: rest := by
    rw [hsplit]
    simp [List.eraseIdx_append_of_length_le]
  rw [herase]
  exact hparsed

/-- Without the first semicolon the second statement is not kept either, though nothing is wrong
with it. -/
theorem next_print_lost :
    program? 60 0 (threePrints ++ [blank .eof]) =
        some ⟨[.print (.literal (.number 1)), .print (.literal (.number 2)),
          .print (.literal (.number 3))], [], 0⟩ ∧
      program? 60 0 (threePrints.eraseIdx 2 ++ [blank .eof]) =
        some ⟨[.print (.literal (.number 3))],
          [⟨⟨.print, "print", .nil, 1⟩, .expected .semicolonAfterPrint⟩], 0⟩ ∧
      ∀ made next, program? 60 0 (threePrints.eraseIdx 2 ++ [blank .eof]) ≠
        some ⟨[.print (.literal (.number 2)), .print (.literal (.number 3))], made, next⟩ := by
  have hread : program? 60 0 (threePrints.eraseIdx 2 ++ [blank .eof]) =
      some ⟨[.print (.literal (.number 3))],
        [⟨⟨.print, "print", .nil, 1⟩, .expected .semicolonAfterPrint⟩], 0⟩ := rfl
  refine ⟨rfl, hread, fun made next h => ?_⟩
  have hlength := congrArg (Option.map (·.tree.length)) (hread.symm.trans h)
  simp at hlength

end

end Lox.Grammar
