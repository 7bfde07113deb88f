import Lox.Proofs.Grammar.RepeatedTrees
import Mathlib.Order.Bounds.Defs

/-!
# Reading a program round by round

A program is read in rounds. A round reads one statement, or it stops at a fault and skips to a
place where a statement may begin. The bound on the number of rounds never matters: every round
moves on, and none passes an end token. So reading is the same as going through rounds up to the
end.

Two readings of the same tokens go through the same rounds, as far as the first one goes. Only a
fault can be told what comes later: recovery from it may run into what is behind the tokens. It does
not if the second reading has an end token there too, or if a semicolon is the last of the tokens.
-/
namespace Lox.Grammar

/-- One round, and the statement that it yields if there is one. -/
inductive Round (room : Nat) (c : Cursor) : List Statement → Cursor → Prop where
  | statement {s : Statement} {c₁ : Cursor} :
    c.atEnd = false → declaration room c = .ok s c₁ → Round room c [s] c₁
  | fault {stop : Stop} {c₁ : Cursor} {rest : List Token} :
    c.atEnd = false → declaration room c = .error stop c₁ → recover c₁.rest = some rest →
      Round room c [] { afterStop stop c₁ with rest := rest }

/-- Some rounds, one behind the other. -/
inductive Rounds (room : Nat) : Cursor → List Statement → Cursor → Prop where
  | none (c : Cursor) : Rounds room c [] c
  | round {c c₁ c₂ : Cursor} {ss ss' : List Statement} :
    Round room c ss c₁ → Rounds room c₁ ss' c₂ → Rounds room c (ss ++ ss') c₂

section
variable {room : Nat} {c c₁ c₂ : Cursor} {s : Statement} {ss ss' : List Statement} {stop : Stop}

theorem Rounds.trans (h : Rounds room c ss c₁) (h' : Rounds room c₁ ss' c₂) :
    Rounds room c (ss ++ ss') c₂ := by
  induction h with
  | none c => exact h'
  | round hround _ ih =>
    rw [List.append_assoc]
    exact .round hround (ih h')

theorem declaration_ok (hc : HasEnd c.rest) (h : declaration room c = .ok s c₁) :
    ∃ passed made, Moves c passed made c₁ ∧ Minor made ∧ Settled passed := by
  have hrepeats := (repeatsTrees (ρ := .lines id) (fun _ => rfl) room).declaration 0 c hc
  obtain ⟨passed, made, hmoves, hminor, hsettled, -⟩ := Ends.ok hrepeats h
  exact ⟨passed, made, hmoves, hminor, hsettled⟩

theorem declaration_error (hc : HasEnd c.rest) (h : declaration room c = .error stop c₁) :
    ∃ passed made, Moves c passed made c₁ ∧ Stopped c₁ stop made := by
  have hrepeats := (repeatsTrees (ρ := .lines id) (fun _ => rfl) room).declaration 0 c hc
  obtain ⟨passed, made, hmoves, hstopped, -⟩ := Ends.error hrepeats h
  exact ⟨passed, made, hmoves, hstopped⟩

@[simp] theorem rest_afterStop (stop : Stop) (c : Cursor) : (afterStop stop c).rest = c.rest := by
  cases stop <;> rfl

/-- A reader that was stopped leaves one report that stops a reader. -/
theorem Stopped.afterStop {passed : List Token} {made : List Report} (h : Stopped c₁ stop made)
    (hmoves : Moves c passed made c₁) : ∃ fault minor, fault.fatal = true ∧ Minor minor ∧
      Moves c passed (⟨c₁.current, fault⟩ :: minor) (afterStop stop c₁) := by
  cases h with
  | fault what hminor => exact ⟨.expected what, _, rfl, hminor, hmoves⟩
  | tooDeep hminor =>
    refine ⟨.tooMuchNesting, made, rfl, hminor, hmoves.rest, hmoves.noEnd, ?_⟩
    exact congrArg _ hmoves.reports

end

/-- Whether reading may go on at this index after a fault in front of it. -/
def Resumes (tokens : List Token) (p : Nat) : Prop :=
  (∃ t ∈ tokens[p - 1]?, t.kind = .semicolon) ∨
    ∃ t ∈ tokens[p]?, startsStatement t.kind = true ∨ t.kind = .eof

section
variable {tokens rest : List Token} {previous t : Token}

theorem resumes_cons_add_two (p : Nat) :
    Resumes (t :: tokens) (p + 2) ↔ Resumes tokens (p + 1) := by
  simp [Resumes]

theorem resumes_drop (i : Nat) {k : Nat} (hk : 0 < k) :
    Resumes (tokens.drop i) k ↔ Resumes tokens (i + k) := by
  simp only [Resumes, List.getElem?_drop, Nat.add_sub_assoc hk]

theorem resumes_one : Resumes (previous :: t :: tokens) 1 ↔
    t.kind = .eof ∨ previous.kind = .semicolon ∨ startsStatement t.kind = true := by
  simp only [Resumes, Nat.sub_self, List.getElem?_cons_zero, List.getElem?_cons_succ,
    Option.mem_def, Option.some.injEq, exists_eq_left']
  tauto

/-- Skipping ends at the first index where reading may go on. -/
theorem skipFrom_least (previous : Token) (h : HasEnd tokens) :
    ∃ k, skipFrom previous tokens = some (tokens.drop k) ∧
      IsLeast {k | Resumes (previous :: tokens) (k + 1)} k := by
  induction tokens generalizing previous with
  | nil => exact absurd h not_hasEnd_nil
  | cons t tokens ih =>
    by_cases hstop : t.kind = .eof ∨ previous.kind = .semicolon ∨ startsStatement t.kind = true
    · exact ⟨0, if_pos hstop, resumes_one.2 hstop, fun _ _ => Nat.zero_le _⟩
    · obtain ⟨k, hskip, hk, hleast⟩ := ih t (h.tail fun hk => hstop (.inl hk))
      refine ⟨k + 1, (if_neg hstop).trans hskip, (resumes_cons_add_two k).2 hk, fun j hj => ?_⟩
      cases j with
      | zero => exact absurd (resumes_one.1 hj) hstop
      | succ j => exact Nat.succ_le_succ (hleast ((resumes_cons_add_two j).1 hj))

/-- Where reading goes on after a fault at some index. -/
def ResumesFrom (tokens : List Token) (i q : Nat) : Prop :=
  (∃ t ∈ tokens[i]?, t.kind = .eof ∧ q = i) ∨
    ∃ t ∈ tokens[i]?, t.kind ≠ .eof ∧ IsLeast {p | i < p ∧ Resumes tokens p} q

theorem recover_resumes {i : Nat} (h : HasEnd (tokens.drop i)) :
    ∃ q, recover (tokens.drop i) = some (tokens.drop q) ∧ ResumesFrom tokens i q := by
  cases hdrop : tokens.drop i with
  | nil => exact absurd (hdrop ▸ h) not_hasEnd_nil
  | cons t later =>
    have hget : t ∈ tokens[i]? := by
      rw [← Nat.add_zero i, ← List.getElem?_drop, hdrop]
      rfl
    by_cases hk : t.kind = .eof
    · exact ⟨i, by rw [recover, if_pos hk, hdrop], .inl ⟨t, hget, hk, rfl⟩⟩
    · have hlater : HasEnd later := (hdrop ▸ h).tail hk
      obtain ⟨k, hskip, hresumes, hleast⟩ := skipFrom_least t hlater
      have hrest : later.drop k = tokens.drop (i + (k + 1)) := by
        rw [← List.drop_drop, hdrop, List.drop_succ_cons]
      have hiff (j : Nat) : Resumes (t :: later) (j + 1) ↔ Resumes tokens (i + (j + 1)) := by
        rw [← hdrop, resumes_drop i (Nat.succ_pos j)]
      refine ⟨i + (k + 1), by rw [recover, if_neg hk, hskip, hrest], .inr ⟨t, hget, hk,
        ⟨by omega, (hiff k).1 hresumes⟩, fun p hp => ?_⟩⟩
      obtain ⟨hlt, hp⟩ := hp
      obtain ⟨j, rfl⟩ : ∃ j, p = i + (j + 1) := ⟨p - i - 1, by omega⟩
      have := hleast ((hiff j).2 hp)
      omega

theorem skipFrom_skips (h : skipFrom previous tokens = some rest) :
    ∃ skipped, tokens = skipped ++ rest ∧ ∀ t ∈ skipped, t.kind ≠ .eof := by
  induction tokens generalizing previous with
  | nil =>
    simp only [skipFrom, Option.ite_none_right_eq_some, Option.some.injEq] at h
    exact ⟨[], h.2, by simp⟩
  | cons t tokens ih =>
    by_cases hstop : t.kind = .eof ∨ previous.kind = .semicolon ∨ startsStatement t.kind = true
    · rw [skipFrom, if_pos hstop] at h
      cases h
      exact ⟨[], rfl, by simp⟩
    · rw [skipFrom, if_neg hstop] at h
      obtain ⟨skipped, rfl, hskipped⟩ := ih h
      refine ⟨t :: skipped, rfl, ?_⟩
      simpa using ⟨fun he => hstop (.inl he), hskipped⟩

/-- No end token is skipped, but a token is if it is no end token. -/
theorem recover_skips (h : recover tokens = some rest) :
    ∃ skipped, tokens = skipped ++ rest ∧ (∀ t ∈ skipped, t.kind ≠ .eof) ∧
      (skipped = [] → ∀ t ∈ tokens.head?, t.kind = .eof) := by
  cases tokens with
  | nil => cases h
  | cons t tokens =>
    by_cases hk : t.kind = .eof
    · rw [recover, if_pos hk] at h
      cases h
      exact ⟨[], rfl, by simp, by simpa using hk⟩
    · rw [recover, if_neg hk] at h
      obtain ⟨skipped, rfl, hskipped⟩ := skipFrom_skips h
      exact ⟨t :: skipped, rfl, by simpa using ⟨hk, hskipped⟩, by simp⟩

end

section
variable {room : Nat} {c c₁ c₂ : Cursor} {ss ss' : List Statement}

/-- Every round takes a token. -/
theorem Round.moves (h : Round room c ss c₁) (hc : HasEnd c.rest) :
    ∃ passed made, Moves c passed made c₁ ∧ passed ≠ [] := by
  cases h with
  | statement hat hd =>
    obtain ⟨passed, made, hmoves, -, hsettled⟩ := declaration_ok hc hd
    exact ⟨passed, made, hmoves, hsettled.ne_nil⟩
  | @fault stop c₂ rest hat hd hrecover =>
    obtain ⟨passed, made, hmoves, hstopped⟩ := declaration_error hc hd
    obtain ⟨fault, minor, -, -, hstop⟩ := hstopped.afterStop hmoves
    obtain ⟨skipped, hrest, hskipped, hnone⟩ := recover_skips hrecover
    refine ⟨passed ++ skipped, _, ⟨?_, fun t ht => ?_, hstop.reports⟩, fun hnil => ?_⟩
    · rw [hmoves.rest, hrest, List.append_assoc]
    · exact (List.mem_append.1 ht).elim (hmoves.noEnd t) (hskipped t)
    · obtain ⟨rfl, rfl⟩ := List.append_eq_nil_iff.1 hnil
      have hcurrent : c.current ∈ c₂.rest.head? := by
        rw [← show c.rest = c₂.rest from hmoves.rest, hc.rest_eq_cons]
        rfl
      simp [Cursor.atEnd, hnone rfl _ hcurrent] at hat

theorem Rounds.moves (h : Rounds room c ss c₁) (hc : HasEnd c.rest) :
    ∃ passed made, Moves c passed made c₁ := by
  induction h with
  | none c => exact ⟨[], [], .refl c⟩
  | round hround _ ih =>
    obtain ⟨passed, made, hmoves, -⟩ := hround.moves hc
    obtain ⟨passed', made', hmoves'⟩ := ih (hmoves.hasEnd hc)
    exact ⟨_, _, hmoves.trans hmoves'⟩

/-- A cursor that is not at the end is at the beginning of a round. -/
theorem exists_round (room : Nat) (hc : HasEnd c.rest) (hat : c.atEnd = false) :
    ∃ ss c₁, Round room c ss c₁ := by
  cases hd : declaration room c with
  | ok s c₁ => exact ⟨_, _, .statement hat hd⟩
  | error stop c₁ =>
    obtain ⟨passed, made, hmoves, -⟩ := declaration_error hc hd
    obtain ⟨rest, hrest, -⟩ := recover_hasEnd (hmoves.hasEnd hc)
    exact ⟨_, _, .fault hat hd hrest⟩

/-- There are rounds up to the end. -/
theorem exists_rounds (room : Nat) (c : Cursor) (hc : HasEnd c.rest) :
    ∃ ss c₁, Rounds room c ss c₁ ∧ c₁.atEnd = true := by
  induction hn : c.rest.length using Nat.strongRecOn generalizing c with
  | ind n ih =>
    cases hat : c.atEnd with
    | true => exact ⟨[], c, .none c, hat⟩
    | false =>
      obtain ⟨ss, c₁, hround⟩ := exists_round room hc hat
      obtain ⟨passed, made, hmoves, hpassed⟩ := hround.moves hc
      have hpos := List.length_pos_iff.2 hpassed
      have hlength := hmoves.length
      obtain ⟨ss', c₂, hrounds, hend⟩ := ih _ (by omega) c₁ (hmoves.hasEnd hc) rfl
      exact ⟨_, c₂, .round hround hrounds, hend⟩

theorem programFrom_of_round {t : Token} {bound : List Token} (h : Round room c ss c₁) :
    programFrom room (t :: bound) c =
      (programFrom room bound c₁).map fun p => (ss ++ p.1, p.2) := by
  cases h with
  | statement hat hd => simp only [programFrom, hat, hd]; rfl
  | fault hat hd hrecover => simp [programFrom, hat, hd, hrecover]

/-- Reading a program is going through its rounds. -/
theorem programFrom_of_rounds {bound : List Token} (h : Rounds room c ss c₁)
    (hc : HasEnd c.rest) (hat : c₁.atEnd = true) (hbound : c.rest.length ≤ bound.length) :
    programFrom room bound c = some (ss, c₁) := by
  induction h generalizing bound with
  | none c => cases bound <;> simp [programFrom, hat]
  | @round c c₂ c₁ ss ss' hround _ ih =>
    obtain ⟨passed, made, hmoves, hpassed⟩ := hround.moves hc
    have hpos := List.length_pos_iff.2 hpassed
    have hlength := hmoves.length
    cases bound with
    | nil => rw [List.length_nil] at hbound; omega
    | cons t bound =>
      rw [List.length_cons] at hbound
      rw [programFrom_of_round hround, ih (hmoves.hasEnd hc) hat (by omega)]
      rfl

theorem program?_of_rounds {site : Site} {tokens : List Token}
    (hstart : start? tokens site = some c) (h : Rounds room c ss c₁) (hc : HasEnd c.rest)
    (hat : c₁.atEnd = true) :
    program? room site tokens = some ⟨ss, c₁.reports.reverse, c₁.nextSite⟩ := by
  have hbound : c.rest.length ≤ c.ahead.length := Nat.le_succ _
  have hrun := programFrom_of_rounds h hc hat hbound
  simp only [program?, hstart, hrun, Option.bind_eq_bind, Option.bind_some]
  rfl

end

section
variable (ρ : Relabelling) (e : Token) (after behind : List Token)

/-- Two readings of the same tokens, up to where the first one has an end token. -/
structure Abreast (before : List Token) (c c' : Cursor) : Prop where
  rest : c.rest = before ++ e :: after
  rest' : c'.rest = before.map (Token.relabel ρ) ++ behind
  noEnd : ∀ t ∈ before, t.kind ≠ .eof
  site : c'.nextSite = ρ.site c.nextSite

/-- What keeps a fault with these tokens in front of the end from being told what is behind them:
either the second reading has the end token too, or the last one of them is a semicolon. -/
def Sealed (before : List Token) : Prop :=
  (∃ later, behind = e.relabel ρ :: later) ∨
    ∃ front t, before = front ++ [t] ∧ t.kind = .semicolon

/-- No fault among these reports is told what is behind the tokens. -/
def AllSealed (before : List Token) (made : List Report) : Prop :=
  (∃ later, behind = e.relabel ρ :: later) ∨ ∀ r ∈ made, r.fault.fatal = true →
    r.token.kind ≠ .eof ∧ ∀ t ∈ before.getLast?, t.kind = .semicolon

end

section
variable {ρ : Relabelling} {e previous : Token} {after behind before : List Token}

theorem ElseAlike.append {ts us : List Token} (h : ElseAlike ts us) (passed : List Token) :
    ElseAlike (passed ++ ts) (passed.map (Token.relabel ρ) ++ us) := by
  cases passed with
  | nil => exact h
  | cons t passed => exact ⟨t, _, rfl, rfl, Iff.rfl⟩

theorem Sealed.alike (h : Sealed ρ e behind before) (he : e.kind = .eof) :
    Alike ρ (before ++ e :: after) (before.map (Token.relabel ρ) ++ behind) := by
  rcases h with ⟨later, rfl⟩ | ⟨front, t, rfl, hk⟩
  · have hend : Settled [e] := settled_singleton (by rw [he]; decide)
    have halike : Alike ρ ([e] ++ after) ([e].map (Token.relabel ρ) ++ later) := hend.alike _ _
    exact halike.append before
  · exact Settled.alike ⟨front, t, rfl, by rw [hk]; decide⟩ _ _

theorem Sealed.tail (h : Sealed ρ e behind (previous :: t :: before)) :
    Sealed ρ e behind (t :: before) := by
  refine h.imp_right ?_
  rintro ⟨front, u, hfront, hk⟩
  cases front with
  | nil => simp at hfront
  | cons v front => exact ⟨front, u, (List.cons.inj hfront).2, hk⟩

/-- Both readings skip the same tokens. -/
theorem skipFrom_sealed (after : List Token) (he : e.kind = .eof)
    (h : Sealed ρ e behind (previous :: before)) : ∃ before₁, before₁ <:+ before ∧
      skipFrom previous (before ++ e :: after) = some (before₁ ++ e :: after) ∧
      skipFrom (previous.relabel ρ) (before.map (Token.relabel ρ) ++ behind) =
        some (before₁.map (Token.relabel ρ) ++ behind) := by
  induction before generalizing previous with
  | nil =>
    refine ⟨[], List.suffix_rfl, if_pos (.inl he), ?_⟩
    rcases h with ⟨later, rfl⟩ | ⟨front, t, hfront, hk⟩
    · exact if_pos (.inl he)
    · have hprevious : previous.kind = .semicolon := by
        cases front with
        | nil => rw [(List.cons.inj hfront).1, hk]
        | cons u front => simp at hfront
      cases behind with
      | nil => exact if_pos (.inl hprevious)
      | cons t behind => exact if_pos (.inr (.inl hprevious))
  | cons t before ih =>
    by_cases hstop : t.kind = .eof ∨ previous.kind = .semicolon ∨ startsStatement t.kind = true
    · exact ⟨t :: before, List.suffix_rfl, if_pos hstop, if_pos hstop⟩
    · obtain ⟨before₁, hsuffix, hskip, hskip'⟩ := ih h.tail
      exact ⟨before₁, hsuffix.trans (List.suffix_cons _ _), (if_neg hstop).trans hskip,
        (if_neg hstop).trans hskip'⟩

theorem recover_sealed (after : List Token) (he : e.kind = .eof)
    (hbefore : ∀ t ∈ before, t.kind ≠ .eof) (h : Sealed ρ e behind before) :
    ∃ before₁, before₁ <:+ before ∧
      recover (before ++ e :: after) = some (before₁ ++ e :: after) ∧
      recover (before.map (Token.relabel ρ) ++ behind) =
        some (before₁.map (Token.relabel ρ) ++ behind) := by
  cases before with
  | nil =>
    rcases h with ⟨later, rfl⟩ | ⟨front, t, hfront, -⟩
    · exact ⟨[], List.suffix_rfl, if_pos he, if_pos he⟩
    · simp at hfront
  | cons t before =>
    have hk : t.kind ≠ .eof := hbefore t List.mem_cons_self
    obtain ⟨before₁, hsuffix, hskip, hskip'⟩ := skipFrom_sealed after he h
    exact ⟨before₁, hsuffix.trans (List.suffix_cons _ _), (if_neg hk).trans hskip,
      (if_neg hk).trans hskip'⟩

end

section
variable {ρ : Relabelling} {e : Token} {after behind before before₁ passed : List Token}
  {room : Nat} {c c' c₁ c₂ : Cursor} {ss : List Statement} {made made' : List Report} {stop : Stop}

namespace AllSealed

theorem mono (h : AllSealed ρ e behind before made) (hsuffix : before₁ <:+ before)
    (hmade : made' ⊆ made) : AllSealed ρ e behind before₁ made' := by
  refine h.imp_right fun h r hr hfatal => ⟨(h r (hmade hr) hfatal).1, fun t ht => ?_⟩
  obtain ⟨front, rfl⟩ := hsuffix
  refine (h r (hmade hr) hfatal).2 t ?_
  rw [List.getLast?_append, ht]
  rfl

/-- Tokens are left where a fault was reported, since it was not reported at the end. -/
theorem here {r : Report} (h : AllSealed ρ e behind before made) (hr : r ∈ made)
    (hfatal : r.fault.fatal = true) (hcurrent : r.token = c.current)
    (hrest : c.rest = before ++ e :: after) (he : e.kind = .eof) : Sealed ρ e behind before := by
  refine h.imp_right fun h => ?_
  obtain ⟨hk, hlast⟩ := h r hr hfatal
  rcases List.eq_nil_or_concat' before with rfl | ⟨front, t, rfl⟩
  · rw [hcurrent, Cursor.current, hrest] at hk
    exact absurd he hk
  · exact ⟨front, t, rfl, hlast t List.getLast?_concat⟩

end AllSealed

namespace Abreast

theorem hasEnd (h : Abreast ρ e after behind before c c') (he : e.kind = .eof) : HasEnd c.rest :=
  ⟨e, by rw [h.rest]; simp, he⟩

theorem atEnd (h : Abreast ρ e after behind before c c') (he : e.kind = .eof)
    (hat : c.atEnd = false) : c'.atEnd = false := by
  rw [Cursor.atEnd, Cursor.current, h.rest] at hat
  rw [Cursor.atEnd, Cursor.current, h.rest']
  cases before with
  | nil => simp [he] at hat
  | cons t before => exact hat

theorem eq_nil (h : Abreast ρ e after behind before c c') (hat : c.atEnd = true) : before = [] := by
  cases before with
  | nil => rfl
  | cons t before =>
    have hcurrent : c.current = t := by rw [Cursor.current, h.rest]; rfl
    exact absurd (by simpa [Cursor.atEnd, hcurrent] using hat) (h.noEnd t List.mem_cons_self)

/-- What the first reading passes is in front of its end token. -/
theorem split (h : Abreast ρ e after behind before c c') (he : e.kind = .eof)
    (hmoves : Moves c passed made c₁) :
    ∃ before₁, before = passed ++ before₁ ∧ c₁.rest = before₁ ++ e :: after ∧
      Begins ρ c c' passed (before₁.map (Token.relabel ρ) ++ behind) := by
  obtain ⟨before₁, rfl, hrest⟩ : ∃ before₁, before = passed ++ before₁ ∧
      c₁.rest = before₁ ++ e :: after := by
    rcases List.append_eq_append_iff.1 (h.rest.symm.trans hmoves.rest) with
      ⟨between, hpassed, hrest⟩ | hbefore
    · cases between with
      | nil => exact ⟨[], by simpa using hpassed.symm, hrest.symm⟩
      | cons t between =>
        have hmem : e ∈ passed := by
          rw [hpassed, (List.cons.inj hrest).1]
          simp
        exact absurd he (hmoves.noEnd e hmem)
    · exact hbefore
  exact ⟨before₁, rfl, hrest, by rw [h.rest', List.map_append, List.append_assoc], h.site⟩

end Abreast

/-- Nesting too deep is reported in both readings where they stopped. -/
theorem afterStop_repeating {tail : List Token} (hmoves : Moves c passed made c₁)
    (hstop : Moves c passed made' (afterStop stop c₁)) (ha : Alike ρ c₁.rest tail) (site : Site) :
    afterStop stop (c'.repeating ρ made site tail) = c'.repeating ρ made' site tail := by
  cases stop with
  | fault => rw [← (hmoves.unique hstop).2]; rfl
  | tooDeep =>
    have hmade : made' = ⟨c₁.current, .tooMuchNesting⟩ :: made := by
      have hreports := hstop.reports
      rw [afterStop, Cursor.report, hmoves.reports] at hreports
      exact (List.append_cancel_right hreports).symm
    have ha' : Alike ρ c₁.rest (c'.repeating ρ made site tail).rest := ha
    have hcurrent := ha'.current
    rw [afterStop, hcurrent, hmade]
    rfl

/-- A round of the second reading beside each round of the first one. -/
theorem Round.again (hρ : ∀ site, ρ.site (site + 1) = ρ.site site + 1) (he : e.kind = .eof)
    (h : Round room c ss c₁) (hab : Abreast ρ e after behind before c c')
    (hbehind : ElseAlike (e :: after) behind) (hmade : c₁.reports = made ++ c.reports)
    (hsealed : AllSealed ρ e behind before made) :
    ∃ c₁' before₁, before₁ <:+ before ∧ Abreast ρ e after behind before₁ c₁ c₁' ∧
      Round room c' (Statement.relabelAll ρ ss) c₁' ∧
      c₁'.reports = made.map (Report.relabel ρ) ++ c'.reports := by
  have hc := hab.hasEnd he
  have hrepeats := (repeatsTrees hρ room).declaration (c.rest.length + 1) c hc
  cases h with
  | @statement s _ hat hd =>
    obtain ⟨passed, made', hmoves, -, -, hagain⟩ := Ends.ok hrepeats hd
    obtain rfl : made' = made := List.append_cancel_right (hmoves.reports.symm.trans hmade)
    obtain ⟨before₁, rfl, hrest, hbegins⟩ := hab.split he hmoves
    have hlt : passed.length < c.rest.length + 1 := by rw [hmoves.length]; omega
    have hjoins : ElseAlike c₁.rest (before₁.map (Token.relabel ρ) ++ behind) :=
      hrest ▸ hbehind.append before₁
    exact ⟨_, before₁, List.suffix_append _ _,
      ⟨hrest, rfl, fun t ht => hab.noEnd t (List.mem_append_right _ ht), rfl⟩,
      .statement (hab.atEnd he hat) (hagain hlt c' _ hbegins hjoins), rfl⟩
  | @fault stop c₂ rest hat hd hrecover =>
    obtain ⟨passed, made₂, hmoves, hstopped, hagain⟩ := Ends.error hrepeats hd
    obtain ⟨fault, minor, hfatal, -, hstop⟩ := hstopped.afterStop hmoves
    obtain rfl : ⟨c₂.current, fault⟩ :: minor = made :=
      List.append_cancel_right (hstop.reports.symm.trans hmade)
    obtain ⟨before₂, rfl, hrest, hbegins⟩ := hab.split he hmoves
    have hlt : passed.length < c.rest.length + 1 := by rw [hmoves.length]; omega
    have hnoEnd (t : Token) (ht : t ∈ before₂) : t.kind ≠ .eof :=
      hab.noEnd t (List.mem_append_right _ ht)
    have hseal : Sealed ρ e behind before₂ :=
      (hsealed.mono (List.suffix_append _ _) (List.Subset.refl _)).here List.mem_cons_self hfatal
        rfl hrest he
    have halike : Alike ρ c₂.rest (before₂.map (Token.relabel ρ) ++ behind) :=
      hrest ▸ hseal.alike he
    obtain ⟨before₁, hsuffix, hskip, hskip'⟩ := recover_sealed after he hnoEnd hseal
    obtain rfl : rest = before₁ ++ e :: after := by
      rw [hrest, hskip] at hrecover
      exact (Option.some.inj hrecover).symm
    have hround := Round.fault (hab.atEnd he hat) (hagain hlt c' _ hbegins halike) hskip'
    rw [afterStop_repeating hmoves hstop halike] at hround
    refine ⟨_, before₁, hsuffix.trans (List.suffix_append _ _), ⟨rfl, rfl, fun t ht => ?_, ?_⟩,
      hround, rfl⟩
    · exact hnoEnd t (hsuffix.subset ht)
    · cases stop <;> rfl

/-- The rounds of the first reading are those of the second one, as far as the first one goes. -/
theorem Rounds.again (hρ : ∀ site, ρ.site (site + 1) = ρ.site site + 1) (he : e.kind = .eof)
    (h : Rounds room c ss c₁) (hab : Abreast ρ e after behind before c c')
    (hbehind : ElseAlike (e :: after) behind) (hmade : c₁.reports = made ++ c.reports)
    (hsealed : AllSealed ρ e behind before made) :
    ∃ c₁' before₁, Abreast ρ e after behind before₁ c₁ c₁' ∧
      Rounds room c' (Statement.relabelAll ρ ss) c₁' ∧
      c₁'.reports = made.map (Report.relabel ρ) ++ c'.reports := by
  induction h generalizing c' before made with
  | none c =>
    obtain rfl : made = [] := List.append_left_eq_self.1 hmade.symm
    exact ⟨c', before, hab, .none c', rfl⟩
  | @round c c₂ c₁ ss ss' hround hrounds ih =>
    obtain ⟨_, made₁, hmoves, -⟩ := hround.moves (hab.hasEnd he)
    obtain ⟨_, made₂, hmoves'⟩ := hrounds.moves (hmoves.hasEnd (hab.hasEnd he))
    obtain rfl : made₂ ++ made₁ = made := by
      refine List.append_cancel_right (hmade.symm.trans ?_).symm
      rw [hmoves'.reports, hmoves.reports, List.append_assoc]
    obtain ⟨c₂', before₂, hsuffix, hab₂, hround', hreports⟩ := hround.again hρ he hab hbehind
      hmoves.reports (hsealed.mono List.suffix_rfl (List.subset_append_right _ _))
    obtain ⟨c₁', before₁, hab₁, hrounds', hreports'⟩ := ih hab₂ hmoves'.reports
      (hsealed.mono hsuffix (List.subset_append_left _ _))
    refine ⟨c₁', before₁, hab₁, ?_, ?_⟩
    · rw [Statement.relabelAll_append]
      exact .round hround' hrounds'
    · rw [hreports', hreports, List.map_append, List.append_assoc]

end

section
variable {ρ : Relabelling} {e : Token} {after behind before tokens : List Token} {room : Nat}
  {site : Site} {c' : Cursor} {parsed : Parsed (List Statement)}

theorem HasEnd.split (h : HasEnd tokens) : ∃ before e after, tokens = before ++ e :: after ∧
    (∀ t ∈ before, t.kind ≠ .eof) ∧ e.kind = .eof := by
  induction tokens with
  | nil => exact absurd h not_hasEnd_nil
  | cons t tokens ih =>
    by_cases hk : t.kind = .eof
    · exact ⟨[], t, tokens, rfl, by simp, hk⟩
    · obtain ⟨before, e, after, rfl, hbefore, he⟩ := ih (h.tail hk)
      exact ⟨t :: before, e, after, rfl, by simpa using ⟨hk, hbefore⟩, he⟩

theorem exists_start (h : HasEnd tokens) (site : Site) : ∃ c, start? tokens site = some c ∧
    c.rest = tokens ∧ c.reports = [] ∧ c.nextSite = site := by
  obtain ⟨t, ht, -⟩ := h
  refine ⟨⟨tokens, tokens.getLast (List.ne_nil_of_mem ht), [], site⟩, ?_, rfl, rfl, rfl⟩
  rw [start?, List.getLast?_eq_some_getLast (List.ne_nil_of_mem ht), Option.map_some]

/-- Tokens with an end are read in rounds, up to an end token. -/
theorem exists_program? (room : Nat) (site : Site) (h : HasEnd tokens) :
    ∃ parsed start last, program? room site tokens = some parsed ∧
      start? tokens site = some start ∧ Rounds room start parsed.tree last ∧
      last.atEnd = true ∧ parsed.reports = last.reports.reverse ∧
      parsed.nextSite = last.nextSite := by
  obtain ⟨start, hstart, hrest, -, -⟩ := exists_start h site
  have hend : HasEnd start.rest := hrest ▸ h
  obtain ⟨ss, last, hrounds, hat⟩ := exists_rounds room start hend
  exact ⟨_, start, last, program?_of_rounds hstart hrounds hend hat, hstart, hrounds, hat, rfl, rfl⟩

/-- A program that is read up to its end token is read in front of anything else in the same way. -/
theorem program?_again (hρ : ∀ site, ρ.site (site + 1) = ρ.site site + 1) (he : e.kind = .eof)
    (hbefore : ∀ t ∈ before, t.kind ≠ .eof)
    (hparsed : program? room site (before ++ e :: after) = some parsed)
    (hbehind : ElseAlike (e :: after) behind)
    (hsealed : AllSealed ρ e behind before parsed.reports)
    (hrest : c'.rest = before.map (Token.relabel ρ) ++ behind)
    (hsite : c'.nextSite = ρ.site site) :
    ∃ c₁', Rounds room c' (Statement.relabelAll ρ parsed.tree) c₁' ∧ c₁'.rest = behind ∧
      c₁'.reports = (parsed.reports.map (Report.relabel ρ)).reverse ++ c'.reports ∧
      c₁'.nextSite = ρ.site parsed.nextSite := by
  have hend : HasEnd (before ++ e :: after) := ⟨e, by simp, he⟩
  obtain ⟨parsed', start, last, hparsed', hstart, hrounds, hat, hreports, hnext⟩ :=
    exists_program? room site hend
  obtain rfl : parsed' = parsed := Option.some.inj (hparsed'.symm.trans hparsed)
  obtain ⟨start', hstart', hrest₁, hreports₁, hsite₁⟩ := exists_start hend site
  obtain rfl : start' = start := Option.some.inj (hstart'.symm.trans hstart)
  have hab : Abreast ρ e after behind before start' c' :=
    ⟨hrest₁, hrest, hbefore, by rw [hsite, hsite₁]⟩
  have hmade : last.reports = parsed'.reports.reverse ++ start'.reports := by
    rw [hreports, hreports₁, List.reverse_reverse, List.append_nil]
  obtain ⟨c₁', before₁, hab₁, hrounds', hreports'⟩ := hrounds.again hρ he hab hbehind hmade
    (hsealed.mono List.suffix_rfl (List.reverse_subset.2 (List.Subset.refl _)))
  obtain rfl := hab₁.eq_nil hat
  exact ⟨c₁', hrounds', hab₁.rest', by rw [hreports', List.map_reverse], by rw [hab₁.site, hnext]⟩

end

end Lox.Grammar
