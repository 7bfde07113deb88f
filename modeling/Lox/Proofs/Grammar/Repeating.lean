import Lox.Proofs.Grammar.Passing
import Lox.Proofs.Syntax.Relabelling

/-!
# Reading the same tokens twice

A reader looks at the tokens that it passes and at the one that it ends at, and behind a `fun` at
one more. So a second reading of the same tokens with other labels does what the first one did,
whatever comes later: it ends in the same way, with the same reports, be it well or by a fault. A
reader that ends behind a token that it asked for need not even be told where it ends.

`Repeats` says so of a reader, and says at the same time where a reader may go and what it may
report. The rules below put such statements together along the steps of a reader.
-/
namespace Lox.Grammar

/-- Whether a fault stops the reader that makes it. -/
def Fault.fatal : Fault → Bool
  | .expected _ | .tooMuchNesting => true
  | .invalidAssignmentTarget | .tooManyParameters | .tooManyArguments => false

/-- Reports behind which reading goes on. -/
def Minor (made : List Report) : Prop := ∀ r ∈ made, r.fault.fatal = false

theorem Minor.nil : Minor [] := by simp [Minor]

theorem Minor.append {made made' : List Report} (h : Minor made) (h' : Minor made') :
    Minor (made ++ made') :=
  fun r hr => (List.mem_append.1 hr).elim (h r) (h' r)

/-- From a cursor to a later one: the tokens that were passed, with no end token among them, and the
reports that were made, the newest first. -/
structure Moves (c : Cursor) (passed : List Token) (made : List Report) (c₁ : Cursor) : Prop where
  rest : c.rest = passed ++ c₁.rest
  noEnd : ∀ t ∈ passed, t.kind ≠ .eof
  reports : c₁.reports = made ++ c.reports

/-- The reports of a reader that ends here without a result: a fault is reported last, and at the
token that was reached. -/
inductive Stopped (c : Cursor) : Stop → List Report → Prop where
  | fault (what : Expected) {made : List Report} :
    Minor made → Stopped c .fault (⟨c.current, .expected what⟩ :: made)
  | tooDeep {made : List Report} : Minor made → Stopped c .tooDeep made

theorem Stopped.append {c : Cursor} {stop : Stop} {made made' : List Report}
    (h : Stopped c stop made) (h' : Minor made') : Stopped c stop (made ++ made') := by
  cases h with
  | fault what h => exact .fault what (h.append h')
  | tooDeep h => exact .tooDeep (h.append h')

namespace Moves

variable {c c₁ c₂ : Cursor} {passed passed' : List Token} {made made' : List Report}

/-- Reports alone move no cursor. -/
theorem stay (hrest : c₁.rest = c.rest) (hreports : c₁.reports = made ++ c.reports) :
    Moves c [] made c₁ :=
  ⟨hrest.symm, by simp, hreports⟩

theorem refl (c : Cursor) : Moves c [] [] c := .stay rfl rfl

theorem trans (h : Moves c passed made c₁) (h' : Moves c₁ passed' made' c₂) :
    Moves c (passed ++ passed') (made' ++ made) c₂ := by
  refine ⟨by rw [h.rest, h'.rest, List.append_assoc], fun t ht => ?_,
    by rw [h'.reports, h.reports, List.append_assoc]⟩
  exact (List.mem_append.1 ht).elim (h.noEnd t) (h'.noEnd t)

theorem hasEnd (h : Moves c passed made c₁) (hc : HasEnd c.rest) : HasEnd c₁.rest := by
  obtain ⟨t, ht, hk⟩ := hc
  rw [h.rest] at ht
  exact ⟨t, (List.mem_append.1 ht).resolve_left fun hmem => h.noEnd t hmem hk, hk⟩

theorem length (h : Moves c passed made c₁) :
    c.rest.length = passed.length + c₁.rest.length := by
  rw [h.rest, List.length_append]

/-- Two cursors know what lies between them. -/
theorem unique (h : Moves c passed made c₁) (h' : Moves c passed' made' c₁) :
    passed' = passed ∧ made' = made :=
  ⟨List.append_cancel_right (h'.rest.symm.trans h.rest),
    List.append_cancel_right (h'.reports.symm.trans h.reports)⟩

end Moves

theorem HasEnd.rest_eq_cons {c : Cursor} (h : HasEnd c.rest) :
    c.rest = c.current :: c.rest.tail := by
  obtain ⟨t, ht, -⟩ := h
  cases hr : c.rest with
  | nil => simp [hr] at ht
  | cons u rest => simp [Cursor.current, hr]

theorem moves_advance {c : Cursor} (hc : HasEnd c.rest) (hk : c.current.kind ≠ .eof) :
    Moves c [c.current] [] c.advance := by
  refine ⟨?_, by simpa using hk, by unfold Cursor.advance; split <;> rfl⟩
  rw [Cursor.advance_rest (by simpa [Cursor.atEnd] using hk)]
  exact hc.rest_eq_cons

/-- Tokens behind which no further one was looked at: the last one is no `fun`. -/
def Settled (ts : List Token) : Prop := ∃ front t, ts = front ++ [t] ∧ t.kind ≠ .fun

theorem Settled.ne_nil {ts : List Token} (h : Settled ts) : ts ≠ [] := by
  obtain ⟨front, t, rfl, -⟩ := h
  simp

theorem settled_singleton {t : Token} (h : t.kind ≠ .fun) : Settled [t] := ⟨[], t, rfl, h⟩

theorem Settled.append {ts : List Token} (h : Settled ts) (us : List Token) :
    Settled (us ++ ts) := by
  obtain ⟨front, t, rfl, hk⟩ := h
  exact ⟨us ++ front, t, (List.append_assoc _ _ _).symm, hk⟩

section
variable (ρ : Relabelling)

def Report.relabel (r : Report) : Report := ⟨r.token.relabel ρ, r.fault⟩

/-- Tokens that begin with the same ones, but for the labels, as far as a reader looks that does not
pass the first one. -/
def Alike (ts us : List Token) : Prop :=
  ∃ seen, Settled seen ∧ seen <+: ts ∧ seen.map (Token.relabel ρ) <+: us

/-- Both of some tokens begin with an `else`, or none of them. -/
def ElseAlike (ts us : List Token) : Prop :=
  ∃ t u, t ∈ ts.head? ∧ u ∈ us.head? ∧ (t.kind = .else ↔ u.kind = .else)

end

section
variable {ρ : Relabelling} {ts us passed tail : List Token} {c c' : Cursor}

theorem Alike.append (h : Alike ρ ts us) (passed : List Token) :
    Alike ρ (passed ++ ts) (passed.map (Token.relabel ρ) ++ us) := by
  obtain ⟨seen, hseen, hts, hus⟩ := h
  refine ⟨passed ++ seen, hseen.append passed, (List.prefix_append_right_inj _).2 hts, ?_⟩
  rw [List.map_append]
  exact (List.prefix_append_right_inj _).2 hus

theorem Settled.alike (h : Settled passed) (ts us : List Token) :
    Alike ρ (passed ++ ts) (passed.map (Token.relabel ρ) ++ us) :=
  ⟨passed, h, List.prefix_append _ _, List.prefix_append _ _⟩

theorem Alike.elseAlike (h : Alike ρ ts us) : ElseAlike ts us := by
  obtain ⟨_, ⟨front, t, rfl, -⟩, ⟨ts', rfl⟩, ⟨us', rfl⟩⟩ := h
  cases front with
  | nil => exact ⟨t, _, rfl, rfl, Iff.rfl⟩
  | cons u front => exact ⟨u, _, rfl, rfl, Iff.rfl⟩

theorem Alike.current (h : Alike ρ c.rest c'.rest) : c'.current = c.current.relabel ρ := by
  obtain ⟨_, ⟨front, t, rfl, -⟩, ⟨ts, hts⟩, ⟨us, hus⟩⟩ := h
  rw [Cursor.current, Cursor.current, ← hts, ← hus]
  cases front <;> rfl

/-- Behind a `fun` the next token is the same too. -/
theorem Alike.second (h : Alike ρ c.rest c'.rest) (hk : c.current.kind = .fun) :
    c'.second = c.second.relabel ρ := by
  obtain ⟨_, ⟨front, t, rfl, hfun⟩, ⟨ts, hts⟩, ⟨us, hus⟩⟩ := h
  rw [Cursor.second, Cursor.second, ← hts, ← hus]
  match front with
  | [] => rw [Cursor.current, ← hts] at hk; exact absurd hk hfun
  | [_] | _ :: _ :: _ => rfl

theorem ElseAlike.current (h : ElseAlike c.rest c'.rest) :
    c'.current.kind = .else ↔ c.current.kind = .else := by
  obtain ⟨t, u, ht, hu, hiff⟩ := h
  rw [Cursor.current, Cursor.current, List.headD_eq_head?_getD, List.headD_eq_head?_getD, ht, hu]
  exact hiff.symm

end

/-- How much a reader depends on the token that it ends at. -/
inductive Margin where
  /-- It may have looked at that token. -/
  | within
  /-- It is behind a token of its own, if it passed any, and asked at most for an `else`. -/
  | upTo
  /-- It is behind a token of its own, and asked at most for an `else`. -/
  | through
  deriving DecidableEq

namespace Margin

/-- What such a reader passes. -/
def Passed : Margin → List Token → Prop
  | within, _ => True
  | upTo, passed => passed = [] ∨ Settled passed
  | through, passed => Settled passed

/-- What has to be there, in both readings, where such a reader ends. -/
def Joins (ρ : Relabelling) : Margin → List Token → List Token → Prop
  | within, ts, us => Alike ρ ts us
  | _, ts, us => ElseAlike ts us

/-- What is the same in both readings where such a reader begins. -/
def Sees (ρ : Relabelling) : Margin → List Token → List Token → Prop
  | upTo, ts, us => ElseAlike ts us
  | _, ts, us => Alike ρ ts us

/-- Tokens that such a reader may ask for. -/
abbrev Asks (margin : Margin) (kinds : List Token.Kind) : Prop :=
  .eof ∉ kinds ∧ (margin ≠ within → .fun ∉ kinds) ∧ (margin = upTo → kinds = [.else])

/-- What is left of a reader behind a first token. -/
def behind : Margin → Margin
  | within => within
  | _ => upTo

variable {ρ : Relabelling} {margin : Margin} {ts us passed : List Token}

theorem Joins.of_alike (h : Alike ρ ts us) : margin.Joins ρ ts us := by
  cases margin with
  | within => exact h
  | upTo | through => exact h.elseAlike

theorem settled_append {ps : List Token} (h : Settled passed) (hps : upTo.Passed ps) :
    Settled (passed ++ ps) := by
  rcases hps with rfl | hps
  · rwa [List.append_nil]
  · exact hps.append passed

theorem elseAlike_append {ps : List Token} (hps : upTo.Passed ps) (h : ElseAlike ts us) :
    ElseAlike (ps ++ ts) (ps.map (Token.relabel ρ) ++ us) := by
  rcases hps with rfl | hps
  · exact h
  · exact (hps.alike (ρ := ρ) ts us).elseAlike

theorem Joins.sees (hp : margin.Passed passed) (h : margin.Joins ρ ts us) :
    margin.Sees ρ (passed ++ ts) (passed.map (Token.relabel ρ) ++ us) := by
  cases margin with
  | within => exact Alike.append h passed
  | upTo => exact elseAlike_append hp h
  | through => exact hp.alike ts us

theorem Sees.of_alike (h : Alike ρ ts us) : margin.Sees ρ ts us := by
  cases margin with
  | within | through => exact h
  | upTo => exact h.elseAlike

end Margin

section
variable (ρ : Relabelling)

/-- Where the second reading gets to: to its own tokens that come later, with the reports of the
first one. -/
def Cursor.repeating (c' : Cursor) (made : List Report) (site : Site) (tail : List Token) :
    Cursor :=
  ⟨tail, c'.last, made.map (Report.relabel ρ) ++ c'.reports, ρ.site site⟩

/-- The second reading begins with the tokens that the first one passes. -/
structure Begins (c c' : Cursor) (passed tail : List Token) : Prop where
  rest : c'.rest = passed.map (Token.relabel ρ) ++ tail
  site : c'.nextSite = ρ.site c.nextSite

/-- If fewer than `n` tokens are passed, the second reading ends with `result` there. -/
def Again {β : Type} (n : Nat) (margin : Margin) (act' : Reader β) (c : Cursor)
    (passed : List Token) (made : List Report) (c₁ : Cursor)
    (result : Cursor → EStateM.Result Stop Cursor β) : Prop :=
  passed.length < n → ∀ c' tail, Begins ρ c c' passed tail → margin.Joins ρ c₁.rest tail →
    act' c' = result (c'.repeating ρ made c₁.nextSite tail)

/-- What `Repeats` says of a reading that begins here. -/
def RepeatsAt {α β : Type} (n : Nat) (margin : Margin) (act : Reader α) (act' : Reader β)
    (f : α → β) (c : Cursor) : Prop :=
  Ends act c
    (fun a c₁ => ∃ passed made, Moves c passed made c₁ ∧ Minor made ∧ margin.Passed passed ∧
      Again ρ n margin act' c passed made c₁ (.ok (f a)))
    (fun stop c₁ => ∃ passed made, Moves c passed made c₁ ∧ Stopped c₁ stop made ∧
      Again ρ n .within act' c passed made c₁ (.error stop))

/-- `act'` does with the same tokens, but for their labels, what `act` does with fewer than `n` of
them. -/
def Repeats {α β : Type} (n : Nat) (margin : Margin) (act : Reader α) (act' : Reader β)
    (f : α → β) : Prop :=
  ∀ c, HasEnd c.rest → RepeatsAt ρ n margin act act' f c

end

section
variable {ρ : Relabelling} {c c' c₁ c₂ : Cursor} {passed passed' tail : List Token}
  {made made' : List Report}

theorem repeating_nil (h : Begins ρ c c' [] tail) : c'.repeating ρ [] c.nextSite tail = c' := by
  rw [Cursor.repeating, ← h.site, ← show c'.rest = tail from h.rest]
  rfl

/-- A report of the first reading is made in the second one. -/
theorem repeating_report (h : Begins ρ c c' [] tail) (t : Token) (fault : Fault) :
    c'.repeating ρ [⟨t, fault⟩] c.nextSite tail = c'.report (t.relabel ρ) fault := by
  rw [Cursor.repeating, ← h.site, ← show c'.rest = tail from h.rest]
  rfl

theorem repeating_repeating (site site' : Site) (tail tail' : List Token) :
    (c'.repeating ρ made site tail).repeating ρ made' site' tail' =
      c'.repeating ρ (made' ++ made) site' tail' := by
  simp only [Cursor.repeating, List.map_append, List.append_assoc]

theorem Begins.first (h : Begins ρ c c' (passed ++ passed') tail) :
    Begins ρ c c' passed (passed'.map (Token.relabel ρ) ++ tail) :=
  ⟨by rw [h.rest, List.map_append, List.append_assoc], h.site⟩

theorem begins_repeating (made : List Report) (c₁ c' : Cursor) (passed' tail : List Token) :
    Begins ρ c₁ (c'.repeating ρ made c₁.nextSite (passed'.map (Token.relabel ρ) ++ tail))
      passed' tail :=
  ⟨rfl, rfl⟩

/-- Both readings pass one token. -/
theorem Begins.advance (h : Begins ρ c c' (c.current :: passed) tail)
    (hk : c.current.kind ≠ .eof) : c'.current = c.current.relabel ρ ∧ c'.advance =
      c'.repeating ρ [] c.advance.nextSite (passed.map (Token.relabel ρ) ++ tail) := by
  have hcurrent : c'.current = c.current.relabel ρ := by rw [Cursor.current, h.rest]; rfl
  have hend : c.atEnd = false := by simpa [Cursor.atEnd] using hk
  have hend' : c'.atEnd = false := by simpa [Cursor.atEnd, hcurrent] using hk
  simp [Cursor.advance, hend, hend', Cursor.repeating, h.rest, h.site, hcurrent]

/-- Where the second reading ends like the first one, it began like it. -/
theorem Begins.sees {margin : Margin} (h : Begins ρ c c' passed tail)
    (hmoves : Moves c passed made c₁)
    (hs : margin.Sees ρ (passed ++ c₁.rest) (passed.map (Token.relabel ρ) ++ tail)) :
    margin.Sees ρ c.rest c'.rest := by
  rwa [hmoves.rest, h.rest]

end

variable {ρ : Relabelling} {α β γ δ : Type} {n m : Nat} {margin margin' : Margin}
  {act : Reader α} {act' act'' : Reader β} {f f' : α → β} {next : α → Reader γ}
  {next' : β → Reader δ} {g : γ → δ}

namespace RepeatsAt

variable {c : Cursor}

/-- A step and what comes behind it, which is told how many tokens are left. -/
theorem andThen {first second : Margin} (h : RepeatsAt ρ n first act act' f c)
    (hc : HasEnd c.rest)
    (hn : ∀ a c₁, act c = .ok a c₁ → HasEnd c₁.rest →
      RepeatsAt ρ m second (next a) (next' (f a)) g c₁)
    (hm : ∀ a c₁ ps ms, act c = .ok a c₁ → Moves c ps ms c₁ → first.Passed ps → n ≤ m + ps.length)
    (hpassed : ∀ ps ps', first.Passed ps → second.Passed ps' → margin.Passed (ps ++ ps'))
    (hsecond : ∀ ts us, margin.Joins ρ ts us → second.Joins ρ ts us)
    (hfirst : ∀ ps ts us, second.Passed ps → margin.Joins ρ ts us →
      first.Joins ρ (ps ++ ts) (ps.map (Token.relabel ρ) ++ us)) :
    RepeatsAt ρ n margin (act >>= next) (act' >>= next') g c := by
  refine (ends_bind ..).2 (Ends.imp (Ends.run h) (fun a c₁ => ?_) fun stop c₁ => ?_)
  · rintro ⟨hact, passed, made, hmoves, hminor, hpass, hagain⟩
    have hn₁ := hm a c₁ passed made hact hmoves hpass
    refine Ends.imp (hn a c₁ hact (hmoves.hasEnd hc)) (fun r c₂ => ?_) fun stop c₂ => ?_
    · rintro ⟨passed', made', hmoves', hminor', hpass', hagain'⟩
      refine ⟨passed ++ passed', made' ++ made, hmoves.trans hmoves', hminor'.append hminor,
        hpassed _ _ hpass hpass', fun hlt c' tail hb hjoins => ?_⟩
      rw [List.length_append] at hlt
      rw [bind_of_ok (hagain (by omega) c' _ hb.first
          (hmoves'.rest ▸ hfirst _ _ _ hpass' hjoins)),
        hagain' (by omega) _ tail (begins_repeating _ _ _ _ _) (hsecond _ _ hjoins),
        repeating_repeating]
    · rintro ⟨passed', made', hmoves', hstopped, hagain'⟩
      refine ⟨passed ++ passed', made' ++ made, hmoves.trans hmoves', hstopped.append hminor,
        fun hlt c' tail hb hjoins => ?_⟩
      rw [List.length_append] at hlt
      rw [bind_of_ok (hagain (by omega) c' _ hb.first
          (hmoves'.rest ▸ Margin.Joins.of_alike (Alike.append hjoins passed'))),
        hagain' (by omega) _ tail (begins_repeating _ _ _ _ _) hjoins, repeating_repeating]
  · rintro ⟨-, passed, made, hmoves, hstopped, hagain⟩
    exact ⟨passed, made, hmoves, hstopped,
      fun hlt c' tail hb hjoins => bind_of_error (hagain hlt c' tail hb hjoins)⟩

/-- What comes behind may have looked at the token that it ends at. -/
theorem bind (h : RepeatsAt ρ n margin act act' f c) (hc : HasEnd c.rest)
    (hn : ∀ a c₁, act c = .ok a c₁ → HasEnd c₁.rest →
      RepeatsAt ρ m .within (next a) (next' (f a)) g c₁)
    (hm : ∀ a c₁ ps ms, act c = .ok a c₁ → Moves c ps ms c₁ → margin.Passed ps →
      n ≤ m + ps.length) : RepeatsAt ρ n .within (act >>= next) (act' >>= next') g c :=
  h.andThen hc hn hm (fun _ _ _ _ => trivial) (fun _ _ => id)
    fun ps _ _ _ hjoins => .of_alike (Alike.append hjoins ps)

/-- What comes behind takes a token, so the first step is told where it ends. -/
theorem close (h : RepeatsAt ρ n margin act act' f c) (hc : HasEnd c.rest)
    (hn : ∀ a c₁, act c = .ok a c₁ → HasEnd c₁.rest →
      RepeatsAt ρ n .through (next a) (next' (f a)) g c₁) :
    RepeatsAt ρ n .through (act >>= next) (act' >>= next') g c :=
  h.andThen hc hn (fun _ _ _ _ _ _ _ => Nat.le_add_right _ _)
    (fun ps _ _ hps' => Settled.append hps' ps) (fun _ _ => id)
    fun _ ts us hps _ => .of_alike (Settled.alike hps ts us)

/-- What comes behind takes no token, or one that it asks for. -/
theorem keep (h : RepeatsAt ρ n .through act act' f c) (hc : HasEnd c.rest)
    (hn : ∀ a c₁, act c = .ok a c₁ → HasEnd c₁.rest →
      RepeatsAt ρ m .upTo (next a) (next' (f a)) g c₁)
    (hm : ∀ a c₁ ps ms, act c = .ok a c₁ → Moves c ps ms c₁ → n ≤ m + ps.length) :
    RepeatsAt ρ n .through (act >>= next) (act' >>= next') g c :=
  h.andThen hc hn (fun a c₁ ps ms hact hmoves _ => hm a c₁ ps ms hact hmoves)
    (fun _ _ hps hps' => Margin.settled_append hps hps') (fun _ _ => id)
    fun _ _ _ hps hjoins => Margin.elseAlike_append hps hjoins

theorem within (h : RepeatsAt ρ n margin act act' f c) : RepeatsAt ρ n .within act act' f c := by
  refine Ends.imp h (fun a c₁ => ?_) fun _ _ => id
  rintro ⟨passed, made, hmoves, hminor, -, hagain⟩
  exact ⟨passed, made, hmoves, hminor, trivial,
    fun hlt c' tail hb hjoins => hagain hlt c' tail hb (.of_alike hjoins)⟩

theorem upTo (h : RepeatsAt ρ n .through act act' f c) : RepeatsAt ρ n .upTo act act' f c := by
  refine Ends.imp h (fun a c₁ => ?_) fun _ _ => id
  rintro ⟨passed, made, hmoves, hminor, hpassed, hagain⟩
  exact ⟨passed, made, hmoves, hminor, .inr hpassed, hagain⟩

/-- Only this one reading matters, and second ones that begin like it. -/
theorem congr {act₁ : Reader α} {act₁' : Reader β} (h : RepeatsAt ρ n margin act₁ act₁' f c)
    (hact : act c = act₁ c) (hact' : ∀ c', margin.Sees ρ c.rest c'.rest → act' c' = act₁' c') :
    RepeatsAt ρ n margin act act' f c := by
  refine (Ends.congr hact).2 (Ends.imp h (fun a c₁ => ?_) fun stop c₁ => ?_)
  · rintro ⟨passed, made, hmoves, hminor, hpassed, hagain⟩
    refine ⟨passed, made, hmoves, hminor, hpassed, fun hlt c' tail hb hjoins => ?_⟩
    rw [hact' c' (hb.sees hmoves (hjoins.sees hpassed)), hagain hlt c' tail hb hjoins]
  · rintro ⟨passed, made, hmoves, hstopped, hagain⟩
    refine ⟨passed, made, hmoves, hstopped, fun hlt c' tail hb hjoins => ?_⟩
    rw [hact' c' (hb.sees hmoves (.of_alike (Alike.append hjoins passed))),
      hagain hlt c' tail hb hjoins]

end RepeatsAt

namespace Repeats

theorem mono (h : Repeats ρ n margin act act' f) (hm : m ≤ n) : Repeats ρ m margin act act' f := by
  refine fun c hc => Ends.imp (h c hc) (fun a c₁ => ?_) fun stop c₁ => ?_
  · rintro ⟨passed, made, hmoves, hminor, hpassed, hagain⟩
    exact ⟨passed, made, hmoves, hminor, hpassed, fun hlt => hagain (Nat.lt_of_lt_of_le hlt hm)⟩
  · rintro ⟨passed, made, hmoves, hstopped, hagain⟩
    exact ⟨passed, made, hmoves, hstopped, fun hlt => hagain (Nat.lt_of_lt_of_le hlt hm)⟩

/-- No reading is so short that a second one would be told anything. -/
theorem zero (h : Repeats ρ 0 margin act act' f) : Repeats ρ 0 margin act act'' f' := by
  refine fun c hc => Ends.imp (h c hc) (fun a c₁ => ?_) fun stop c₁ => ?_
  · rintro ⟨passed, made, hmoves, hminor, hpassed, -⟩
    exact ⟨passed, made, hmoves, hminor, hpassed, nofun⟩
  · rintro ⟨passed, made, hmoves, hstopped, -⟩
    exact ⟨passed, made, hmoves, hstopped, nofun⟩

theorem within (h : Repeats ρ n margin act act' f) : Repeats ρ n .within act act' f :=
  fun c hc => (h c hc).within

theorem upTo (h : Repeats ρ n .through act act' f) : Repeats ρ n .upTo act act' f :=
  fun c hc => (h c hc).upTo

theorem bind (h : Repeats ρ n margin act act' f)
    (hn : ∀ a, Repeats ρ n .within (next a) (next' (f a)) g) :
    Repeats ρ n .within (act >>= next) (act' >>= next') g :=
  fun c hc => (h c hc).bind hc (fun a c₁ _ hc₁ => hn a c₁ hc₁)
    fun _ _ _ _ _ _ _ => Nat.le_add_right _ _

/-- Behind a reader that takes a token, one less is left. -/
theorem bindSucc (h : Repeats ρ (n + 1) .through act act' f)
    (hn : ∀ a, Repeats ρ n .within (next a) (next' (f a)) g) :
    Repeats ρ (n + 1) .within (act >>= next) (act' >>= next') g := by
  refine fun c hc => (h c hc).bind hc (fun a c₁ _ hc₁ => hn a c₁ hc₁) fun _ _ ps _ _ _ hps => ?_
  have hpos : 0 < ps.length := List.length_pos_iff.2 (Settled.ne_nil hps)
  omega

theorem close (h : Repeats ρ n margin act act' f)
    (hn : ∀ a, Repeats ρ n .through (next a) (next' (f a)) g) :
    Repeats ρ n .through (act >>= next) (act' >>= next') g :=
  fun c hc => (h c hc).close hc fun a c₁ _ hc₁ => hn a c₁ hc₁

theorem keep (h : Repeats ρ n .through act act' f)
    (hn : ∀ a, Repeats ρ n .upTo (next a) (next' (f a)) g) :
    Repeats ρ n .through (act >>= next) (act' >>= next') g :=
  fun c hc => (h c hc).keep hc (fun a c₁ _ hc₁ => hn a c₁ hc₁)
    fun _ _ _ _ _ _ => Nat.le_add_right _ _

end Repeats

theorem repeats_done (a : α) (f : α → β) : Repeats ρ n .upTo (pure a) (pure (f a)) f := by
  intro c _
  refine (ends_pure ..).2 ⟨[], [], .refl c, .nil, .inl rfl, fun _ c' tail hb _ => ?_⟩
  rw [repeating_nil hb]
  rfl

theorem repeats_pure (a : α) (f : α → β) : Repeats ρ n .within (pure a) (pure (f a)) f :=
  (repeats_done a f).within

theorem Repeats.map {k : α → γ} {k' : β → δ} (h : Repeats ρ n margin act act' f)
    (hk : ∀ a, k' (f a) = g (k a)) : Repeats ρ n margin (k <$> act) (k' <$> act') g := by
  refine fun c hc => (ends_map ..).2 ((h c hc).imp (fun a c₁ => ?_) fun stop c₁ => ?_)
  · rintro ⟨passed, made, hmoves, hminor, hpassed, hagain⟩
    refine ⟨passed, made, hmoves, hminor, hpassed, fun hlt c' tail hb hjoins => ?_⟩
    simp only [Functor.map, EStateM.map, hagain hlt c' tail hb hjoins, hk]
  · rintro ⟨passed, made, hmoves, hstopped, hagain⟩
    refine ⟨passed, made, hmoves, hstopped, fun hlt c' tail hb hjoins => ?_⟩
    simp only [Functor.map, EStateM.map, hagain hlt c' tail hb hjoins]

theorem repeats_tooDeep (f : α → β) : Repeats ρ n margin tooDeep tooDeep f := by
  intro c _
  refine (ends_tooDeep ..).2 ⟨[], [], .refl c, .tooDeep .nil, fun _ c' tail hb _ => ?_⟩
  rw [repeating_nil hb]
  rfl

/-- A fault that is reported where the reader is. -/
theorem repeats_fail (what : Expected) (f : α → β) :
    Repeats ρ n margin (fail (.expected what)) (fail (.expected what)) f := by
  intro c _
  refine .of_error rfl ⟨[], [⟨c.current, .expected what⟩], .stay rfl rfl, .fault what .nil,
    fun _ c' tail hb hjoins => ?_⟩
  have hrest : c'.rest = tail := hb.rest
  have hcurrent : c'.current = c.current.relabel ρ := Alike.current (hrest ▸ hjoins)
  rw [fail, hcurrent]
  exact congrArg _ (repeating_report hb c.current (.expected what)).symm

/-- A reader that only looks. -/
theorem repeats_look {look : Cursor → α} {look' : Cursor → β}
    (h : ∀ c c', HasEnd c.rest → Alike ρ c.rest c'.rest → look' c' = f (look c)) :
    Repeats ρ n .within (fun c => .ok (look c) c) (fun c => .ok (look' c) c) f := by
  intro c hc
  refine .of_ok rfl ⟨[], [], .refl c, .nil, trivial, fun _ c' tail hb hjoins => ?_⟩
  have hrest : c'.rest = tail := hb.rest
  rw [repeating_nil hb, ← h c c' hc (hrest ▸ hjoins)]

theorem repeats_current : Repeats ρ n .within current current (Token.relabel ρ) :=
  repeats_look fun _ _ _ => Alike.current

theorem repeats_check (kind : Token.Kind) : Repeats ρ n .within (check kind) (check kind) id :=
  repeats_look fun c c' _ h => by rw [h.current]; rfl

theorem repeats_report (t : Token) {fault : Fault} (hf : fault.fatal = false) :
    Repeats ρ n .within (report t fault) (report (t.relabel ρ) fault) id := by
  intro c _
  refine .of_ok rfl ⟨[], [⟨t, fault⟩], .stay rfl rfl, by simpa [Minor] using hf, trivial,
    fun _ c' tail hb _ => ?_⟩
  exact congrArg _ (repeating_report hb t fault).symm

theorem repeats_freshSite (hρ : ∀ site, ρ.site (site + 1) = ρ.site site + 1) :
    Repeats ρ n .within freshSite freshSite ρ.site := by
  intro c _
  refine .of_ok rfl ⟨[], [], .stay rfl rfl, .nil, trivial, fun _ c' tail hb _ => ?_⟩
  rw [freshSite, hb.site, ← hρ, Cursor.repeating, ← show c'.rest = tail from hb.rest]
  rfl

/-- A token is passed that is not the end token. -/
theorem repeatsAt_advance {c : Cursor} (hc : HasEnd c.rest) (hk : c.current.kind ≠ .eof)
    (hfun : margin ≠ .within → c.current.kind ≠ .fun) :
    RepeatsAt ρ n margin advance advance (Token.relabel ρ) c := by
  refine .of_ok rfl ⟨[c.current], [], moves_advance hc hk, .nil, ?_, fun _ c' tail hb _ => ?_⟩
  · cases margin with
    | within => trivial
    | upTo => exact .inr (settled_singleton (hfun (by decide)))
    | through => exact settled_singleton (hfun (by decide))
  · obtain ⟨hcurrent, hadvance⟩ := hb.advance hk
    rw [advance, hcurrent, hadvance]
    rfl

/-- What comes first decides how to go on. -/
theorem Repeats.branch {p : Cursor → Prop} [DecidablePred p] {act₁ act₂ : Reader α}
    {act₁' act₂' : Reader β}
    (hp : ∀ c c', HasEnd c.rest → margin.Sees ρ c.rest c'.rest → (p c' ↔ p c))
    (h₁ : Repeats ρ n margin act₁ act₁' f) (h₂ : Repeats ρ n margin act₂ act₂' f) :
    Repeats ρ n margin (fun c => if p c then act₁ c else act₂ c)
      (fun c => if p c then act₁' c else act₂' c) f := by
  intro c hc
  by_cases hpc : p c
  · exact (h₁ c hc).congr (if_pos hpc) fun c' hs => if_pos ((hp c c' hc hs).2 hpc)
  · exact (h₂ c hc).congr (if_neg hpc) fun c' hs => if_neg (mt (hp c c' hc hs).1 hpc)

section
variable {kinds : List Token.Kind} {k : Option Token → Reader γ} {k' : Option Token → Reader δ}

theorem accept_bind_of_mem {c : Cursor} (h : c.current.kind ∈ kinds) :
    (accept kinds >>= k) c = (advance >>= fun t => k (some t)) c := by
  rw [bind_of_ok (s := c) (if_pos h)]
  rfl

theorem accept_bind_of_not_mem {c : Cursor} (h : c.current.kind ∉ kinds) :
    (accept kinds >>= k) c = k none c :=
  bind_of_ok (if_neg h)

/-- A function with a name begins in both readings, or in none of them. -/
theorem Alike.function {c c' : Cursor} (h : Alike ρ c.rest c'.rest) :
    (c'.current.kind = .fun ∧ c'.second.kind = .identifier) ↔
      (c.current.kind = .fun ∧ c.second.kind = .identifier) := by
  rw [h.current, Token.kind_relabel]
  refine and_congr_right fun hk => ?_
  rw [h.second hk, Token.kind_relabel]

/-- Both readings find such a token, or none of them. -/
theorem Margin.Sees.current {c c' : Cursor} (h : margin.Sees ρ c.rest c'.rest)
    (hk : margin.Asks kinds) : c'.current.kind ∈ kinds ↔ c.current.kind ∈ kinds := by
  cases margin with
  | within | through => rw [Alike.current h, Token.kind_relabel]
  | upTo =>
    rw [hk.2.2 rfl, List.mem_singleton, List.mem_singleton]
    exact ElseAlike.current h

/-- A token is passed, and then comes what is behind it. -/
theorem repeatsAt_advance_bind {next : Token → Reader γ} {next' : Token → Reader δ} {c : Cursor}
    (hc : HasEnd c.rest) (hk : c.current.kind ≠ .eof)
    (hfun : margin ≠ .within → c.current.kind ≠ .fun) (hm : n ≤ m + 1)
    (h : RepeatsAt ρ m margin.behind (next c.current) (next' (c.current.relabel ρ)) g c.advance) :
    RepeatsAt ρ n margin (advance >>= next) (advance >>= next') g c := by
  have hrest (a : Token) (c₁ : Cursor) (hact : advance c = .ok a c₁) (_ : HasEnd c₁.rest) :
      RepeatsAt ρ m margin.behind (next a) (next' (a.relabel ρ)) g c₁ := by
    cases hact
    exact h
  have hleft (a : Token) (c₁ : Cursor) (ps : List Token) (ms : List Report)
      (hact : advance c = .ok a c₁) (hmoves : Moves c ps ms c₁) : n ≤ m + ps.length := by
    cases hact
    rw [((moves_advance hc hk).unique hmoves).1]
    exact hm
  have hthrough (hw : margin ≠ .within) (hb : margin.behind = .upTo) :
      RepeatsAt ρ n .through (advance >>= next) (advance >>= next') g c :=
    (repeatsAt_advance hc hk fun _ => hfun hw).keep hc (hb ▸ hrest) hleft
  cases margin with
  | within =>
    have hadvance : RepeatsAt ρ n .within advance advance (Token.relabel ρ) c :=
      repeatsAt_advance hc hk nofun
    exact hadvance.bind hc hrest fun a c₁ ps ms hact hmoves _ => hleft a c₁ ps ms hact hmoves
  | upTo => exact (hthrough (by decide) rfl).upTo
  | through => exact hthrough (by decide) rfl

/-- A token of some kinds may follow, and behind it one less is left. -/
theorem Repeats.accept (hk : margin.Asks kinds) (hnone : Repeats ρ n margin (k none) (k' none) g)
    (hsome : ∀ t, t.kind ∈ kinds →
      Repeats ρ m margin.behind (k (some t)) (k' (some (t.relabel ρ))) g) (hm : n ≤ m + 1) :
    Repeats ρ n margin (Grammar.accept kinds >>= k) (Grammar.accept kinds >>= k') g := by
  intro c hc
  by_cases hmem : c.current.kind ∈ kinds
  · have hne : c.current.kind ≠ .eof := fun he => hk.1 (he ▸ hmem)
    refine RepeatsAt.congr ?_ (accept_bind_of_mem hmem)
      fun c' hs => accept_bind_of_mem ((hs.current hk).2 hmem)
    exact repeatsAt_advance_bind hc hne (fun hw heq => hk.2.1 hw (heq ▸ hmem)) hm
      (hsome _ hmem _ ((moves_advance hc hne).hasEnd hc))
  · exact (hnone c hc).congr (accept_bind_of_not_mem hmem)
      fun c' hs => accept_bind_of_not_mem (mt (hs.current hk).1 hmem)

theorem expect_eq_accept (kind : Token.Kind) (what : Expected) :
    expect kind what = accept [kind] >>= fun t => match t with
      | none => fail (.expected what)
      | some t => pure t := by
  funext c
  by_cases heq : c.current.kind = kind
  · rw [accept_bind_of_mem (by simpa using heq), expect, if_pos heq]
    rfl
  · rw [accept_bind_of_not_mem (by simpa using heq), expect, if_neg heq]
    rfl

/-- A token of this kind has to follow. -/
theorem repeats_expect {kind : Token.Kind} {what : Expected} (hk : Margin.through.Asks [kind]) :
    Repeats ρ n .through (expect kind what) (expect kind what) (Token.relabel ρ) := by
  rw [expect_eq_accept]
  exact .accept hk (repeats_fail what _) (fun t _ => repeats_done t _) (Nat.le_succ n)

/-- The token may be the keyword of a function, behind which one more is looked at. -/
theorem repeats_expect_within {kind : Token.Kind} {what : Expected}
    (hk : Margin.within.Asks [kind]) :
    Repeats ρ n .within (expect kind what) (expect kind what) (Token.relabel ρ) := by
  rw [expect_eq_accept]
  exact .accept hk (repeats_fail what _) (fun t _ => repeats_pure t _) (Nat.le_succ n)

end

/-- A loop that takes a token in every round may go on for as long as there are tokens. -/
theorem repeats_loop {σ τ : Type} (loop : List Token → σ → Reader α)
    (loop' : List Token → τ → Reader β) (ofState : σ → τ)
    (hnil : ∀ s, Repeats ρ 0 margin (loop [] s) (loop' [] (ofState s)) f)
    (hcons : ∀ n t bound t' bound',
      (∀ s, Repeats ρ n margin (loop bound s) (loop' bound' (ofState s)) f) →
      ∀ s, Repeats ρ (n + 1) margin (loop (t :: bound) s) (loop' (t' :: bound') (ofState s)) f)
    {bound bound' : List Token} (hbound : n ≤ bound.length) (hbound' : n ≤ bound'.length) (s : σ) :
    Repeats ρ n margin (loop bound s) (loop' bound' (ofState s)) f := by
  induction bound generalizing n bound' s with
  | nil =>
    cases Nat.le_zero.1 hbound
    exact (hnil s).zero
  | cons t bound ih =>
    match n, bound' with
    | 0, _ =>
      have hround := hcons 0 t bound t bound (ih (Nat.zero_le _) (Nat.zero_le _)) s
      exact (hround.mono (Nat.zero_le 1)).zero
    | n + 1, t' :: bound' =>
      exact hcons n t bound t' bound'
        (ih (Nat.le_of_succ_le_succ hbound) (Nat.le_of_succ_le_succ hbound')) s

/-- The bound of a loop that begins here suffices in both readings. -/
theorem Repeats.ahead {next : List Token → Reader γ} {next' : List Token → Reader δ}
    (h : ∀ m bound bound', m ≤ bound.length → m ≤ bound'.length →
      Repeats ρ m margin (next bound) (next' bound') g) :
    Repeats ρ n margin (Grammar.ahead >>= next) (Grammar.ahead >>= next') g := by
  intro c hc
  have hfirst := h 0 c.ahead [] (Nat.zero_le _) (Nat.zero_le _) c hc
  -- How far the bounds have to go is known only where the reading ends.
  have hlong {passed tail : List Token} {made : List Report} {c₁ c' : Cursor}
      (hmoves : Moves c passed made c₁) (hb : Begins ρ c c' passed tail) :
      Repeats ρ (passed.length + 1) margin (next c.ahead) (next' c'.ahead) g := by
    refine h _ _ _ ?_ ?_
    · rw [Cursor.ahead, List.length_cons, hmoves.length]
      omega
    · rw [Cursor.ahead, List.length_cons, hb.rest, List.length_append, List.length_map]
      omega
  refine (ends_bind ..).2 ((ends_ahead ..).2 (Ends.imp (Ends.run hfirst) (fun r c₁ => ?_)
    fun stop c₁ => ?_))
  · rintro ⟨hnext, passed, made, hmoves, hminor, hpassed, -⟩
    refine ⟨passed, made, hmoves, hminor, hpassed, fun _ c' tail hb hjoins => ?_⟩
    obtain ⟨_, _, hmoves', -, -, hagain⟩ := Ends.ok (hlong hmoves hb c hc) hnext
    obtain ⟨rfl, rfl⟩ := hmoves.unique hmoves'
    exact hagain (Nat.lt_succ_self _) c' tail hb hjoins
  · rintro ⟨hnext, passed, made, hmoves, hstopped, -⟩
    refine ⟨passed, made, hmoves, hstopped, fun _ c' tail hb hjoins => ?_⟩
    obtain ⟨_, _, hmoves', -, hagain⟩ := Ends.error (hlong hmoves hb c hc) hnext
    obtain ⟨rfl, rfl⟩ := hmoves.unique hmoves'
    exact hagain (Nat.lt_succ_self _) c' tail hb hjoins

end Lox.Grammar
