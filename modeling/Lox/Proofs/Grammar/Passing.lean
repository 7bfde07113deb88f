import Lox.Proofs.Grammar.Steps
import Lox.Proofs.Syntax.Sites
import Lox.Proofs.Syntax.Written

/-!
# From one cursor to another

`Passes c xs us c'` says what lies between two cursors of one reading: which tokens were passed,
written as `xs`, and which sites `us` were handed out for the uses of variables in them. The tokens
are known only if nothing was reported on the way; that reports are never taken back, and that an
end token which lies ahead stays ahead, is known in any case. The rules below extend what was passed
by one more step of a reader.
-/
namespace Lox.Grammar

/-- Whether an end token lies ahead. -/
def HasEnd (tokens : List Token) : Prop := ∃ t ∈ tokens, t.kind = .eof

theorem not_hasEnd_nil : ¬ HasEnd [] := by simp [HasEnd]

theorem HasEnd.tail {t : Token} {tokens : List Token} (h : HasEnd (t :: tokens))
    (hk : t.kind ≠ .eof) : HasEnd tokens := by
  simpa [HasEnd, hk] using h

/-- Tokens that the grammar takes as they are: no `for`, which is turned into other statements, and
numbers and strings with the constants that they stand for. -/
structure Plain (t : Token) : Prop where
  notFor : t.kind ≠ .for
  number : t.kind = .number → t.literal.kind = .number
  string : t.kind = .string → t.literal.kind = .string

/-- Plain tokens up to the first end token, which there has to be. -/
def PlainAhead : List Token → Prop
  | [] => False
  | t :: rest => t.kind = .eof ∨ Plain t ∧ PlainAhead rest

/-- What holds from any cursor to a later one. -/
structure Onward (c c' : Cursor) : Prop where
  reports : c.reports <:+ c'.reports
  hasEnd : HasEnd c.rest → HasEnd c'.rest
  sites : c.nextSite ≤ c'.nextSite

/-- Nothing was reported from one cursor to another, and the tokens ahead were plain. -/
structure Quiet (c c' : Cursor) : Prop where
  reports : c'.reports.length = c.reports.length
  plain : PlainAhead c.rest

/-- The tokens between two cursors spell what is written, and no end token is among them. -/
structure Between (c : Cursor) (xs : List Terminal) (c' : Cursor) (ts : List Token) : Prop where
  rest : c.rest = ts ++ c'.rest
  spells : Spells xs ts
  noEnd : ∀ t ∈ ts, t.kind ≠ .eof
  plain : PlainAhead c'.rest

structure Passes (c : Cursor) (xs : List Terminal) (us : List Site) (c' : Cursor) : Prop where
  onward : Onward c c'
  fresh : FreshSites c.nextSite us c'.nextSite
  tokens : Quiet c c' → ∃ ts, Between c xs c' ts

/-- How a reader may be stopped: a fault is reported where it arises. -/
structure Fails (c : Cursor) (stop : Stop) (c' : Cursor) : Prop where
  onward : Onward c c'
  reported : stop = .fault → c.reports.length < c'.reports.length

theorem Onward.refl (c : Cursor) : Onward c c := ⟨List.suffix_rfl, id, Nat.le_refl _⟩

theorem Onward.trans {c c₁ c₂ : Cursor} (h : Onward c c₁) (h' : Onward c₁ c₂) : Onward c c₂ :=
  ⟨h.reports.trans h'.reports, h'.hasEnd ∘ h.hasEnd, Nat.le_trans h.sites h'.sites⟩

theorem Fails.trans {c c₁ c₂ : Cursor} {stop : Stop} (h : Onward c c₁) (h' : Fails c₁ stop c₂) :
    Fails c stop c₂ :=
  ⟨h.trans h'.onward, fun hs => Nat.lt_of_le_of_lt h.reports.length_le (h'.reported hs)⟩

namespace Passes

variable {c c₁ c₂ : Cursor} {xs ys : List Terminal} {us vs : List Site}

theorem refl (c : Cursor) : Passes c [] [] c :=
  ⟨.refl c, .nil (Nat.le_refl _), fun h => ⟨[], rfl, .nil, by simp, h.plain⟩⟩

theorem trans (h : Passes c xs us c₁) (h' : Passes c₁ ys vs c₂) :
    Passes c (xs ++ ys) (us ++ vs) c₂ := by
  refine ⟨h.onward.trans h'.onward, h.fresh.append h'.fresh, fun hq => ?_⟩
  have hle := h.onward.reports.length_le
  have hle' := h'.onward.reports.length_le
  have hr := hq.reports
  obtain ⟨ts, hts⟩ := h.tokens ⟨by omega, hq.plain⟩
  obtain ⟨ts', hts'⟩ := h'.tokens ⟨by omega, hts.plain⟩
  refine ⟨ts ++ ts', by simp [hts.rest, hts'.rest], hts.spells.append hts'.spells, ?_, hts'.plain⟩
  intro t ht
  exact (List.mem_append.1 ht).elim (hts.noEnd t) (hts'.noEnd t)

/-- The parts of quiet reading are quiet. -/
theorem quiet_left (h : Onward c c₁) (h' : Onward c₁ c₂) (hq : Quiet c c₂) : Quiet c c₁ := by
  have hle := h.reports.length_le
  have hle' := h'.reports.length_le
  have hr := hq.reports
  exact ⟨by omega, hq.plain⟩

theorem quiet_right (h : Passes c xs us c₁) (h' : Onward c₁ c₂) (hq : Quiet c c₂) :
    Quiet c₁ c₂ := by
  have hq₁ := quiet_left h.onward h' hq
  obtain ⟨ts, hts⟩ := h.tokens hq₁
  exact ⟨hq.reports.trans hq₁.reports.symm, hts.plain⟩

/-- A reading with a report says nothing about tokens. -/
theorem of_reported (h : Passes c xs us c₁) (hr : c.reports.length < c₁.reports.length) :
    Passes c ys us c₁ :=
  ⟨h.onward, h.fresh, fun hq => absurd hq.reports (by omega)⟩

theorem cast (h : Passes c xs us c₁) (hx : xs = ys) (hu : us = vs) : Passes c ys vs c₁ := by
  subst hx hu
  exact h

theorem sublist (h : Passes c xs us c₁) (hs : vs.Sublist us) : Passes c xs vs c₁ :=
  ⟨h.onward, h.fresh.sublist hs, h.tokens⟩

theorem perm (h : Passes c xs us c₁) (hp : us.Perm vs) : Passes c xs vs c₁ :=
  ⟨h.onward, h.fresh.perm hp, h.tokens⟩

/-- The last terminal may be replaced by one that admits the same token. -/
theorem last {x y : Terminal} (h : Passes c (xs ++ [x]) us c₁)
    (hxy : Quiet c c₁ → ∀ t, x.Admits t → y.Admits t) : Passes c (xs ++ [y]) us c₁ := by
  refine ⟨h.onward, h.fresh, fun hq => ?_⟩
  obtain ⟨ts, hts⟩ := h.tokens hq
  obtain ⟨ts₁, ts₂, rfl, hs₁, hs₂⟩ := hts.spells.split
  refine ⟨_, hts.rest, hs₁.append ?_, hts.noEnd, hts.plain⟩
  cases hs₂ with
  | cons hx hnil => exact .cons (hxy hq _ hx) hnil

/-- The tokens do not matter where reading cannot have been quiet. -/
theorem of_not_quiet (h : Passes c xs us c₁) (hq : ¬ Quiet c c₁) : Passes c ys us c₁ :=
  ⟨h.onward, h.fresh, fun hq' => absurd hq' hq⟩

/-- A token that the tree does not keep. -/
theorem fixed {t : Token} {kind : Token.Kind} (h : Passes c (xs ++ [.kept t]) us c₁)
    (hk : t.kind = kind) : Passes c (xs ++ [.fixed kind]) us c₁ :=
  h.last fun _ _ ht => (congrArg Token.kind ht).trans hk

end Passes

theorem Cursor.rest_eq_cons {c : Cursor} (h : PlainAhead c.rest) :
    c.rest = c.current :: c.rest.tail := by
  cases hr : c.rest with
  | nil => simp [hr, PlainAhead] at h
  | cons t rest => simp [Cursor.current, hr]

theorem passes_advance {c : Cursor} (h : c.current.kind ≠ .eof) :
    Passes c [.kept c.current] [] c.advance := by
  have hrest : c.advance.rest = c.rest.tail := Cursor.advance_rest (by simpa [Cursor.atEnd] using h)
  have hreports : c.advance.reports = c.reports := by unfold Cursor.advance; split <;> rfl
  have hsite : c.advance.nextSite = c.nextSite := by unfold Cursor.advance; split <;> rfl
  refine ⟨⟨by simp [hreports], fun he => ?_, by simp [hsite]⟩, ?_, fun hq => ?_⟩
  · cases hr : c.rest with
    | nil => exact absurd (hr ▸ he) not_hasEnd_nil
    | cons t rest =>
      rw [hr] at he
      rw [hrest, hr]
      exact he.tail (by simpa [Cursor.current, hr] using h)
  · rw [hsite]
    exact .nil (Nat.le_refl _)
  · have hcons := Cursor.rest_eq_cons hq.plain
    have hp := hq.plain
    rw [hcons, PlainAhead] at hp
    refine ⟨[c.current], by rw [hrest]; exact hcons, .cons rfl .nil, by simpa using h, ?_⟩
    rw [hrest]
    exact (hp.resolve_left h).2

theorem passes_freshSite (c : Cursor) :
    Passes c [] [c.nextSite] { c with nextSite := c.nextSite + 1 } :=
  ⟨⟨List.suffix_rfl, id, Nat.le_succ _⟩, .one _, fun hq => ⟨[], rfl, .nil, by simp, hq.plain⟩⟩

theorem onward_report (c : Cursor) (t : Token) (f : Fault) : Onward c (c.report t f) :=
  ⟨List.suffix_cons _ _, id, Nat.le_refl _⟩

/-- A report leaves the cursor where it is, but ends what is known of the tokens. -/
theorem passes_report (c : Cursor) (t : Token) (f : Fault) (xs : List Terminal) :
    Passes c xs [] (c.report t f) :=
  ⟨onward_report c t f, .nil (Nat.le_refl _),
    fun hq => absurd hq.reports (by simp [Cursor.report])⟩

theorem fails_report (c : Cursor) (t : Token) (f : Fault) : Fails c .fault (c.report t f) :=
  ⟨onward_report c t f, fun _ => by simp [Cursor.report]⟩

/-- `act` reads what `xs` writes, with the uses `us`, and `P` holds where it ends. -/
def Reads {α : Type} (act : Reader α) (xs : α → List Terminal) (us : α → List Site)
    (P : α → Cursor → Prop) : Prop :=
  ∀ c, Ends act c (fun a c' => Passes c (xs a) (us a) c' ∧ P a c') (Fails c)

namespace Passes

variable {α β : Type} {c c₁ : Cursor} {xs : List Terminal} {us : List Site}
  {Q : β → Cursor → Prop}

theorem step {act : Reader α} {ys : α → List Terminal} {vs : α → List Site}
    {P : α → Cursor → Prop} {next : α → Reader β} (h : Passes c xs us c₁) (ha : Reads act ys vs P)
    (hn : ∀ a c₂, Passes c (xs ++ ys a) (us ++ vs a) c₂ → P a c₂ → Ends (next a) c₂ Q (Fails c)) :
    Ends (act >>= next) c₁ Q (Fails c) := by
  rw [ends_bind]
  exact (ha c₁).imp (fun a c₂ h' => hn a c₂ (h.trans h'.1) h'.2) fun _ _ hf => hf.trans h.onward

theorem map {act : Reader α} {ys : α → List Terminal} {vs : α → List Site}
    {P : α → Cursor → Prop} {f : α → β} (h : Passes c xs us c₁) (ha : Reads act ys vs P)
    (hn : ∀ a c₂, Passes c (xs ++ ys a) (us ++ vs a) c₂ → P a c₂ → Q (f a) c₂) :
    Ends (f <$> act) c₁ Q (Fails c) := by
  rw [ends_map]
  exact (ha c₁).imp (fun a c₂ h' => hn a c₂ (h.trans h'.1) h'.2) fun _ _ hf => hf.trans h.onward

/-- A token of one kind has to follow; the tree keeps it. -/
theorem expect_kept {kind : Token.Kind} {what : Expected} {next : Token → Reader β}
    (h : Passes c xs us c₁) (hk : kind ≠ .eof)
    (hn : ∀ t c₂, Passes c (xs ++ [.kept t]) us c₂ → t.kind = kind → Ends (next t) c₂ Q (Fails c)) :
    Ends (expect kind what >>= next) c₁ Q (Fails c) := by
  rw [ends_bind]
  by_cases heq : c₁.current.kind = kind
  · have hok : expect kind what c₁ = .ok c₁.current c₁.advance := by simp [expect, heq]
    have hne : c₁.current.kind ≠ .eof := by rw [heq]; exact hk
    exact .of_ok hok (hn _ _ ((h.trans (passes_advance hne)).cast rfl (List.append_nil _)) heq)
  · have herror : expect kind what c₁ = .error .fault (c₁.report c₁.current (.expected what)) := by
      simp [expect, heq]
    exact .of_error herror ((fails_report _ _ _).trans h.onward)

/-- A token of one kind has to follow; the tree does not keep it. -/
theorem expect {kind : Token.Kind} {what : Expected} {next : Token → Reader β}
    (h : Passes c xs us c₁) (hk : kind ≠ .eof)
    (hn : ∀ t c₂, Passes c (xs ++ [.fixed kind]) us c₂ → Ends (next t) c₂ Q (Fails c)) :
    Ends (Grammar.expect kind what >>= next) c₁ Q (Fails c) :=
  h.expect_kept hk fun t c₂ h₂ ht => hn t c₂ (h₂.fixed ht)

/-- A token of some kinds may follow. -/
theorem accept {kinds : List Token.Kind} {next : Option Token → Reader β}
    (h : Passes c xs us c₁) (hk : .eof ∉ kinds)
    (hnone : c₁.current.kind ∉ kinds → Ends (next none) c₁ Q (Fails c))
    (hsome : ∀ t c₂, Passes c (xs ++ [.kept t]) us c₂ → c₁.current = t → t.kind ∈ kinds →
      Ends (next (some t)) c₂ Q (Fails c)) :
    Ends (accept kinds >>= next) c₁ Q (Fails c) := by
  rw [ends_bind]
  by_cases hmem : c₁.current.kind ∈ kinds
  · have hok : Grammar.accept kinds c₁ = .ok (some c₁.current) c₁.advance := by
      simp [Grammar.accept, hmem]
    have hne : c₁.current.kind ≠ .eof := fun he => hk (he ▸ hmem)
    have h' := (h.trans (passes_advance hne)).cast rfl (List.append_nil us)
    exact .of_ok hok (hsome _ _ h' rfl hmem)
  · have hok : Grammar.accept kinds c₁ = .ok none c₁ := by simp [Grammar.accept, hmem]
    exact .of_ok hok (hnone hmem)

/-- A fault is reported, and reading goes on; nothing is known of the tokens any more. -/
theorem report {t : Token} {fault : Fault} {next : Unit → Reader β} (h : Passes c xs us c₁)
    (hn : ∀ c₂, (∀ ys, Passes c ys us c₂) → Ends (next ()) c₂ Q (Fails c)) :
    Ends (report t fault >>= next) c₁ Q (Fails c) := by
  rw [ends_bind]
  have hok : Grammar.report t fault c₁ = .ok () (c₁.report t fault) := rfl
  refine .of_ok hok (hn _ fun ys => ?_)
  have h' := (h.trans (passes_report c₁ t fault [])).cast rfl (List.append_nil us)
  exact h'.of_reported (Nat.lt_of_le_of_lt h.onward.reports.length_le (by simp [Cursor.report]))

end Passes

end Lox.Grammar
