import Lox.Proofs.Grammar.Passing
import Lox.Proofs.Syntax.Renaming

/-!
# Reading back to rewritten tokens

When a reader has returned something without a report, a rewritten result tells what the tokens have
to be rewritten to: then the same reader returns it. `Retraces` says so of a step of a reader that
goes on from a value that was read before; it goes from the end of a reading back to its beginning,
and the rules below put such statements together along the steps of a reader. It also says that all
tokens of a result were there to be read.
-/
namespace Lox.Grammar

open Binding (Table)

/-- Nothing was reported, and an end token lies ahead. -/
structure Cursor.Clean (c : Cursor) : Prop where
  reports : c.reports = []
  hasEnd : HasEnd c.rest

/-- The same cursor on rewritten tokens. -/
structure Cursor.Rewrites (ρ : Renaming) (c c' : Cursor) : Prop where
  rest : List.Forall₂ ρ.Rewrites c.rest c'.rest
  same : c' = { c with rest := c'.rest }

/-- The tokens in a kind of results, and what a result may become. -/
structure Form (α : Type) where
  tokens : α → List Token
  Rewrites : α → α → Prop

namespace Form

variable {α β : Type}

/-- Nothing was read yet. -/
def unit : Form Unit := ⟨fun _ => [], fun _ _ => True⟩

/-- A token that becomes another one as `R` says. -/
def token (R : Token → Token → Prop) : Form Token := ⟨fun u => [u], R⟩

/-- A name, in a chosen scope or not. -/
def name (ρ : Renaming) : Form Token := token fun u u' => ∃ chosen, u' = ρ.token chosen u

def expression (ρ : Renaming) (t : Table) : Form Expr :=
  ⟨Expr.tokens, fun e e' => ∃ marks, e.Renames ρ t marks e'⟩

def statement (ρ : Renaming) (t : Table) : Form Statement :=
  ⟨Statement.tokens, fun s s' => ∃ marks, s.Renames ρ t marks s'⟩

def list (A : Form α) : Form (List α) := ⟨(·.flatMap A.tokens), List.Forall₂ A.Rewrites⟩

def option (A : Form α) : Form (Option α) := ⟨(·.elim [] A.tokens), Option.Rel A.Rewrites⟩

def prod (A : Form α) (B : Form β) : Form (α × β) :=
  ⟨fun p => A.tokens p.1 ++ B.tokens p.2, fun p p' => A.Rewrites p.1 p'.1 ∧ B.Rewrites p.2 p'.2⟩

variable {A : Form α} {B : Form β} {ρ : Renaming} {t : Table}

@[simp] theorem tokens_unit : unit.tokens = fun _ => [] := rfl

@[simp] theorem tokens_token (R : Token → Token → Prop) : (token R).tokens = fun u => [u] := rfl

@[simp] theorem tokens_name : (name ρ).tokens = fun u => [u] := rfl

@[simp] theorem tokens_expression : (expression ρ t).tokens = Expr.tokens := rfl

@[simp] theorem tokens_statement : (statement ρ t).tokens = Statement.tokens := rfl

@[simp] theorem tokens_list (xs : List α) : A.list.tokens xs = xs.flatMap A.tokens := rfl

@[simp] theorem tokens_option (x : Option α) : A.option.tokens x = x.elim [] A.tokens := rfl

@[simp] theorem tokens_prod (p : α × β) :
    (A.prod B).tokens p = A.tokens p.1 ++ B.tokens p.2 := rfl

end Form

/-- What `next` reads behind `a`, if it ends well and reports nothing, can be rewritten: there are
what `a` has to become and the tokens to read. -/
def Retraces {α β : Type} (ρ : Renaming) (next : α → Reader β) (A : Form α) (B : Form β) (a : α) :
    Prop :=
  ∀ c b c₁, next a c = .ok b c₁ → c₁.Clean →
    c.Clean ∧ c₁.rest ⊆ c.rest ∧ B.tokens b ⊆ A.tokens a ++ c.rest ∧
      ∀ b' c₁', B.Rewrites b b' → c₁.Rewrites ρ c₁' →
        ∃ a' c', A.Rewrites a a' ∧ c.Rewrites ρ c' ∧ next a' c' = .ok b' c₁'

/-- A reader that does not go on from anything. -/
abbrev Retraced {α : Type} (ρ : Renaming) (act : Reader α) (A : Form α) : Prop :=
  Retraces ρ (fun _ => act) .unit A ()

namespace Cursor.Rewrites

variable {ρ : Renaming} {c c' : Cursor}

theorem last (h : c.Rewrites ρ c') : c'.last = c.last := by rw [h.same]

theorem head_kind (h : c.Rewrites ρ c') (n : Nat) :
    ((c'.rest.drop n).headD c'.last).kind = ((c.rest.drop n).headD c.last).kind := by
  have hrest := List.forall₂_drop n h.rest
  rw [h.last]
  generalize c.rest.drop n = ts at hrest ⊢
  generalize c'.rest.drop n = ts' at hrest ⊢
  cases hrest with
  | nil => rfl
  | cons ht _ => exact ht.kind_eq

/-- The token that comes next is of the same kind. -/
theorem current_kind (h : c.Rewrites ρ c') : c'.current.kind = c.current.kind := h.head_kind 0

theorem second_kind (h : c.Rewrites ρ c') : c'.second.kind = c.second.kind := by
  have hsecond := h.head_kind 1
  rwa [List.drop_one, List.drop_one] at hsecond

theorem length_ahead (h : c.Rewrites ρ c') : c'.ahead.length = c.ahead.length := by
  rw [Cursor.ahead, Cursor.ahead, List.length_cons, List.length_cons, h.rest.length_eq]

/-- In front of rewritten tokens a rewritten one may stand. -/
theorem back {u : Token} (hclean : c.Clean) (hk : c.current.kind ≠ .eof)
    (hu : ρ.Rewrites c.current u) (h : c.advance.Rewrites ρ c') :
    ∃ c₀, c.Rewrites ρ c₀ ∧ c₀.current = u ∧ c₀.advance = c' := by
  have hend : c.atEnd = false := by simpa [Cursor.atEnd] using hk
  cases hrest : c.rest with
  | nil =>
    obtain ⟨e, he, -⟩ := hrest ▸ hclean.hasEnd
    cases he
  | cons t rest =>
    have hadvance : c.advance = { c with rest := rest } := by
      simp [Cursor.advance, hend, hrest]
    have hcurrent : c.current = t := by rw [Cursor.current, hrest]; rfl
    rw [hadvance] at h
    rw [hcurrent] at hu hk
    have hend' : (u.kind = .eof) = False := by rw [hu.kind_eq]; exact eq_false hk
    refine ⟨{ c with rest := u :: c'.rest }, ⟨?_, rfl⟩, rfl, ?_⟩
    · rw [hrest]
      exact .cons hu h.rest
    · simp only [Cursor.advance, Cursor.atEnd, Cursor.current, List.headD_cons, hend', decide_false]
      exact h.same.symm

end Cursor.Rewrites

section
variable {α β γ : Type} {ρ : Renaming} {A : Form α} {B : Form β} {C : Form γ} {a : α}

namespace Retraces

/-- Going on from what was read so far is going on from what is made of it. -/
theorem comp {g : α → β} {next : β → Reader γ} (h : Retraces ρ next B C (g a))
    (ht : B.tokens (g a) ⊆ A.tokens a)
    (hg : ∀ b', B.Rewrites (g a) b' → ∃ a', A.Rewrites a a' ∧ g a' = b') :
    Retraces ρ (fun a => next (g a)) A C a := by
  intro c r c₁ hok hclean
  obtain ⟨hclean₀, hrest, htokens, hback⟩ := h c r c₁ hok hclean
  refine ⟨hclean₀, hrest, fun u hu => ?_, fun r' c₁' hr hc => ?_⟩
  · exact List.mem_append.2 ((List.mem_append.1 (htokens hu)).imp_left fun hu => ht hu)
  · obtain ⟨b', c', hb, hc', hok'⟩ := hback r' c₁' hr hc
    obtain ⟨a', ha, rfl⟩ := hg b' hb
    exact ⟨a', c', ha, hc', hok'⟩

theorem result (a : α) : Retraces ρ (fun a => pure a) A A a := by
  intro c b c₁ hok hclean
  cases hok
  refine ⟨hclean, List.Subset.refl _, List.subset_append_left _ _, ?_⟩
  exact fun a' c' ha hc => ⟨a', c', ha, hc, rfl⟩

theorem pure {f : α → β} (ht : B.tokens (f a) ⊆ A.tokens a)
    (h : ∀ b', B.Rewrites (f a) b' → ∃ a', A.Rewrites a a' ∧ f a' = b') :
    Retraces ρ (fun a => Pure.pure (f a)) A B a :=
  (result (f a)).comp ht h

theorem nil : Retraced ρ (Pure.pure []) A.list :=
  .pure (f := fun _ => []) (by simp) fun xs' h => ⟨(), trivial, by cases h; rfl⟩

/-- A list after its first element was read and then all others. -/
theorem cons (x : α) (xs : List α) : Retraces ρ (fun p : (Unit × α) × List α =>
    Pure.pure (p.1.2 :: p.2)) ((Form.unit.prod A).prod A.list) A.list (((), x), xs) := by
  refine .pure (by simp) ?_
  rintro xs' h
  cases h with
  | cons hx hxs => exact ⟨(((), _), _), ⟨⟨trivial, hx⟩, hxs⟩, rfl⟩

theorem step {act : Reader β} {next : α → β → Reader γ} (ha : Retraced ρ act B)
    (hn : ∀ b, Retraces ρ (fun p => next p.1 p.2) (A.prod B) C (a, b)) :
    Retraces ρ (fun a => act >>= next a) A C a := by
  intro c r c₂ hok hclean
  obtain ⟨b, c₁, hact, hnext⟩ := ok_of_bind hok
  obtain ⟨hclean₁, hrest, htokens, hback⟩ := hn b c₁ r c₂ hnext hclean
  obtain ⟨hclean₀, hrest₀, htokens₀, hback₀⟩ := ha c b c₁ hact hclean₁
  refine ⟨hclean₀, List.Subset.trans hrest hrest₀, fun u hu => ?_, fun r' c₂' hr hc => ?_⟩
  · have hmem := htokens hu
    simp only [Form.prod, List.mem_append] at hmem
    rcases hmem with (hmem | hmem) | hmem
    · exact List.mem_append_left _ hmem
    · exact List.mem_append_right _ (htokens₀ hmem)
    · exact List.mem_append_right _ (hrest₀ hmem)
  · obtain ⟨⟨a', b'⟩, c₁', ⟨ha', hb'⟩, hc₁, hnext'⟩ := hback r' c₂' hr hc
    obtain ⟨_, c', -, hc', hact'⟩ := hback₀ b' c₁' hb' hc₁
    exact ⟨a', c', ha', hc', (bind_of_ok hact').trans hnext'⟩

/-- What is read first decides how `next` goes on, in the same way for all that it may become. -/
theorem congr {next next' : α → Reader β} (h : Retraces ρ next' A B a) (ha : next a = next' a)
    (hn : ∀ a', A.Rewrites a a' → next a' = next' a') : Retraces ρ next A B a := by
  intro c b c₁ hok hclean
  obtain ⟨hclean₀, hrest, htokens, hback⟩ := h c b c₁ (ha ▸ hok) hclean
  refine ⟨hclean₀, hrest, htokens, fun b' c₁' hb hc => ?_⟩
  obtain ⟨a', c', ha', hc', hok'⟩ := hback b' c₁' hb hc
  exact ⟨a', c', ha', hc', (hn a' ha').symm ▸ hok'⟩

/-- What the cursor decides is decided in the same way on rewritten tokens, if only their kinds
matter. -/
theorem choice {next yes no : α → Reader β} {p : Cursor → Prop}
    (hp : ∀ c c', c.Rewrites ρ c' → (p c' ↔ p c)) (hyes : ∀ a c, p c → next a c = yes a c)
    (hno : ∀ a c, ¬ p c → next a c = no a c) (h : Retraces ρ yes A B a)
    (h' : Retraces ρ no A B a) : Retraces ρ next A B a := by
  intro c b c₁ hok hclean
  by_cases hc : p c
  · have hok := (hyes a c hc).symm.trans hok
    obtain ⟨hclean₀, hrest, htokens, hback⟩ := h c b c₁ hok hclean
    refine ⟨hclean₀, hrest, htokens, fun b' c₁' hb hc₁ => ?_⟩
    obtain ⟨a', c', ha, hc', hok'⟩ := hback b' c₁' hb hc₁
    exact ⟨a', c', ha, hc', (hyes a' c' ((hp c c' hc').2 hc)).trans hok'⟩
  · have hok := (hno a c hc).symm.trans hok
    obtain ⟨hclean₀, hrest, htokens, hback⟩ := h' c b c₁ hok hclean
    refine ⟨hclean₀, hrest, htokens, fun b' c₁' hb hc₁ => ?_⟩
    obtain ⟨a', c', ha, hc', hok'⟩ := hback b' c₁' hb hc₁
    exact ⟨a', c', ha, hc', (hno a' c' (mt (hp c c' hc').1 hc)).trans hok'⟩

/-- What does not go on from anything may stand behind anything. -/
theorem of_retraced {act : Reader β} (h : Retraced ρ act B) (ha : ∃ a', A.Rewrites a a') :
    Retraces ρ (fun _ => act) A B a :=
  comp (g := fun _ => ()) h (List.nil_subset _) fun _ _ => ha.imp fun _ ha => ⟨ha, rfl⟩

theorem stopped {next : α → Reader β} (h : ∀ c b c₁, next a c ≠ .ok b c₁) :
    Retraces ρ next A B a :=
  fun c b c₁ hok => absurd hok (h c b c₁)

end Retraces

theorem Cursor.Clean.of_advance {c : Cursor} (h : c.advance.Clean) : c.Clean := by
  unfold Cursor.advance at h
  split at h
  · exact h
  · obtain ⟨e, he, hk⟩ := h.hasEnd
    exact ⟨h.reports, e, List.mem_of_mem_tail he, hk⟩

/-- A token that is read is one of those ahead. -/
theorem Cursor.Clean.rest_eq {c : Cursor} (h : c.Clean) (hk : c.current.kind ≠ .eof) :
    c.rest = c.current :: c.advance.rest := by
  rw [Cursor.advance_rest (by simpa [Cursor.atEnd] using hk)]
  cases hrest : c.rest with
  | nil =>
    obtain ⟨e, he, -⟩ := hrest ▸ h.hasEnd
    cases he
  | cons t rest => simp [Cursor.current, hrest]

namespace Retraces

variable {R : Token → Token → Prop}

/-- What lies behind a token that was read can be rewritten together with the token. -/
theorem took {next : α → Token → Reader β} {c c₁ : Cursor} {b : β}
    (h : Retraces ρ (fun p => next p.1 p.2) (A.prod (.token R)) B (a, c.current))
    (hk : c.current.kind ≠ .eof) (hR : ∀ u, R c.current u → ρ.Rewrites c.current u)
    (hok : next a c.current c.advance = .ok b c₁) (hclean : c₁.Clean) :
    c.Clean ∧ c₁.rest ⊆ c.rest ∧ B.tokens b ⊆ A.tokens a ++ c.rest ∧
      ∀ b' c₁', B.Rewrites b b' → c₁.Rewrites ρ c₁' → ∃ a' c', A.Rewrites a a' ∧
        c.Rewrites ρ c' ∧ next a' c'.current c'.advance = .ok b' c₁' := by
  obtain ⟨hclean₀, hrest, htokens, hback⟩ := h c.advance b c₁ hok hclean
  have hclean' := hclean₀.of_advance
  have hcons := hclean'.rest_eq hk
  refine ⟨hclean', fun u hu => ?_, fun u hu => ?_, fun b' c₁' hb hc => ?_⟩
  · rw [hcons]
    exact List.mem_cons_of_mem _ (hrest hu)
  · have hmem := htokens hu
    rw [hcons]
    simp only [Form.prod, Form.token, List.mem_append, List.mem_singleton] at hmem
    simp only [List.mem_append, List.mem_cons]
    exact or_assoc.1 hmem
  · obtain ⟨⟨a', u⟩, c', ⟨ha, hu⟩, hc', hok'⟩ := hback b' c₁' hb hc
    obtain ⟨c₀, hc₀, rfl, rfl⟩ := hc'.back hclean' hk (hR u hu)
    exact ⟨a', c₀, ha, hc₀, hok'⟩

theorem expect_kept {kind : Token.Kind} {what : Expected} {next : α → Token → Reader β}
    (hk : kind ≠ .eof) (hR : ∀ u u', u.kind = kind → R u u' → ρ.Rewrites u u')
    (hn : ∀ u, u.kind = kind → Retraces ρ (fun p => next p.1 p.2) (A.prod (.token R)) B (a, u)) :
    Retraces ρ (fun a => Grammar.expect kind what >>= next a) A B a := by
  intro c b c₁ hok hclean
  have hexpect (c : Cursor) (hc : c.current.kind = kind) :
      Grammar.expect kind what c = .ok c.current c.advance := if_pos hc
  by_cases hc : c.current.kind = kind
  · have hok := (bind_of_ok (hexpect c hc)).symm.trans hok
    obtain ⟨hclean₀, hrest, htokens, hback⟩ :=
      took (hn c.current hc) (by rwa [hc]) (fun u => hR _ u hc) hok hclean
    refine ⟨hclean₀, hrest, htokens, fun b' c₁' hb hc₁ => ?_⟩
    obtain ⟨a', c', ha, hc', hok'⟩ := hback b' c₁' hb hc₁
    exact ⟨a', c', ha, hc', (bind_of_ok (hexpect c' (hc'.current_kind.trans hc))).trans hok'⟩
  · have herror : Grammar.expect kind what c =
        .error .fault (c.report c.current (.expected what)) := if_neg hc
    cases (bind_of_error herror).symm.trans hok

/-- A token of one kind that the tree does not keep. -/
theorem expect {kind : Token.Kind} {what : Expected} {next : α → Reader β} (hk : kind ≠ .eof)
    (hn : Retraces ρ next A B a) :
    Retraces ρ (fun a => Grammar.expect kind what >>= fun _ => next a) A B a := by
  have hR (u u' : Token) (_ : u.kind = kind) (h : u' = u) : ρ.Rewrites u u' := h ▸ .same u'
  refine expect_kept hk hR fun u _ => comp (g := Prod.fst) hn (List.subset_append_left _ _) ?_
  exact fun a' ha => ⟨(a', u), ⟨ha, rfl⟩, rfl⟩

/-- A token of some kinds may follow. -/
theorem accept {kinds : List Token.Kind} {next : α → Option Token → Reader β} (hk : .eof ∉ kinds)
    (hR : ∀ u u', R u u' → ρ.Rewrites u u')
    (hnone : Retraces ρ (fun a => next a none) A B a)
    (hsome : ∀ u, u.kind ∈ kinds →
      Retraces ρ (fun p => next p.1 (some p.2)) (A.prod (.token R)) B (a, u)) :
    Retraces ρ (fun a => Grammar.accept kinds >>= next a) A B a := by
  intro c b c₁ hok hclean
  have hyes (c : Cursor) (hc : c.current.kind ∈ kinds) :
      Grammar.accept kinds c = .ok (some c.current) c.advance := if_pos hc
  have hno (c : Cursor) (hc : c.current.kind ∉ kinds) :
      Grammar.accept kinds c = .ok none c := if_neg hc
  by_cases hc : c.current.kind ∈ kinds
  · have hok := (bind_of_ok (hyes c hc)).symm.trans hok
    obtain ⟨hclean₀, hrest, htokens, hback⟩ :=
      @took _ _ _ _ _ _ _ (fun a u => next a (some u)) _ _ _ (hsome c.current hc)
        (fun h => hk (h ▸ hc)) (hR _) hok hclean
    refine ⟨hclean₀, hrest, htokens, fun b' c₁' hb hc₁ => ?_⟩
    obtain ⟨a', c', ha, hc', hok'⟩ := hback b' c₁' hb hc₁
    exact ⟨a', c', ha, hc', (bind_of_ok (hyes c' (by rwa [hc'.current_kind]))).trans hok'⟩
  · have hok := (bind_of_ok (hno c hc)).symm.trans hok
    obtain ⟨hclean₀, hrest, htokens, hback⟩ := hnone c b c₁ hok hclean
    refine ⟨hclean₀, hrest, htokens, fun b' c₁' hb hc₁ => ?_⟩
    obtain ⟨a', c', ha, hc', hok'⟩ := hback b' c₁' hb hc₁
    exact ⟨a', c', ha, hc', (bind_of_ok (hno c' (by rwa [hc'.current_kind]))).trans hok'⟩

theorem check {kind : Token.Kind} {next : α → Bool → Reader β}
    (hn : ∀ here, Retraces ρ (fun a => next a here) A B a) :
    Retraces ρ (fun a => Grammar.check kind >>= next a) A B a := by
  intro c b c₁ hok hclean
  have hcheck (c : Cursor) : Grammar.check kind c = .ok (c.current.kind = kind) c := rfl
  have hok := (bind_of_ok (hcheck c)).symm.trans hok
  obtain ⟨hclean₀, hrest, htokens, hback⟩ := hn _ c b c₁ hok hclean
  refine ⟨hclean₀, hrest, htokens, fun b' c₁' hb hc₁ => ?_⟩
  obtain ⟨a', c', ha, hc', hok'⟩ := hback b' c₁' hb hc₁
  rw [← hc'.current_kind] at hok'
  exact ⟨a', c', ha, hc', (bind_of_ok (hcheck c')).trans hok'⟩

/-- The bound of a loop matters for its length only. -/
theorem ahead {next : α → List Token → Reader β}
    (hsame : ∀ a bound bound', bound.length = bound'.length → next a bound = next a bound')
    (hn : ∀ bound, Retraces ρ (fun a => next a bound) A B a) :
    Retraces ρ (fun a => Grammar.ahead >>= next a) A B a := by
  intro c b c₁ hok hclean
  have hahead (c : Cursor) : Grammar.ahead c = .ok c.ahead c := rfl
  have hok := (bind_of_ok (hahead c)).symm.trans hok
  obtain ⟨hclean₀, hrest, htokens, hback⟩ := hn _ c b c₁ hok hclean
  refine ⟨hclean₀, hrest, htokens, fun b' c₁' hb hc₁ => ?_⟩
  obtain ⟨a', c', ha, hc', hok'⟩ := hback b' c₁' hb hc₁
  have hnext := congrFun (hsame a' _ _ hc'.length_ahead) c'
  exact ⟨a', c', ha, hc', (bind_of_ok (hahead c')).trans (hnext.trans hok')⟩

/-- A report is never taken back. -/
theorem not_clean_of_report {u : Token} {fault : Fault} {next : α → Reader β} {c c₁ : Cursor}
    {b : β} (hn : Retraces ρ next A B a)
    (hok : (Grammar.report u fault >>= fun _ => next a) c = .ok b c₁) : ¬ c₁.Clean := by
  intro hclean
  have hreport : Grammar.report u fault c = .ok () (c.report u fault) := rfl
  have hclean₀ := (hn _ b c₁ ((bind_of_ok hreport).symm.trans hok) hclean).1
  exact absurd hclean₀.reports (List.cons_ne_nil _ _)

theorem report {u : α → Token} {fault : Fault} {next : α → Reader β}
    (hn : Retraces ρ next A B a) :
    Retraces ρ (fun a => Grammar.report (u a) fault >>= fun _ => next a) A B a :=
  fun _ _ _ hok hclean => absurd hclean (not_clean_of_report hn hok)

theorem report_current {fault : Fault} {next : α → Reader β} (hn : Retraces ρ next A B a) :
    Retraces ρ (fun a => Grammar.current >>= fun u => Grammar.report u fault >>= fun _ => next a)
      A B a :=
  fun _ _ _ hok hclean => absurd hclean (not_clean_of_report hn hok)

theorem freshSite {next : α → Site → Reader β}
    (hn : ∀ site, Retraces ρ (fun a => next a site) A B a) :
    Retraces ρ (fun a => Grammar.freshSite >>= next a) A B a := by
  intro c b c₁ hok hclean
  have hfresh (c : Cursor) : Grammar.freshSite c =
      .ok c.nextSite { c with nextSite := c.nextSite + 1 } := rfl
  have hok := (bind_of_ok (hfresh c)).symm.trans hok
  obtain ⟨hclean₀, hrest, htokens, hback⟩ := hn _ _ b c₁ hok hclean
  refine ⟨⟨hclean₀.reports, hclean₀.hasEnd⟩, hrest, htokens, fun b' c₁' hb hc₁ => ?_⟩
  obtain ⟨a', c', ha, hc', hok'⟩ := hback b' c₁' hb hc₁
  refine ⟨a', { c with rest := c'.rest }, ha, ⟨hc'.rest, rfl⟩, ?_⟩
  rw [hc'.same] at hok'
  exact (bind_of_ok (hfresh _)).trans hok'

theorem map {act : Reader β} {γ : Type} {C : Form γ} {f : β → γ} (ha : Retraced ρ act B)
    (ht : ∀ b, C.tokens (f b) ⊆ B.tokens b)
    (h : ∀ b c', C.Rewrites (f b) c' → ∃ b', B.Rewrites b b' ∧ f b' = c') :
    Retraced ρ (f <$> act) C := by
  rw [Retraced, map_eq_pure_bind]
  refine step ha fun b => .pure (f := fun p : Unit × β => f p.2) ?_ fun c' hc => ?_
  · exact fun u hu => List.mem_append_right _ (ht b hu)
  · obtain ⟨b', hb, rfl⟩ := h b c' hc
    exact ⟨((), b'), ⟨trivial, hb⟩, rfl⟩

end Retraces

end

end Lox.Grammar
