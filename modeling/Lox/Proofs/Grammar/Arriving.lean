import Lox.Proofs.Grammar.Room
import Lox.Proofs.Grammar.Steps
import Lox.Proofs.Syntax.Written

/-!
# Reading what is written

`Parses act xs follow n P` says that `act` reads every spelling of `xs`, and nothing behind it, if
the token behind it is of a kind that may follow. It ends normally with a result of which `P` holds,
and reports nothing but `n` surplus items. `Arrives` is what is kept from one step of a reader to
the next: the tokens that are left, and the number of reports since the reading began.
-/
namespace Lox.Grammar

/-- Reports of items beyond the greatest number, and of nothing else. -/
structure Surplus (reports : List Report) (n : Nat) : Prop where
  length : reports.length = n
  faults : ∀ r ∈ reports, r.fault = .tooManyArguments ∨ r.fault = .tooManyParameters

theorem Surplus.nil : Surplus [] 0 := ⟨rfl, by simp⟩

theorem Surplus.append {rs qs : List Report} {m n : Nat} (h : Surplus rs m) (h' : Surplus qs n) :
    Surplus (qs ++ rs) (m + n) := by
  refine ⟨by simp [h.length, h'.length, Nat.add_comm], fun r hr => ?_⟩
  exact (List.mem_append.1 hr).elim (h'.faults r) (h.faults r)

/-- A reading that began at `c` has the tokens `rest` left. -/
structure Arrives (c : Cursor) (rest : List Token) (n : Nat) (c' : Cursor) : Prop where
  rest : c'.rest = rest
  reports : ∃ new, c'.reports = new ++ c.reports ∧ Surplus new n

/-- `act` ends normally, with `Q`. -/
abbrev Succeeds {α : Type} (act : Reader α) (c : Cursor) (Q : α → Cursor → Prop) : Prop :=
  Ends act c Q fun _ _ => False

namespace Succeeds

variable {α β : Type} {act : Reader α} {next : α → Reader β} {c : Cursor}
  {Q Q' : α → Cursor → Prop} {R : β → Cursor → Prop}

theorem imp (h : Succeeds act c Q) (hq : ∀ a c', Q a c' → Q' a c') : Succeeds act c Q' :=
  Ends.imp h hq fun _ _ hfalse => hfalse

theorem bind (h : Succeeds act c Q) (hn : ∀ a c', Q a c' → Succeeds (next a) c' R) :
    Succeeds (act >>= next) c R := by
  rw [Succeeds, ends_bind]
  exact h.imp hn

theorem exists_ok (h : Succeeds act c Q) : ∃ a c', act c = .ok a c' ∧ Q a c' := by
  cases hact : act c with
  | ok a c' => exact ⟨a, c', rfl, Ends.ok h hact⟩
  | error stop c' => exact (Ends.error h hact).elim

end Succeeds

def Parses {α : Type} (act : Reader α) (xs : List Terminal) (follow : Token.Kind → Prop) (n : Nat)
    (P : α → Prop) : Prop :=
  ∀ c ts t rest, Spells xs ts → c.rest = ts ++ t :: rest → follow t.kind →
    Succeeds act c fun a c' => P a ∧ Arrives c (t :: rest) n c'

/-- What may be read before one token may be read before fewer. -/
theorem Parses.before {α : Type} {act : Reader α} {xs : List Terminal} {n : Nat} {P : α → Prop}
    {follow follow' : Token.Kind → Prop} (h : Parses act xs follow n P)
    (hf : ∀ kind, follow' kind → follow kind) : Parses act xs follow' n P :=
  fun c ts t rest hs hrest hk => h c ts t rest hs hrest (hf t.kind hk)

namespace Arrives

variable {α β : Type} {c c₁ c₂ : Cursor} {t : Token} {rest : List Token} {m n : Nat}
  {Q : β → Cursor → Prop}

theorem refl {c : Cursor} (h : c.rest = rest) : Arrives c rest 0 c := ⟨h, [], rfl, .nil⟩

theorem trans {rest' : List Token} (h : Arrives c rest m c₁) (h' : Arrives c₁ rest' n c₂) :
    Arrives c rest' (m + n) c₂ := by
  obtain ⟨new, heq, hs⟩ := h.reports
  obtain ⟨new', heq', hs'⟩ := h'.reports
  exact ⟨h'.rest, new' ++ new, by simp [heq, heq'], hs.append hs'⟩

theorem cast (h : Arrives c rest m c₁) (hn : m = n) : Arrives c rest n c₁ := hn ▸ h

theorem current (h : Arrives c (t :: rest) n c₁) : c₁.current = t := by
  simp [Cursor.current, h.rest]

theorem advance (h : Arrives c (t :: rest) n c₁) (hk : t.kind ≠ .eof) :
    Arrives c rest n c₁.advance := by
  have hend : c₁.atEnd = false := by simp [Cursor.atEnd, h.current, hk]
  refine ⟨by simp [Cursor.advance_rest hend, h.rest], ?_⟩
  simpa [Cursor.advance, hend] using h.reports

/-- A written part is read. -/
theorem step {act : Reader α} {next : α → Reader β} {xs : List Terminal}
    {follow : Token.Kind → Prop} {P : α → Prop} {ts : List Token}
    (h : Arrives c (ts ++ t :: rest) m c₁) (ha : Parses act xs follow n P) (hs : Spells xs ts)
    (hf : follow t.kind)
    (hn : ∀ a c₂, Arrives c (t :: rest) (m + n) c₂ → P a → Succeeds (next a) c₂ Q) :
    Succeeds (act >>= next) c₁ Q := by
  exact (ha c₁ ts t rest hs h.rest hf).bind fun a c₂ h' => hn a c₂ (h.trans h'.2) h'.1

/-- A token that has to follow does. -/
theorem expect {kind : Token.Kind} {what : Expected} {next : Token → Reader β}
    (h : Arrives c (t :: rest) n c₁) (hk : t.kind = kind) (hkind : kind ≠ .eof)
    (hn : ∀ c₂, Arrives c rest n c₂ → Succeeds (next t) c₂ Q) :
    Succeeds (Grammar.expect kind what >>= next) c₁ Q := by
  rw [Succeeds, ends_bind]
  have hok : Grammar.expect kind what c₁ = .ok t c₁.advance := by
    simp [Grammar.expect, h.current, hk]
  exact .of_ok hok (hn _ (h.advance (by rwa [hk])))

/-- A token that may follow does. -/
theorem accept {kinds : List Token.Kind} {next : Option Token → Reader β}
    (h : Arrives c (t :: rest) n c₁) (hk : t.kind ∈ kinds) (hkinds : .eof ∉ kinds)
    (hn : ∀ c₂, Arrives c rest n c₂ → Succeeds (next (some t)) c₂ Q) :
    Succeeds (Grammar.accept kinds >>= next) c₁ Q := by
  rw [Succeeds, ends_bind]
  have hok : Grammar.accept kinds c₁ = .ok (some t) c₁.advance := by
    simp [Grammar.accept, h.current, hk]
  exact .of_ok hok (hn _ (h.advance fun he => hkinds (he ▸ hk)))

/-- A token that may follow does not. -/
theorem refuse {kinds : List Token.Kind} {next : Option Token → Reader β}
    (h : Arrives c (t :: rest) n c₁) (hk : t.kind ∉ kinds) (hn : Succeeds (next none) c₁ Q) :
    Succeeds (Grammar.accept kinds >>= next) c₁ Q := by
  rw [Succeeds, ends_bind]
  have hok : Grammar.accept kinds c₁ = .ok none c₁ := by simp [Grammar.accept, h.current, hk]
  exact .of_ok hok hn

theorem check {kind : Token.Kind} {next : Bool → Reader β} (h : Arrives c (t :: rest) n c₁)
    (hn : Succeeds (next (decide (t.kind = kind))) c₁ Q) :
    Succeeds (Grammar.check kind >>= next) c₁ Q := by
  rw [Succeeds, ends_bind, ends_check, h.current]
  exact hn

/-- The bound of a loop is longer than what is left to read. -/
theorem ahead {next : List Token → Reader β} (h : Arrives c rest n c₁)
    (hn : ∀ bound, rest.length < bound.length → Succeeds (next bound) c₁ Q) :
    Succeeds (Grammar.ahead >>= next) c₁ Q := by
  rw [Succeeds, ends_bind, ends_ahead]
  exact hn _ (by simp [Cursor.ahead, h.rest])

/-- A surplus item is reported. -/
theorem report {u : Token} {fault : Fault} (h : Arrives c rest n c₁)
    (hf : fault = .tooManyArguments ∨ fault = .tooManyParameters) :
    Arrives c rest (n + 1) (c₁.report u fault) := by
  obtain ⟨new, heq, hs⟩ := h.reports
  refine ⟨h.rest, ⟨u, fault⟩ :: new, by simp [Cursor.report, heq], by simp [hs.length], ?_⟩
  simpa using ⟨hf, hs.faults⟩

end Arrives

/-- A reading that began at `c` has left what spells `xs`, with the tokens `rest` behind it. -/
def Faces (c : Cursor) (xs : List Terminal) (rest : List Token) (n : Nat) (c' : Cursor) : Prop :=
  ∃ ts, Spells xs ts ∧ Arrives c (ts ++ rest) n c'

/-- A reader is shown to parse by following it from where it faces all that is written. -/
theorem Parses.of_faces {α : Type} {act : Reader α} {xs : List Terminal}
    {follow : Token.Kind → Prop} {n : Nat} {P : α → Prop}
    (h : ∀ c t rest, follow t.kind → Faces c xs (t :: rest) 0 c →
      Succeeds act c fun a c' => P a ∧ Faces c [] (t :: rest) n c') :
    Parses act xs follow n P := by
  intro c ts t rest hs hrest hf
  refine (h c t rest hf ⟨ts, hs, .refl hrest⟩).imp fun a c' h' => ⟨h'.1, ?_⟩
  obtain ⟨us, hnil, harr⟩ := h'.2
  cases hnil
  exact harr

namespace Faces

variable {α β : Type} {c c₁ : Cursor} {x : Terminal} {xs ys : List Terminal} {rest : List Token}
  {t : Token} {m n : Nat} {Q : β → Cursor → Prop}

theorem cast (h : Faces c xs rest m c₁) (hn : m = n) : Faces c xs rest n c₁ := hn ▸ h

/-- The token that is faced, and what is left behind it. -/
theorem uncons (h : Faces c (x :: xs) rest n c₁) : ∃ u us, x.Admits u ∧ Spells xs us ∧
    Arrives c (u :: (us ++ rest)) n c₁ := by
  obtain ⟨ts, hs, harr⟩ := h
  obtain ⟨u, us, hu, hus, rfl⟩ := List.forall₂_cons_left_iff.1 hs
  exact ⟨u, us, hu, hus, harr⟩

theorem current_kind (h : Faces c (x :: xs) rest n c₁) : c₁.current.kind = x.kind := by
  obtain ⟨u, us, hu, -, harr⟩ := h.uncons
  rw [harr.current, hu.kind_eq]

theorem second_kind {y : Terminal} (h : Faces c (x :: y :: xs) rest n c₁) :
    c₁.second.kind = y.kind := by
  obtain ⟨u, us, -, hus, harr⟩ := h.uncons
  obtain ⟨v, vs, hv, -, rfl⟩ := List.forall₂_cons_left_iff.1 hus
  simp [Cursor.second, harr.rest, hv.kind_eq]

theorem length (h : Faces c xs rest n c₁) : c₁.rest.length = xs.length + rest.length := by
  obtain ⟨ts, hs, harr⟩ := h
  rw [harr.rest, List.length_append, hs.length_eq]

/-- A part is read if what stands next may follow it: what is written there or, if this is the last
part, the token behind everything. -/
theorem step {act : Reader α} {next : α → Reader β} {follow : Token.Kind → Prop} {P : α → Prop}
    (h : Faces c (xs ++ ys) (t :: rest) m c₁) (ha : Parses act xs follow n P)
    (hf : follow ((ys.head?.map Terminal.kind).getD t.kind))
    (hn : ∀ a c₂, Faces c ys (t :: rest) (m + n) c₂ → P a → Succeeds (next a) c₂ Q) :
    Succeeds (act >>= next) c₁ Q := by
  obtain ⟨ts, hs, harr⟩ := h
  obtain ⟨us, vs, rfl, hus, hvs⟩ := Spells.split hs
  rw [List.append_assoc] at harr
  cases hvs with
  | nil => exact harr.step ha hus hf fun a c₂ h₂ => hn a c₂ ⟨[], .nil, h₂⟩
  | cons hv hws =>
    refine harr.step ha hus ?_ fun a c₂ h₂ => hn a c₂ ⟨_, .cons hv hws, h₂⟩
    rw [hv.kind_eq]
    exact hf

/-- The last part is read if the token behind everything may follow it. -/
theorem last {act : Reader α} {next : α → Reader β} {follow : Token.Kind → Prop} {P : α → Prop}
    (h : Faces c xs (t :: rest) m c₁) (ha : Parses act xs follow n P) (hf : follow t.kind)
    (hn : ∀ a c₂, Faces c [] (t :: rest) (m + n) c₂ → P a → Succeeds (next a) c₂ Q) :
    Succeeds (act >>= next) c₁ Q := by
  rw [← List.append_nil xs] at h
  exact h.step ha hf hn

/-- The last part is all that is left to read. -/
theorem finish {act : Reader α} {follow : Token.Kind → Prop} {P : α → Prop}
    (h : Faces c xs (t :: rest) 0 c₁) (ha : Parses act xs follow n P) (hf : follow t.kind) :
    Succeeds act c₁ fun a c₂ => P a ∧ Faces c [] (t :: rest) n c₂ := by
  rw [← bind_pure act]
  exact h.last ha hf fun a c₂ h₂ hp => ⟨hp, h₂.cast (Nat.zero_add n)⟩

theorem expect {kind : Token.Kind} {what : Expected} {next : Token → Reader β}
    (h : Faces c (x :: xs) rest n c₁) (hk : x.kind = kind) (hkind : kind ≠ .eof)
    (hn : ∀ u c₂, x.Admits u → Faces c xs rest n c₂ → Succeeds (next u) c₂ Q) :
    Succeeds (Grammar.expect kind what >>= next) c₁ Q := by
  obtain ⟨u, us, hu, hus, harr⟩ := h.uncons
  exact harr.expect (hu.kind_eq.trans hk) hkind fun c₂ h₂ => hn u c₂ hu ⟨us, hus, h₂⟩

theorem advance {next : Token → Reader β} (h : Faces c (x :: xs) rest n c₁) (hk : x.kind ≠ .eof)
    (hn : ∀ u c₂, x.Admits u → Faces c xs rest n c₂ → Succeeds (next u) c₂ Q) :
    Succeeds (Grammar.advance >>= next) c₁ Q := by
  obtain ⟨u, us, hu, hus, harr⟩ := h.uncons
  rw [Succeeds, ends_bind, ends_advance, harr.current]
  exact hn u _ hu ⟨us, hus, harr.advance (by rwa [hu.kind_eq])⟩

theorem accept {kinds : List Token.Kind} {next : Option Token → Reader β}
    (h : Faces c (x :: xs) rest n c₁) (hk : x.kind ∈ kinds) (hkinds : .eof ∉ kinds)
    (hn : ∀ u c₂, x.Admits u → Faces c xs rest n c₂ → Succeeds (next (some u)) c₂ Q) :
    Succeeds (Grammar.accept kinds >>= next) c₁ Q := by
  obtain ⟨u, us, hu, hus, harr⟩ := h.uncons
  exact harr.accept (hu.kind_eq ▸ hk) hkinds fun c₂ h₂ => hn u c₂ hu ⟨us, hus, h₂⟩

theorem refuse {kinds : List Token.Kind} {next : Option Token → Reader β}
    (h : Faces c (x :: xs) rest n c₁) (hk : x.kind ∉ kinds) (hn : Succeeds (next none) c₁ Q) :
    Succeeds (Grammar.accept kinds >>= next) c₁ Q := by
  obtain ⟨u, us, hu, -, harr⟩ := h.uncons
  exact harr.refuse (hu.kind_eq ▸ hk) hn

theorem refuse_last {kinds : List Token.Kind} {next : Option Token → Reader β}
    (h : Faces c [] (t :: rest) n c₁) (hk : t.kind ∉ kinds) (hn : Succeeds (next none) c₁ Q) :
    Succeeds (Grammar.accept kinds >>= next) c₁ Q := by
  obtain ⟨ts, hnil, harr⟩ := h
  cases hnil
  exact harr.refuse hk hn

theorem check {kind : Token.Kind} {next : Bool → Reader β} (h : Faces c (x :: xs) rest n c₁)
    (hn : Succeeds (next (decide (x.kind = kind))) c₁ Q) :
    Succeeds (Grammar.check kind >>= next) c₁ Q := by
  obtain ⟨u, us, hu, -, harr⟩ := h.uncons
  exact harr.check (by rwa [hu.kind_eq])

theorem ahead {next : List Token → Reader β} (h : Faces c xs rest n c₁)
    (hn : ∀ bound, c₁.rest.length < bound.length → Succeeds (next bound) c₁ Q) :
    Succeeds (Grammar.ahead >>= next) c₁ Q := by
  obtain ⟨ts, -, harr⟩ := h
  exact harr.ahead fun bound hb => hn bound (by rwa [harr.rest])

/-- Taking a site leaves the tokens and the reports alone. -/
theorem freshSite {next : Site → Reader β} (h : Faces c xs rest n c₁)
    (hn : ∀ site c₂, Faces c xs rest n c₂ → Succeeds (next site) c₂ Q) :
    Succeeds (Grammar.freshSite >>= next) c₁ Q := by
  obtain ⟨ts, hs, harr⟩ := h
  rw [Succeeds, ends_bind, ends_freshSite]
  exact hn _ _ ⟨ts, hs, harr.rest, harr.reports⟩

end Faces

end Lox.Grammar
