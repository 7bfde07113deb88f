import Lox.Proofs.Scoping.Agreement

/-!
# Actions that mirror each other

An action of the machine and one of static scoping mirror each other if they end alike: both with a
result, or both with the same failure and in states that agree, in a world that goes on from the
first one. Both have limits, on the depth of an evaluation and on the rounds of a loop, and use them
up at a different rate. So there is always one side that may be exhausted, in which case nothing is
asked of the other, and one that is not.
-/
namespace Lox

/-- Whether a failure says that the stack or the rounds of a loop were exhausted. -/
def Failure.Exhausted : Failure → Prop
  | .abort .stackExhausted => True
  | .abort .roundsExhausted => True
  | .error e => e.fault = .stackOverflow
  | _ => False

/-- A guard changes a failure only if the stack was exhausted, and then it still was. -/
theorem Failure.guarded_cases (f : Failure) (token : Token) :
    (f.guarded token).Exhausted ∧ f.Exhausted ∨ f.guarded token = f := by
  cases f with
  | error e => exact .inr rfl
  | abort a =>
    cases a with
    | stackExhausted => exact .inl ⟨rfl, trivial⟩
    | _ => exact .inr rfl

namespace Scoping

open Binding (Names Table hops? readable marked declaring declaredIn withParameters FunctionBound)
open Lexical (Cell Env State Action)

variable {α β γ δ : Type} {t : Table}

/-- The side that may be exhausted. -/
inductive Side where
  | machine
  | static

/-- The other side has enough: static scoping as much as the machine, or the machine `cost` for each
unit of static scoping and `spare` beyond that. -/
def Side.Suffices (side : Side) (cost spare limit limit' : Nat) : Prop :=
  match side with
  | .machine => limit ≤ limit'
  | .static => cost * limit' + spare ≤ limit

namespace Side.Suffices

variable {side : Side} {cost spare limit limit' : Nat}

/-- A step of both, for which the machine pays no more than the cost. -/
theorem step (paid : Nat) (h : side.Suffices cost spare (limit + paid) (limit' + 1))
    (hpaid : 1 ≤ paid ∧ paid ≤ cost) : side.Suffices cost spare limit limit' := by
  cases side with
  | machine =>
    have hle : limit + paid ≤ limit' + 1 := h
    show limit ≤ limit'
    omega
  | static =>
    have hle : cost * (limit' + 1) + spare ≤ limit + paid := h
    show cost * limit' + spare ≤ limit
    rw [Nat.mul_add_one] at hle
    omega

/-- A step of the machine alone, paid for from what it has beyond that. -/
theorem spend (paid : Nat) (h : side.Suffices cost (spare + paid) (limit + paid) limit') :
    side.Suffices cost spare limit limit' := by
  cases side with
  | machine => exact Nat.le_of_add_right_le h
  | static =>
    have hle : cost * limit' + (spare + paid) ≤ limit + paid := h
    show cost * limit' + spare ≤ limit
    omega

theorem forget (kept : Nat) (h : side.Suffices cost (spare + kept) limit limit') :
    side.Suffices cost spare limit limit' := by
  cases side with
  | machine => exact h
  | static => exact Nat.le_of_add_right_le (k := kept) (by rwa [Nat.add_assoc])

/-- A machine that has less than enough is the side that may be exhausted. -/
theorem eq_machine (h : side.Suffices cost spare limit limit')
    (hlt : limit < cost * limit' + spare) : side = .machine := by
  cases side with
  | machine => rfl
  | static => exact absurd h (Nat.not_le_of_lt hlt)

end Side.Suffices

/-- `act` and `act'` both have a result, and `Q` holds of both; or both fail with the same cause, in
states that agree in a world later than `w`; or the side that may be exhausted is. -/
inductive Mirrors (side : Side) (t : Table) (w : World) (act : Run α) (act' : Action γ)
    (m : Machine) (s : State) (Q : α → Machine → γ → State → Prop) : Prop where
  | of_ok {a : α} {m' : Machine} {a' : γ} {s' : State} (h : act m = .ok a m')
      (h' : act' s = .ok a' s') (hq : Q a m' a' s')
  | of_error {f : Failure} {w' : World} {m' : Machine} {s' : State} (h : act m = .error f m')
      (h' : act' s = .error f s') (hw : Agrees t w' m' s') (hl : w.Later w')
  | of_exhausted {f : Failure} {m' : Machine} (hside : side = .machine)
      (h : act m = .error f m') (hf : f.Exhausted)
  | of_exhausted' {f : Failure} {s' : State} (hside : side = .static)
      (h' : act' s = .error f s') (hf : f.Exhausted)

namespace Mirrors

variable {side : Side} {w : World} {act : Run α} {act' : Action γ} {m : Machine} {s : State}
  {Q : α → Machine → γ → State → Prop} {R : β → Machine → δ → State → Prop}

/-- If both sides are exhausted, it does not matter which one may be. -/
theorem of_both_exhausted {f f' : Failure} {m' : Machine} {s' : State} (h : act m = .error f m')
    (hf : f.Exhausted) (h' : act' s = .error f' s') (hf' : f'.Exhausted) :
    Mirrors side t w act act' m s Q := by
  cases side with
  | machine => exact .of_exhausted rfl h hf
  | static => exact .of_exhausted' rfl h' hf'

theorem result {a : α} {a' : γ} (h : Q a m a' s) :
    Mirrors side t w (pure a) (pure a') m s Q :=
  .of_ok rfl rfl h

theorem ok {a : α} {m' : Machine} (h : Mirrors .machine t w act act' m s Q)
    (hok : act m = .ok a m') : ∃ a' s', act' s = .ok a' s' ∧ Q a m' a' s' := by
  cases h with
  | of_ok h h' hq =>
    cases hok.symm.trans h
    exact ⟨_, _, h', hq⟩
  | of_error h => cases hok.symm.trans h
  | of_exhausted _ h => cases hok.symm.trans h
  | of_exhausted' hside => cases hside

/-- What begins in a later world begins later than before. -/
theorem since {w₁ : World} (h : Mirrors side t w₁ act act' m s Q) (hl : w.Later w₁) :
    Mirrors side t w act act' m s Q := by
  cases h with
  | of_ok h h' hq => exact .of_ok h h' hq
  | of_error h h' hw hl' => exact .of_error h h' hw (hl.trans hl')
  | of_exhausted hside h hf => exact .of_exhausted hside h hf
  | of_exhausted' hside h hf => exact .of_exhausted' hside h hf

theorem imp {Q' : α → Machine → γ → State → Prop} (h : Mirrors side t w act act' m s Q)
    (hq : ∀ a m' a' s', Q a m' a' s' → Q' a m' a' s') : Mirrors side t w act act' m s Q' := by
  cases h with
  | of_ok h h' hq' => exact .of_ok h h' (hq _ _ _ _ hq')
  | of_error h h' hw hl => exact .of_error h h' hw hl
  | of_exhausted hside h hf => exact .of_exhausted hside h hf
  | of_exhausted' hside h hf => exact .of_exhausted' hside h hf

/-- Only how the two actions end matters. -/
theorem congr {act₁ : Run α} {act₁' : Action γ} {m₁ : Machine} {s₁ : State}
    (h : Mirrors side t w act₁ act₁' m₁ s₁ Q) (hact : act m = act₁ m₁)
    (hact' : act' s = act₁' s₁) : Mirrors side t w act act' m s Q := by
  cases h with
  | of_ok h h' hq => exact .of_ok (hact.trans h) (hact'.trans h') hq
  | of_error h h' hw hl => exact .of_error (hact.trans h) (hact'.trans h') hw hl
  | of_exhausted hside h hf => exact .of_exhausted hside (hact.trans h) hf
  | of_exhausted' hside h hf => exact .of_exhausted' hside (hact'.trans h) hf

/-- Two actions in sequence mirror two others step by step. -/
theorem bind {next : α → Run β} {next' : γ → Action δ} (h : Mirrors side t w act act' m s Q)
    (hn : ∀ a m' a' s', Q a m' a' s' → Mirrors side t w (next a) (next' a') m' s' R) :
    Mirrors side t w (act >>= next) (act' >>= next') m s R := by
  cases h with
  | of_ok h h' hq => exact (hn _ _ _ _ hq).congr (bind_of_ok h) (bind_of_ok h')
  | of_error h h' hw hl => exact .of_error (bind_of_error h) (bind_of_error h') hw hl
  | of_exhausted hside h hf => exact .of_exhausted hside (bind_of_error h) hf
  | of_exhausted' hside h hf => exact .of_exhausted' hside (bind_of_error h) hf

/-- Static scoping takes a step that the machine does not take. -/
theorem ahead {a' : γ} {s' : State} {next' : γ → Action δ} {act : Run β}
    (h : act' s = .ok a' s') (hn : Mirrors side t w act (next' a') m s' R) :
    Mirrors side t w act (act' >>= next') m s R :=
  hn.congr rfl (bind_of_ok h)

/-- Static scoping answers more than the machine. -/
theorem behind {f : γ → δ} {R : α → Machine → δ → State → Prop}
    (h : Mirrors side t w act act' m s Q) (hn : ∀ a m' a' s', Q a m' a' s' → R a m' (f a') s') :
    Mirrors side t w act (act' >>= fun a' => pure (f a')) m s R := by
  rw [← bind_pure act]
  exact h.bind fun a m' a' s' hq => .result (hn a m' a' s' hq)

/-- Where an exhausted stack becomes an error, it is still an exhausted stack. -/
theorem guardStack (token : Token) (h : Mirrors side t w act act' m s Q) :
    Mirrors side t w (Run.guardStack token act) act' m s Q := by
  cases h with
  | of_ok h h' hq => exact .of_ok (Run.guardStack_of_ok h) h' hq
  | @of_error f _ _ _ h h' hw hl =>
    have hguarded : Run.guardStack token act m = .error (f.guarded token) _ :=
      Run.guardStack_of_error h
    rcases f.guarded_cases token with ⟨hexhausted, hf⟩ | hsame
    · exact .of_both_exhausted hguarded hexhausted h' hf
    · exact .of_error (hsame ▸ hguarded) h' hw hl
  | @of_exhausted f _ hside h hf =>
    have hguarded : Run.guardStack token act m = .error (f.guarded token) _ :=
      Run.guardStack_of_error h
    rcases f.guarded_cases token with ⟨hexhausted, -⟩ | hsame
    · exact .of_exhausted hside hguarded hexhausted
    · exact .of_exhausted hside (hsame ▸ hguarded) hf
  | of_exhausted' hside h hf => exact .of_exhausted' hside h hf

/-- What is done in another scope leaves the machine in the scope that it was in. -/
theorem within {sc : ScopeId} (h : Mirrors side t w act act' { m with scope := sc } s
      fun a m' a' s' => Q a { m' with scope := m.scope } a' s') :
    Mirrors side t w (Run.within sc act) act' m s Q := by
  cases h with
  | of_ok h h' hq => exact .of_ok (by simp [Run.within, h]) h' hq
  | of_error h h' hw hl => exact .of_error (by simp [Run.within, h]) h' (hw.moved m.scope) hl
  | @of_exhausted f m' hside h hf =>
    have heq : Run.within sc act m = .error f { m' with scope := m.scope } := by
      simp [Run.within, h]
    exact .of_exhausted hside heq hf
  | of_exhausted' hside h hf => exact .of_exhausted' hside h hf

end Mirrors

/-- An evaluation leads from one world to another. Of the scopes that were there before, at most one
of its own gets further names. -/
structure Continues (t : Table) (own : Option Nat) (w : World) (m : Machine) (w' : World)
    (m' : Machine) (s' : State) : Prop where
  agrees : Agrees t w' m' s'
  later : w.Later w'
  pending : w'.pending = w.pending
  scope : m'.scope = m.scope
  frame : ∀ id name, id < w.store.size → some id ≠ own → w'.links id name = w.links id name

namespace Continues

variable {own : Option Nat} {w w₁ w₂ : World} {m m₁ m₂ : Machine} {s s₁ s₂ : State}

theorem refl (h : Agrees t w m s) : Continues t own w m w m s :=
  ⟨h, .refl w, rfl, rfl, fun _ _ _ _ => rfl⟩

theorem trans (h : Continues t own w m w₁ m₁ s₁) (h' : Continues t own w₁ m₁ w₂ m₂ s₂) :
    Continues t own w m w₂ m₂ s₂ where
  agrees := h'.agrees
  later := h.later.trans h'.later
  pending := h'.pending.trans h.pending
  scope := h'.scope.trans h.scope
  frame id name hid hown :=
    (h'.frame id name (Nat.lt_of_lt_of_le hid h.later.size) hown).trans (h.frame id name hid hown)

/-- An evaluation that leaves all scopes alone leaves all but one alone. -/
theorem weaken (h : Continues t none w m w₁ m₁ s₁) : Continues t own w m w₁ m₁ s₁ :=
  { h with frame := fun id name hid _ => h.frame id name hid (by simp) }

end Continues

/-- All names that a scope has cells for are declared at the place. -/
def Frontier (w : World) (sc : ScopeId) (Γ : List Names) : Prop :=
  ∀ name cell, w.links sc name = some cell → declaredIn name Γ = true

theorem Frontier.mono {w w' : World} {sc : Nat} {Γ : List Names} (h : Frontier w sc Γ)
    (hlinks : ∀ name, w'.links sc name = w.links sc name) : Frontier w' sc Γ :=
  fun name cell hc => h name cell (hlinks name ▸ hc)

end Scoping
end Lox
