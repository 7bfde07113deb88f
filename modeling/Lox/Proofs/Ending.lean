import Lox.Machine

/-!
# How an action ends

`Ends act s Q E` says that `act`, started in the state `s`, ends normally with a result and a state
of which `Q` holds, or fails with a cause and a state of which `E` holds. The rules below take an
action apart along its sequence of steps, so that a statement about an action is put together from
statements about its parts.
-/
namespace Lox

variable {ε σ α β : Type}

def Ends (act : EStateM ε σ α) (s : σ) (Q : α → σ → Prop) (E : ε → σ → Prop) : Prop :=
  match act s with
  | .ok a s' => Q a s'
  | .error e s' => E e s'

namespace Ends

variable {act act' : EStateM ε σ α} {s s' : σ} {Q Q' : α → σ → Prop} {E E' : ε → σ → Prop}

theorem ok {a : α} (h : Ends act s Q E) (h' : act s = .ok a s') : Q a s' := by
  simpa [Ends, h'] using h

theorem error {e : ε} (h : Ends act s Q E) (h' : act s = .error e s') : E e s' := by
  simpa [Ends, h'] using h

theorem of_ok {a : α} (h : act s = .ok a s') (hq : Q a s') : Ends act s Q E := by
  simpa [Ends, h] using hq

theorem of_error {e : ε} (h : act s = .error e s') (he : E e s') : Ends act s Q E := by
  simpa [Ends, h] using he

/-- Only this one run matters. -/
theorem congr (h : act s = act' s) : Ends act s Q E ↔ Ends act' s Q E := by
  rw [Ends, Ends, h]

/-- What is said of the end is said of the end of this run. -/
theorem run (h : Ends act s Q E) : Ends act s (fun a s' => act s = .ok a s' ∧ Q a s')
    (fun e s' => act s = .error e s' ∧ E e s') := by
  cases hact : act s with
  | ok a s' => exact .of_ok hact ⟨rfl, h.ok hact⟩
  | error e s' => exact .of_error hact ⟨rfl, h.error hact⟩

/-- Weaker statements about the end hold as well. -/
theorem imp (h : Ends act s Q E) (hq : ∀ a s', Q a s' → Q' a s') (he : ∀ e s', E e s' → E' e s') :
    Ends act s Q' E' := by
  unfold Ends at h ⊢
  split
  · next heq => rw [heq] at h; exact hq _ _ h
  · next heq => rw [heq] at h; exact he _ _ h

end Ends

section
variable {act : EStateM ε σ α} {next : α → EStateM ε σ β} {s s' : σ}

/-- A sequence goes on behind a first step that ended well. -/
theorem bind_of_ok {a : α} (h : act s = .ok a s') : (act >>= next) s = next a s' := by
  simp only [bind, EStateM.bind, h]

theorem bind_of_error {e : ε} (h : act s = .error e s') : (act >>= next) s = .error e s' := by
  simp only [bind, EStateM.bind, h]

/-- A sequence goes on in the same way behind first steps that end alike. -/
theorem bind_of_eq {act' : EStateM ε σ α} (h : act s = act' s') :
    (act >>= next) s = (act' >>= next) s' := by
  simp only [bind, EStateM.bind, h]

/-- A sequence that ends well is made of steps that do. -/
theorem ok_of_bind {b : β} {s₂ : σ} (h : (act >>= next) s = .ok b s₂) :
    ∃ a s₁, act s = .ok a s₁ ∧ next a s₁ = .ok b s₂ := by
  cases hact : act s with
  | ok a s₁ => exact ⟨a, s₁, rfl, (bind_of_ok hact).symm.trans h⟩
  | error e s₁ => cases (bind_of_error hact).symm.trans h

end

@[simp] theorem ends_pure (a : α) (s : σ) (Q : α → σ → Prop) (E : ε → σ → Prop) :
    Ends (pure a) s Q E ↔ Q a s := Iff.rfl

/-- The first step of a sequence ends in a state from which the others end well. -/
@[simp] theorem ends_bind (act : EStateM ε σ α) (next : α → EStateM ε σ β) (s : σ)
    (Q : β → σ → Prop) (E : ε → σ → Prop) :
    Ends (act >>= next) s Q E ↔ Ends act s (fun a s' => Ends (next a) s' Q E) E := by
  simp only [Ends, bind, EStateM.bind]
  cases act s <;> rfl

@[simp] theorem ends_map (f : α → β) (act : EStateM ε σ α) (s : σ) (Q : β → σ → Prop)
    (E : ε → σ → Prop) :
    Ends (f <$> act) s Q E ↔ Ends act s (fun a s' => Q (f a) s') E := by
  simp only [Ends, Functor.map, EStateM.map]
  cases act s <;> rfl

/-- What a failure becomes where an exhausted stack is an error at a token. -/
def Failure.guarded (token : Token) : Failure → Failure
  | .abort .stackExhausted => .error ⟨token, .stackOverflow⟩
  | e => e

namespace Run

variable {token : Token} {act : Run α} {m m₁ : Machine}

theorem guardStack_of_ok {a : α} (h : act m = .ok a m₁) : guardStack token act m = .ok a m₁ := by
  rw [guardStack, h]

theorem guardStack_of_error {e : Failure} (h : act m = .error e m₁) :
    guardStack token act m = .error (e.guarded token) m₁ := by
  rw [guardStack, h]
  cases e with
  | error e => rfl
  | abort a => cases a <;> rfl

end Run

end Lox
