import Lox.Proofs.Scoping.Mirroring

/-!
# Declarations on both sides

A declaration begins with a cell and ends with a value. In between the name is pending: the machine
does not have it yet, and static scoping has it in a cell that is empty. The parameters of a
function are declared one after the other as it is called.
-/
namespace Lox.Scoping

open Binding (Names Table hops? readable marked declaring declaredIn declaredIn_marked
  declaredIn_marked_of_declaredIn withParameters FunctionBound)
open Lexical (Cell Env State Action)

variable {t : Table}

/-- The declaration of a name in a scope has begun. -/
structure Begun (t : Table) (w : World) (m : Machine) (sc : Nat) (name : String)
    (Γ : List Names) (w₁ : World) (env₁ : Env) (s₁ : State) : Prop where
  agrees : Agrees t w₁ m s₁
  later : w.Later w₁
  pending : w₁.pending = (sc, name) :: w.pending
  store : w₁.store = w.store
  frame : ∀ id other, id ≠ sc → w₁.links id other = w.links id other
  linked : Linked w₁ (marked name false Γ) env₁ sc
  frontier : Frontier w₁ sc (marked name false Γ)

theorem declare_begun {w : World} {m : Machine} {s : State} {sc : Nat} {name : String}
    {Γ : List Names} {env : Env} (h : Agrees t w m s) (hlink : Linked w Γ env sc)
    (hp : Placed Γ env) (hf : Frontier w sc Γ) (hnew : declaredIn name Γ = false) :
    ∃ w₁ env₁ s₁, Lexical.declare env name s = .ok env₁ s₁ ∧ env₁.inside = env.inside ∧
      Begun t w m sc name Γ w₁ env₁ s₁ := by
  have hl₀ : w.Later { w with pending := (sc, name) :: w.pending } := World.later_pending
  cases Γ with
  | nil =>
    have hinside : env.inside = false := hp
    refine ⟨_, env, s, by simp [Lexical.declare, hinside], rfl, h.pend hl₀, hl₀, rfl, rfl,
      fun _ _ _ => rfl, hlink.mono hl₀, hf⟩
  | cons names outer =>
    have hinside : env.inside = true := hp
    have hnone : w.links sc name = none := by
      cases hc : w.links sc name with
      | none => rfl
      | some cell => rw [hf name cell hc] at hnew; cases hnew
    have hne : sc ≠ Store.global := fun hg => absurd (hlink.global.2 hg) (by simp)
    have hl₁ := hl₀.trans (World.later_add s.memory.size hnone)
    refine ⟨_, env.extend name s.memory.size, _, by simp only [Lexical.declare, hinside, if_true],
      rfl, (h.pend hl₀).allocate hlink.live hne hnone, hl₁, rfl, rfl, fun id other hid => ?_,
      (hlink.mono hl₁).extend (by simp) (by simp [Links.add]) (.inr ⟨by simp, rfl⟩),
      fun other cell hc => ?_⟩
    · simp [Links.add, Ne.symm hid]
    · rw [declaredIn_marked]
      by_cases heq : other = name
      · simp [heq]
      · have hold : w.links sc other = some cell := by
          simpa [Links.add, Ne.symm heq] using hc
        rw [hf other cell hold, Bool.or_true]

/-- The declaration ends with a value, after an evaluation that left its scope alone. -/
theorem Begun.settle {w w₁ w₂ : World} {m m₂ : Machine} {s₁ s₂ : State} {sc : Nat}
    {name : String} {Γ : List Names} {env₁ : Env} {v v' : Value}
    (hb : Begun t w m sc name Γ w₁ env₁ s₁) (hc : Continues t none w₁ m w₂ m₂ s₂)
    (hv : Alike t { w₂ with store := w₂.store.define sc name v } v v') :
    ∃ w₃, Continues t (some sc) w m w₃ { m₂ with store := m₂.store.define sc name v }
        (s₂.put env₁ name v') ∧
      Linked w₃ (declaring name Γ) env₁ sc ∧ Frontier w₃ sc (declaring name Γ) := by
  have hlink₂ := hb.linked.mono hc.later
  let wv : World := { w₂ with store := w₂.store.define sc name v }
  have hlv : w₂.Later wv := World.later_define sc name v
  have hpresent : (wv.store.valueIn? sc name).isSome := by
    rw [Store.valueIn?_define_self _ hlink₂.live]
    rfl
  have hpending : wv.pending = (sc, name) :: w.pending := hc.pending.trans hb.pending
  have hl₃ : wv.Later { wv with pending := w.pending } := World.later_settled hpending hpresent
  have hlive₁ : sc < w₁.store.size := hb.linked.live
  refine ⟨{ wv with pending := w.pending }, ⟨(hc.agrees.put hlink₂ hv).pend hl₃,
    ((hb.later.trans hc.later).trans hlv).trans hl₃, rfl, hc.scope, fun id other hid hown => ?_⟩,
    ((hlink₂.mono hlv).settle hpresent).mono hl₃, fun other cell hcell => ?_⟩
  · have hne : id ≠ sc := fun h => hown (h ▸ rfl)
    have hframe := hc.frame id other (by rwa [hb.store]) (by simp)
    exact hframe.trans (hb.frame id other hne)
  · have hold : w₁.links sc other = some cell :=
      (hc.frame sc other hlive₁ (by simp)).symm.trans hcell
    exact declaredIn_marked_of_declaredIn (hb.frontier other cell hold)

/-- The store after names were defined in a scope one after the other. -/
def defineAll (sc : ScopeId) (store : Store Value) (pairs : List (Token × Value)) : Store Value :=
  pairs.foldl (fun store pair => store.define sc pair.1.lexeme pair.2) store

/-- Every parameter gets its argument, in the scope of the machine and in a new cell. -/
theorem bindParameters_mirrored {sc : Nat} {Γ : List Names} (parameters : List Token)
    {arguments arguments' : List Value} {names : Names} {w : World} {m : Machine} {s : State}
    {env : Env} (h : Agrees t w m s) (hlink : Linked w (names :: Γ) env sc)
    (hp : Placed (names :: Γ) env) (hf : Frontier w sc (names :: Γ))
    (ha : List.Forall₂ (Alike t w) arguments arguments')
    (hlen : arguments.length = parameters.length)
    (hnodup : (parameters.map (·.lexeme)).Nodup)
    (hnew : ∀ p ∈ parameters, (names.lookup p.lexeme).isSome = false) :
    ∃ w' env' s', Lexical.bindParameters env (parameters.zip arguments') s = .ok env' s' ∧
      Continues t (some sc) w m w'
        { m with store := defineAll sc m.store (parameters.zip arguments) } s' ∧
      Linked w' (withParameters parameters names :: Γ) env' sc ∧
      Placed (withParameters parameters names :: Γ) env' ∧
      Frontier w' sc (withParameters parameters names :: Γ) := by
  induction parameters generalizing arguments arguments' names w m s env with
  | nil => exact ⟨w, env, s, by simp [Lexical.bindParameters]; rfl, .refl h, hlink, hp, hf⟩
  | cons p rest ih =>
    cases ha with
    | nil => simp at hlen
    | @cons v v' vs vs' hv hvs =>
      obtain ⟨hfirst, hrest⟩ := List.nodup_cons.1 hnodup
      obtain ⟨w₁, env₁, s₁, hdeclare, hinside, hb⟩ :=
        declare_begun h hlink hp hf (hnew p (by simp))
      have hl₁ : w₁.Later { w₁ with store := w₁.store.define sc p.lexeme v } :=
        World.later_define sc p.lexeme v
      obtain ⟨w₂, hc₂, hlink₂, hf₂⟩ :=
        hb.settle (.refl hb.agrees) (hv.mono (hb.later.trans hl₁))
      have hvs₂ : List.Forall₂ (Alike t w₂) vs vs' := hvs.imp fun _ _ h => h.mono hc₂.later
      have hnew₂ : ∀ q ∈ rest, (((p.lexeme, true) :: (p.lexeme, false) :: names).lookup
          q.lexeme).isSome = false := by
        intro q hq
        have hne : q.lexeme ≠ p.lexeme := fun heq => hfirst (List.mem_map.2 ⟨q, hq, heq⟩)
        simpa [List.lookup_cons, beq_false_of_ne hne] using hnew q (by simp [hq])
      have hp₂ : Placed (declaring p.lexeme (names :: Γ)) env₁ := hinside.trans hp
      obtain ⟨w₃, env₃, s₃, hrun, hc₃, hlink₃, hp₃, hf₃⟩ :=
        ih hc₂.agrees hlink₂ hp₂ hf₂ hvs₂ (by simpa using hlen) hrest hnew₂
      refine ⟨w₃, env₃, s₃, ?_, hc₂.trans hc₃, hlink₃, hp₃, hf₃⟩
      rw [List.zip_cons_cons, Lexical.bindParameters]
      simp only [Bind.bind, EStateM.bind, hdeclare, Lexical.fill]
      exact hrun

section
variable {w : World} {m : Machine} {s : State} {Γ : List Names} {env : Env}

/-- A new scope has no cells yet. -/
theorem frontier_enter (h : Agrees t w m s) (sc : Nat) :
    Frontier { w with store := w.store.fork sc } w.store.size ([] :: Γ) :=
  fun name cell hc => absurd (h.fresh _ name cell hc) (Nat.lt_irrefl _)

/-- The scope of a call is linked to the place where the body of the function begins. -/
theorem openFrame_mirrored {sc : Nat} {parameters : List Token} {vs vs' : List Value}
    (h : Agrees t w m s) (hlink : Linked w Γ env sc) (hvs : List.Forall₂ (Alike t w) vs vs')
    (hlen : vs.length = parameters.length) (hnodup : (parameters.map (·.lexeme)).Nodup) :
    ∃ w' env' s', Lexical.bindParameters env.enter (parameters.zip vs') s = .ok env' s' ∧
      Run.openFrame sc parameters vs m = .ok w.store.size
        { m with store := defineAll w.store.size (m.store.fork sc) (parameters.zip vs) } ∧
      Continues t (some w.store.size) { w with store := w.store.fork sc }
        { m with store := m.store.fork sc } w'
        { m with store := defineAll w.store.size (m.store.fork sc) (parameters.zip vs) } s' ∧
      Linked w' (withParameters parameters [] :: Γ) env' w.store.size ∧
      Placed (withParameters parameters [] :: Γ) env' ∧
      Frontier w' w.store.size (withParameters parameters [] :: Γ) := by
  have hl : w.Later { w with store := w.store.fork sc } := World.later_fork sc
  have hvs' : List.Forall₂ (Alike t { w with store := w.store.fork sc }) vs vs' :=
    hvs.imp fun _ _ h => h.mono hl
  obtain ⟨w', env', s', hbind, hc, hlink', hp', hf'⟩ :=
    bindParameters_mirrored parameters (h.fork sc) hlink.enter rfl (frontier_enter h sc) hvs' hlen
      hnodup (by simp)
  refine ⟨w', env', s', hbind, ?_, hc, hlink', hp', hf'⟩
  rw [← h.store]
  rfl

end

end Lox.Scoping
