import Lox.Proofs.Evaluation.Keeping
import Lox.Proofs.Evaluation.RenamedStores

/-!
# Running renamed code

Code and renamed code run side by side, on machines that are alike: each step of the one has a
counterpart in the other, with results and failures that are alike, and the machines are alike again
afterwards. `Shadows` says so of two actions; the rules below put such statements together along the
steps of an action, and all trees are handled at once, by induction on the room that is left.
-/
namespace Lox

open Binding (Table)

variable {α β γ δ : Type}

theorem Failure.Renames.guarded {ρ : Renaming} {e e' : Failure} (h : e.Renames ρ e')
    (token : Token) : (e.guarded token).Renames ρ (e'.guarded token) := by
  cases h with
  | refl e => exact .refl _
  | undefined chosen name => exact .undefined chosen name

/-- From every layout on that begins with this one, `act'` ends like `act`, with a result that is
related to the result of `act`, or with a failure. -/
def Shadows (ρ : Renaming) (t : Table) (marks : List Bool) (l₀ : Layout) (act : Run α)
    (act' : Run β) (R : Layout → α → β → Prop) : Prop :=
  ∀ l, l₀ <+: l → ∀ m m', m.Renames ρ t l marks m' → Ends act m
    (fun a m₁ => ∃ l₁ a' m₁', l <+: l₁ ∧ act' m' = .ok a' m₁' ∧ R l₁ a a' ∧
      m₁.Renames ρ t l₁ marks m₁')
    (fun e m₁ => ∃ l₁ e' m₁', l <+: l₁ ∧ act' m' = .error e' m₁' ∧ e.Renames ρ e' ∧
      m₁.Renames ρ t l₁ marks m₁')

section
variable {ρ : Renaming} {t : Table} {marks : List Bool} {l l₀ l' : Layout}

namespace Shadows

variable {act : Run α} {act' : Run β} {R : Layout → α → β → Prop} {next : α → Run γ}
  {next' : β → Run δ} {S : Layout → γ → δ → Prop}

theorem result {a : α} {b : β} (h : ∀ l, l₀ <+: l → R l a b) :
    Shadows ρ t marks l₀ (pure a) (pure b) R :=
  fun l hl _ m' hm => ⟨l, b, m', List.prefix_refl l, rfl, h l hl, hm⟩

theorem error {e e' : Failure} (h : e.Renames ρ e') :
    Shadows ρ t marks l₀ (fun m => .error e m) (fun m => .error e' m) R :=
  fun l _ _ m' hm => ⟨l, e', m', List.prefix_refl l, rfl, h, hm⟩

theorem abort (a : Abort) : Shadows ρ t marks l₀ (Run.abort a) (Run.abort a) R :=
  error (.refl _)

theorem fail (token : Token) (fault : RuntimeFault) :
    Shadows ρ t marks l₀ (Run.fail token fault) (Run.fail token fault) R :=
  error (.refl _)

theorem bind (h : Shadows ρ t marks l₀ act act' R)
    (hn : ∀ l a b, l₀ <+: l → R l a b → Shadows ρ t marks l (next a) (next' b) S) :
    Shadows ρ t marks l₀ (act >>= next) (act' >>= next') S := by
  intro l hl m m' hm
  rw [ends_bind]
  refine (h l hl m m' hm).imp (fun a m₁ h₁ => ?_) fun e m₁ h₁ => ?_
  · obtain ⟨l₁, b, m₁', hl₁, hact', hr, hm₁⟩ := h₁
    refine (hn l₁ a b (hl.trans hl₁) hr l₁ (List.prefix_refl l₁) m₁ m₁' hm₁).imp
      (fun c m₂ h₂ => ?_) fun e m₂ h₂ => ?_
    · obtain ⟨l₂, d, m₂', hl₂, hnext', hs, hm₂⟩ := h₂
      exact ⟨l₂, d, m₂', hl₁.trans hl₂, (bind_of_ok hact').trans hnext', hs, hm₂⟩
    · obtain ⟨l₂, e', m₂', hl₂, hnext', he, hm₂⟩ := h₂
      exact ⟨l₂, e', m₂', hl₁.trans hl₂, (bind_of_ok hact').trans hnext', he, hm₂⟩
  · obtain ⟨l₁, e', m₁', hl₁, hact', he, hm₁⟩ := h₁
    exact ⟨l₁, e', m₁', hl₁, bind_of_error hact', he, hm₁⟩

theorem guardStack (token : Token) (h : Shadows ρ t marks l₀ act act' R) :
    Shadows ρ t marks l₀ (Run.guardStack token act) (Run.guardStack token act') R := by
  intro l hl m m' hm
  cases hact : act m with
  | ok a m₁ =>
    obtain ⟨l₁, b, m₁', hl₁, hact', hr, hm₁⟩ := (h l hl m m' hm).ok hact
    exact .of_ok (Run.guardStack_of_ok hact) ⟨l₁, b, m₁', hl₁, Run.guardStack_of_ok hact', hr, hm₁⟩
  | error e m₁ =>
    obtain ⟨l₁, e', m₁', hl₁, hact', he, hm₁⟩ := (h l hl m m' hm).error hact
    exact .of_error (Run.guardStack_of_error hact)
      ⟨l₁, _, m₁', hl₁, Run.guardStack_of_error hact', he.guarded token, hm₁⟩

theorem within {marks' : List Bool} {scope : ScopeId} (hchain : l₀.Chain scope marks')
    (h : Shadows ρ t marks' l₀ act act' R) :
    Shadows ρ t marks l₀ (Run.within scope act) (Run.within scope act') R := by
  intro l hl m m' hm
  have hin : ({ m with scope := scope } : Machine).Renames ρ t l marks'
      { m' with scope := scope } := by
    refine ⟨hm.rooted, hm.store, hchain.later hl, hm.table, ?_⟩
    rw [hm.rest]
  have hback {l₁ : Layout} (hl₁ : l <+: l₁) {m₁ m₁' : Machine}
      (h₁ : m₁.Renames ρ t l₁ marks' m₁') :
      ({ m₁ with scope := m.scope } : Machine).Renames ρ t l₁ marks
        { m₁' with scope := m'.scope } := by
    refine ⟨h₁.rooted, h₁.store, hm.chain.later hl₁, h₁.table, ?_⟩
    rw [h₁.rest, hm.rest]
  cases hact : act { m with scope := scope } with
  | ok a m₁ =>
    obtain ⟨l₁, b, m₁', hl₁, hact', hr, hm₁⟩ := (h l hl _ _ hin).ok hact
    have hrun : Run.within scope act m = .ok a { m₁ with scope := m.scope } := by
      simp only [Run.within, hact]
    exact .of_ok hrun ⟨l₁, b, _, hl₁, by simp only [Run.within, hact'], hr, hback hl₁ hm₁⟩
  | error e m₁ =>
    obtain ⟨l₁, e', m₁', hl₁, hact', he, hm₁⟩ := (h l hl _ _ hin).error hact
    have hrun : Run.within scope act m = .error e { m₁ with scope := m.scope } := by
      simp only [Run.within, hact]
    exact .of_error hrun ⟨l₁, e', _, hl₁, by simp only [Run.within, hact'], he, hback hl₁ hm₁⟩

end Shadows

theorem isSome_eq_of_rel {r : α → β → Prop} {a : Option α} {b : Option β}
    (h : Option.Rel r a b) : b.isSome = a.isSome := by
  cases h <;> rfl

theorem rel_cases {r : α → β → Prop} {a : Option α} {b : Option β} (h : Option.Rel r a b) :
    (a = none ∧ b = none) ∨ ∃ x y, a = some x ∧ b = some y ∧ r x y := by
  cases h with
  | none => exact .inl ⟨rfl, rfl⟩
  | some h => exact .inr ⟨_, _, rfl, rfl, h⟩

theorem rel_getElem? {r : α → β → Prop} {as : List α} {bs : List β} (h : List.Forall₂ r as bs)
    (i : Nat) : Option.Rel r as[i]? bs[i]? := by
  induction h generalizing i with
  | nil => exact .none
  | cons hab _ ih =>
    cases i with
    | zero => exact .some hab
    | succ i => exact ih i

namespace Machine.Renames

variable {m m' : Machine}

theorem scope_eq (h : m.Renames ρ t l marks m') : m'.scope = m.scope := by rw [h.rest]

theorem table' (h : m.Renames ρ t l marks m') : m'.table = t := by
  rw [h.rest]
  exact h.table

/-- Other stores on both sides. -/
theorem withStore (h : m.Renames ρ t l marks m') {s s' : Store Value} (hl : l <+: l')
    (hs : s.Renames ρ t l' s') :
    ({ m with store := s } : Machine).Renames ρ t l' marks { m' with store := s' } := by
  refine ⟨h.rooted.later hl, hs, h.chain.later hl, h.table, ?_⟩
  rw [h.rest]

/-- A use is led to the same scope, which is chosen just if the name of the use is renamed. -/
theorem holder (h : m.Renames ρ t l marks m') {site : Site} {name : Token} {chosen : Bool}
    (hchosen : leadsToChosen t marks site = chosen) (hname : ρ.Fits chosen name) :
    Run.holder m' site (ρ.token chosen name) = Run.holder m site name ∧
      ∀ id, Run.holder m site name = .ok id → ∃ parent, l[id]? = some (parent, chosen) := by
  rw [Run.holder, Run.holder, h.table, h.table', h.scope_eq]
  unfold leadsToChosen at hchosen
  cases hsite : t.lookup site with
  | none =>
    rw [hsite, Option.elim_none] at hchosen
    subst hchosen
    have hvalue := isSome_eq_of_rel (h.store.valueIn? h.rooted hname)
    constructor
    · simp only [Store.holder, Store.owner?_global, Renaming.token, hvalue]
    · intro id hid
      simp only [Store.holder, Store.owner?_global] at hid
      split at hid
      · next heq =>
        split at heq
        · cases heq; cases hid; exact ⟨none, h.rooted⟩
        · cases heq
      · cases hid
  | some hops =>
    rw [hsite, Option.elim_some] at hchosen
    simp only [Store.holderAt, h.store.ancestor?_eq]
    cases hholder : m.store.ancestor? hops m.scope with
    | none => exact ⟨rfl, fun id hid => by cases hid⟩
    | some holder =>
      obtain ⟨parent, hlayout⟩ := h.store.chosen_of_ancestor? h.rooted h.chain hholder
      rw [hchosen] at hlayout
      have hvalue := isSome_eq_of_rel (h.store.valueIn? hlayout hname)
      constructor
      · simp only [Renaming.token, hvalue]
      · intro id hid
        dsimp only at hid
        split at hid
        · cases hid; exact ⟨parent, hlayout⟩
        · cases hid

end Machine.Renames

theorem renames_accessFailure (chosen : Bool) (name : Token) (fault : AccessFault) :
    (Run.accessFailure name fault).Renames ρ (Run.accessFailure (ρ.token chosen name) fault) := by
  cases fault with
  | undefined => exact .undefined chosen name
  | pastGlobal => exact .refl _

theorem shadows_lookUp (site : Site) (name : Token)
    (hname : ρ.Fits (leadsToChosen t marks site) name) :
    Shadows ρ t marks l₀ (Run.lookUp site name)
      (Run.lookUp site (ρ.token (leadsToChosen t marks site) name)) (Value.Renames ρ t) := by
  intro l hl m m' hm
  obtain ⟨hholder, hlayout⟩ := hm.holder rfl hname
  unfold Ends Run.lookUp
  rw [hholder]
  cases hid : Run.holder m site name with
  | error fault =>
    exact ⟨l, _, m', List.prefix_refl l, rfl, renames_accessFailure _ name fault, hm⟩
  | ok id =>
    obtain ⟨parent, hparent⟩ := hlayout id hid
    simp only [Bind.bind, Except.bind, Store.getIn]
    rcases rel_cases (hm.store.valueIn? hparent hname) with ⟨hnone, hnone'⟩ | ⟨v, v', hv, hv', hr⟩
    · simp only [Renaming.token, hnone, hnone']
      exact ⟨l, _, m', List.prefix_refl l, rfl, renames_accessFailure _ name .undefined, hm⟩
    · simp only [Renaming.token, hv, hv']
      exact ⟨l, _, m', List.prefix_refl l, rfl, hr, hm⟩

theorem shadows_assign (site : Site) (name : Token) {v v' : Value}
    (hname : ρ.Fits (leadsToChosen t marks site) name) (hv : v.Renames ρ t l₀ v') :
    Shadows ρ t marks l₀ (Run.assign site name v)
      (Run.assign site (ρ.token (leadsToChosen t marks site) name) v') fun _ _ _ => True := by
  intro l hl m m' hm
  obtain ⟨hholder, hlayout⟩ := hm.holder rfl hname
  unfold Ends Run.assign
  rw [hholder]
  cases hid : Run.holder m site name with
  | error fault =>
    exact ⟨l, _, m', List.prefix_refl l, rfl, renames_accessFailure _ name fault, hm⟩
  | ok id =>
    obtain ⟨parent, hparent⟩ := hlayout id hid
    have hstore := hm.store.define hparent hname (hv.later hl)
    exact ⟨l, (), _, List.prefix_refl l, rfl, trivial, hm.withStore (List.prefix_refl l) hstore⟩

theorem shadows_define (name : Token) {v v' : Value} (hname : ρ.Fits (marks.headD false) name)
    (hv : v.Renames ρ t l₀ v') :
    Shadows ρ t marks l₀ (Run.define name.lexeme v)
      (Run.define (ρ.token (marks.headD false) name).lexeme v') fun _ _ _ => True := by
  intro l hl m m' hm
  obtain ⟨parent, hparent⟩ := hm.chain.head hm.rooted
  have hstore := hm.store.define hparent hname (hv.later hl)
  have hrun : Run.define (ρ.token (marks.headD false) name).lexeme v' m' = .ok () { m' with
      store := m'.store.define m.scope (ρ.name (marks.headD false) name.lexeme) v' } := by
    rw [Run.define, hm.scope_eq]
    rfl
  exact ⟨l, (), _, List.prefix_refl l, hrun, trivial, hm.withStore (List.prefix_refl l) hstore⟩

theorem shadows_print (text : String) :
    Shadows ρ t marks l₀ (Run.print text) (Run.print text) fun _ _ _ => True := by
  intro l _ m m' hm
  refine ⟨l, (), _, List.prefix_refl l, rfl, trivial, hm.rooted, hm.store, hm.chain, hm.table, ?_⟩
  rw [hm.rest]

theorem shadows_close (name : Option String) {names : List Token} {body body' : List Statement}
    {chosen : Bool} (hn : ∀ p ∈ names, ρ.Fits chosen p)
    (hb : Statement.RenamesAll ρ t (chosen :: marks) body body') :
    Shadows ρ t marks l₀ (Run.close name names body)
      (Run.close name (names.map (ρ.token chosen)) body') (Value.Renames ρ t) := by
  intro l _ m m' hm
  have hidentity : m'.nextIdentity = m.nextIdentity := by rw [hm.rest]
  let c : Closure := ⟨m.nextIdentity, name, names, body, m.scope⟩
  have hclosure : (Value.function (.closure c)).Renames ρ t l _ :=
    .function (.closure (c := c) hm.chain hn hb)
  refine ⟨l, _, _, List.prefix_refl l, rfl, ?_, hm.rooted, hm.store, hm.chain, hm.table, ?_⟩
  · rw [hidentity, hm.scope_eq]
    exact hclosure
  · rw [hm.rest]

/-- The scope that is opened is chosen or not, as one likes. -/
theorem shadows_fork (chosen : Bool) :
    Shadows ρ t marks l₀ (do Run.fork (← Run.here)) (do Run.fork (← Run.here))
      fun l id id' => id' = id ∧ l.Chain id (chosen :: marks) := by
  intro l _ m m' hm
  have hl := List.prefix_append l [(some m.scope, chosen)]
  have hsize : m'.store.size = m.store.size := hm.store.size'.trans hm.store.size.symm
  have hchain : Layout.Chain (l ++ [(some m.scope, chosen)]) m.store.size (chosen :: marks) := by
    refine .inner ?_ (hm.chain.later hl)
    rw [hm.store.size, List.getElem?_concat_length]
  have hrun : (do Run.fork (← Run.here)) m' =
      .ok m'.store.size { m' with store := m'.store.fork m.scope } := by
    rw [← hm.scope_eq]
    rfl
  exact ⟨_, m'.store.size, _, hl, hrun, ⟨hsize, hchain⟩,
    hm.withStore hl (hm.store.fork m.scope chosen)⟩

/-- Parameters get their values in the scope of a call. -/
theorem Store.Renames.defineAll {s s' : Store Value} {id : ScopeId} {parent : Option ScopeId}
    {chosen : Bool} {names : List Token} {vs vs' : List Value} (h : s.Renames ρ t l s')
    (hid : l[id]? = some (parent, chosen)) (hn : ∀ p ∈ names, ρ.Fits chosen p)
    (hvs : List.Forall₂ (Value.Renames ρ t l) vs vs') :
    ((names.zip vs).foldl (fun s pair => s.define id pair.1.lexeme pair.2) s).Renames ρ t l
      (((names.map (ρ.token chosen)).zip vs').foldl
        (fun s pair => s.define id pair.1.lexeme pair.2) s') := by
  induction names generalizing s s' vs vs' with
  | nil => exact h
  | cons name names ih =>
    obtain ⟨hname, hnames⟩ := List.forall_mem_cons.1 hn
    cases hvs with
    | nil => exact h
    | cons hv hvs => exact ih (h.define hid hname hv) hnames hvs

theorem shadows_openFrame {parent : ScopeId} {marks' : List Bool} {chosen : Bool}
    {names : List Token} {vs vs' : List Value} (hparent : l₀.Chain parent marks')
    (hn : ∀ p ∈ names, ρ.Fits chosen p) (hvs : List.Forall₂ (Value.Renames ρ t l₀) vs vs') :
    Shadows ρ t marks l₀ (Run.openFrame parent names vs)
      (Run.openFrame parent (names.map (ρ.token chosen)) vs')
      fun l id id' => id' = id ∧ l.Chain id (chosen :: marks') := by
  intro l hl₀ m m' hm
  have hl := List.prefix_append l [(some parent, chosen)]
  have hsize : m'.store.size = m.store.size := hm.store.size'.trans hm.store.size.symm
  have hlast : (l ++ [(some parent, chosen)])[m.store.size]? = some (some parent, chosen) := by
    rw [hm.store.size, List.getElem?_concat_length]
  have hchain : Layout.Chain (l ++ [(some parent, chosen)]) m.store.size (chosen :: marks') :=
    .inner hlast (hparent.later (hl₀.trans hl))
  have hvalues := hvs.imp fun _ _ hv => hv.later (hl₀.trans hl)
  refine ⟨_, m'.store.size, _, hl, rfl, ⟨hsize, hchain⟩, ?_⟩
  rw [hsize]
  exact hm.withStore hl ((hm.store.fork parent chosen).defineAll hlast hn hvalues)

theorem shadows_callHost (h : HostFunction) {vs vs' : List Value}
    (hvs : List.Forall₂ (Value.Renames ρ t l₀) vs vs') :
    Shadows ρ t marks l₀ (Run.callHost h vs) (Run.callHost h vs') (Value.Renames ρ t) := by
  intro l hl m m' hm
  obtain ⟨identity, name, arity, action⟩ := h
  match action with
  | .clock =>
    refine ⟨l, _, _, List.prefix_refl l, rfl, ?_, hm.rooted, hm.store, hm.chain, hm.table, ?_⟩
    · rw [hm.rest]
      exact .number _
    · rw [hm.rest]
  | .give none => exact ⟨l, .nil, m', List.prefix_refl l, rfl, .nil, hm⟩
  | .give (some i) =>
    rcases rel_cases (rel_getElem? hvs i) with ⟨hnone, hnone'⟩ | ⟨v, v', hv, hv', hr⟩
    · exact .of_error (e := .abort .missingArgument) (by simp only [Run.callHost, hnone])
        ⟨l, _, m', List.prefix_refl l, by simp only [Run.callHost, hnone'], .refl _, hm⟩
    · exact .of_ok (by simp only [Run.callHost, hv])
        ⟨l, _, m', List.prefix_refl l, by simp only [Run.callHost, hv'], hr.later hl, hm⟩

section
variable {v v' w w' : Value}

/-- What is no function of a program may stay as it is. -/
theorem Value.renames_of_plain (h : ∀ c, v ≠ .function (.closure c)) : v.Renames ρ t l v := by
  cases v with
  | nil => exact .nil
  | bool b => exact .bool b
  | number x => exact .number x
  | string s => exact .string s
  | function f =>
    cases f with
    | host host => exact .function (.host host)
    | closure c => exact absurd rfl (h c)

theorem unaryResult_renames (operator : Token) (hv : v.Renames ρ t l v') :
    Eval.unaryResult operator v' = Eval.unaryResult operator v := by
  unfold Eval.unaryResult
  rw [hv.truthy_eq]
  cases hv <;> rfl

theorem binaryResult_renames (operator : Token) (hv : v.Renames ρ t l v')
    (hw : w.Renames ρ t l w') :
    Eval.binaryResult operator v' w' = Eval.binaryResult operator v w := by
  unfold Eval.binaryResult
  rw [hv.equal_eq hw, hv.typeName_eq, hw.typeName_eq]
  cases hv <;> cases hw <;> rfl

end

theorem shadows_resultAt (operator : Token) (r : Except RuntimeFault Value)
    (h : ∀ v, r = .ok v → ∀ c, v ≠ .function (.closure c)) :
    Shadows ρ t marks l₀ (Eval.resultAt operator r) (Eval.resultAt operator r)
      (Value.Renames ρ t) := by
  cases r with
  | ok v => exact .result fun _ _ => Value.renames_of_plain (h v rfl)
  | error fault => exact .fail operator fault

/-- How a statement ends: normally on both sides, or with values that are alike. -/
inductive Completion.Renames (ρ : Renaming) (t : Table) (l : Layout) :
    Completion → Completion → Prop where
  | normal : Completion.Renames ρ t l .normal .normal
  | returned {v v' : Value} (h : v.Renames ρ t l v') :
    Completion.Renames ρ t l (.returned v) (.returned v')

variable (ρ t) in
/-- With some room, the evaluation of renamed code shadows the evaluation of the code. -/
structure ShadowedBy (rounds room : Nat) : Prop where
  evaluate : ∀ {marks l e e'}, e.Renames ρ t marks e' → Shadows ρ t marks l
    (Eval.evaluate rounds room e) (Eval.evaluate rounds room e') (Value.Renames ρ t)
  invoke : ∀ {marks l f f' vs vs'}, f.Renames ρ t l f' →
    List.Forall₂ (Value.Renames ρ t l) vs vs' → Shadows ρ t marks l
      (Eval.invoke rounds room f vs) (Eval.invoke rounds room f' vs') (Value.Renames ρ t)
  execute : ∀ {marks l s s'}, s.Renames ρ t marks s' → Shadows ρ t marks l
    (Eval.execute rounds room s) (Eval.execute rounds room s') (Completion.Renames ρ t)

variable {rounds room : Nat}

namespace ShadowedBy

theorem evaluateAll (hk : ShadowedBy ρ t rounds room) {es es' : List Expr}
    (h : Expr.RenamesAll ρ t marks es es') :
    Shadows ρ t marks l₀ (Eval.evaluateAll (Eval.evaluate rounds room) es)
      (Eval.evaluateAll (Eval.evaluate rounds room) es')
      fun l => List.Forall₂ (Value.Renames ρ t l) := by
  induction es generalizing es' l₀ with
  | nil =>
    cases h
    exact .result fun _ _ => .nil
  | cons e es ih =>
    obtain _ | ⟨he, hes⟩ := h
    refine (hk.evaluate he).bind fun l v v' _ hv => (ih hes).bind fun l' vs vs' hl' hvs => ?_
    exact .result fun l'' hl'' => .cons (hv.later (hl'.trans hl''))
      (hvs.imp fun _ _ h => h.later hl'')

theorem executeAll (hk : ShadowedBy ρ t rounds room) {ss ss' : List Statement}
    (h : Statement.RenamesAll ρ t marks ss ss') :
    Shadows ρ t marks l₀ (Eval.executeAll (Eval.execute rounds room) ss)
      (Eval.executeAll (Eval.execute rounds room) ss') (Completion.Renames ρ t) := by
  induction ss generalizing ss' l₀ with
  | nil =>
    cases h
    exact .result fun _ _ => .normal
  | cons s ss ih =>
    obtain _ | ⟨hs, hss⟩ := h
    refine (hk.execute hs).bind fun l completion completion' _ hc => ?_
    cases hc with
    | normal => exact ih hss
    | returned hv => exact .result fun _ hl => .returned (hv.later hl)

theorem repeatWhile (hk : ShadowedBy ρ t rounds room) {condition condition' : Expr}
    {body body' : Statement} (hc : condition.Renames ρ t marks condition')
    (hb : body.Renames ρ t marks body') (n : Nat) :
    Shadows ρ t marks l₀
      (Eval.repeatWhile (Eval.evaluate rounds room condition) (Eval.execute rounds room body) n)
      (Eval.repeatWhile (Eval.evaluate rounds room condition') (Eval.execute rounds room body') n)
      (Completion.Renames ρ t) := by
  induction n generalizing l₀ with
  | zero => exact .abort _
  | succ n ih =>
    refine (hk.evaluate hc).bind fun l v v' _ hv => ?_
    rw [hv.truthy_eq]
    split
    · refine (hk.execute hb).bind fun l completion completion' _ hcompletion => ?_
      cases hcompletion with
      | normal => exact ih
      | returned hv => exact .result fun _ hl => .returned (hv.later hl)
    · exact .result fun _ _ => .normal

theorem block (hk : ∀ r < room, ShadowedBy ρ t rounds r) {scope : ScopeId} {marks' : List Bool}
    {ss ss' : List Statement} (hscope : l₀.Chain scope marks')
    (h : Statement.RenamesAll ρ t marks' ss ss') :
    Shadows ρ t marks l₀ (Eval.block rounds room scope ss) (Eval.block rounds room scope ss')
      (Completion.Renames ρ t) := by
  match room, hk with
  | 0, _ => exact .abort _
  | room + 1, hk => exact ((hk room (Nat.lt_succ_self _)).executeAll h).within hscope

theorem call (hk : ∀ r < room, ShadowedBy ρ t rounds r) {callee callee' : Expr} (paren : Token)
    {es es' : List Expr} (he : callee.Renames ρ t marks callee')
    (hes : Expr.RenamesAll ρ t marks es es') :
    Shadows ρ t marks l₀ (Eval.call rounds room callee paren es)
      (Eval.call rounds room callee' paren es') (Value.Renames ρ t) := by
  match room, hk with
  | 0, _ => exact .abort _
  | 1, _ => exact .abort _
  | room + 2, hk =>
    refine ((hk (room + 1) (by omega)).evaluate he).bind fun l v v' _ hv => ?_
    refine ((hk room (by omega)).evaluateAll hes).bind fun l' vs vs' hl' hvs => ?_
    cases hv with
    | function hf =>
      simp only [hf.arity_eq, ← hvs.length_eq]
      split
      · exact ((hk (room + 1) (by omega)).invoke (hf.later hl') hvs).guardStack paren
      · exact .fail paren _
    | _ => exact .fail paren _

theorem evaluate_of_below (hk : ∀ r < room, ShadowedBy ρ t rounds r) {e e' : Expr}
    (h : e.Renames ρ t marks e') :
    Shadows ρ t marks l₀ (Eval.evaluate rounds room e) (Eval.evaluate rounds room e')
      (Value.Renames ρ t) := by
  match room, hk with
  | 0, _ => exact .abort _
  | room + 1, hk =>
    have hk₁ := hk room (Nat.lt_succ_self _)
    cases h with
    | @literal _ value => exact .result fun _ _ => .literal value
    | grouping h => exact hk₁.evaluate h
    | @unary _ operator e e' h =>
      match room, hk with
      | 0, _ => exact .abort _
      | room + 1, hk =>
        refine (((hk room (by omega)).evaluate h).guardStack operator).bind fun l v v' _ hv => ?_
        rw [unaryResult_renames operator hv]
        exact shadows_resultAt operator _ fun _ => unaryResult_plain
    | @binary _ operator _ _ _ _ hl hr =>
      match room, hk with
      | 0, _ => exact .abort _
      | room + 1, hk =>
        have hk₀ := hk room (by omega)
        refine ((hk₀.evaluate hl).guardStack operator).bind fun l v v' _ hv => ?_
        refine ((hk₀.evaluate hr).guardStack operator).bind fun l' w w' hl' hw => ?_
        rw [binaryResult_renames operator (hv.later hl') hw]
        exact shadows_resultAt operator _ fun _ => binaryResult_plain
    | @logical _ operator _ _ _ _ hl hr =>
      match room, hk with
      | 0, _ => exact .abort _
      | room + 1, hk =>
        have hk₀ := hk room (by omega)
        refine (hk₀.evaluate hl).bind fun l v v' _ hv => ?_
        have hdecides : Eval.decides operator v' = Eval.decides operator v := by
          simp only [Eval.decides, hv.truthy_eq]
        rw [hdecides]
        split
        · exact .result fun _ hl => hv.later hl
        · exact hk₀.evaluate hr
    | ternary hc ha hb =>
      refine (hk₁.evaluate hc).bind fun l v v' _ hv => ?_
      rw [hv.truthy_eq]
      split
      · exact hk₁.evaluate ha
      · exact hk₁.evaluate hb
    | access hname => exact shadows_lookUp _ _ hname
    | assign hname he =>
      match room, hk with
      | 0, _ => exact .abort _
      | room + 1, hk =>
        refine ((hk room (by omega)).evaluate he).bind fun l v v' _ hv => ?_
        exact (shadows_assign _ _ hname hv).bind fun l' _ _ hl' _ =>
          .result fun _ hl'' => hv.later (hl'.trans hl'')
    | call he hes => exact call (fun r hr => hk r (by omega)) _ he hes
    | function hn hb => exact shadows_close none hn hb

theorem invoke_of_below (hk : ∀ r < room, ShadowedBy ρ t rounds r) {f f' : Function}
    {vs vs' : List Value} (hf : f.Renames ρ t l₀ f')
    (hvs : List.Forall₂ (Value.Renames ρ t l₀) vs vs') :
    Shadows ρ t marks l₀ (Eval.invoke rounds room f vs) (Eval.invoke rounds room f' vs')
      (Value.Renames ρ t) := by
  match room, hk with
  | 0, _ => exact .abort _
  | room + 1, hk =>
    cases hf with
    | host h => exact shadows_callHost h hvs
    | closure hscope hn hb =>
      refine (shadows_openFrame hscope hn hvs).bind fun l frame frame' _ hframe => ?_
      obtain ⟨rfl, hchain⟩ := hframe
      refine (block (fun r hr => hk r (by omega)) hchain hb).bind fun l _ _ _ hc => ?_
      cases hc with
      | normal => exact .result fun _ _ => .nil
      | returned hv => exact .result fun _ hl => hv.later hl

theorem execute_of_below (hk : ∀ r < room, ShadowedBy ρ t rounds r) {s s' : Statement}
    (h : s.Renames ρ t marks s') :
    Shadows ρ t marks l₀ (Eval.execute rounds room s) (Eval.execute rounds room s')
      (Completion.Renames ρ t) := by
  match room, hk with
  | 0, _ => exact .abort _
  | room + 1, hk =>
    have hk₁ := hk room (Nat.lt_succ_self _)
    cases h with
    | block chosen hss =>
      have heq (ss : List Statement) : Eval.execute rounds (room + 1) (.block ss) =
          (do Run.fork (← Run.here)) >>= fun inner => Eval.block rounds room inner ss := by
        simp only [Eval.execute, bind_assoc]
      rw [heq, heq]
      refine (shadows_fork chosen).bind fun l inner inner' _ hinner => ?_
      obtain ⟨rfl, hchain⟩ := hinner
      exact block (fun r hr => hk r (by omega)) hchain hss
    | expression h => exact (hk₁.evaluate h).bind fun _ _ _ _ _ => .result fun _ _ => .normal
    | @function _ _ name _ _ _ hfits hname hn hb =>
      refine (shadows_close (some name.lexeme) hn hb).bind fun l f f' _ hf => ?_
      have hdefine : Shadows ρ t marks l (Run.define name.lexeme f) _ fun _ _ _ => True :=
        shadows_define name hfits hf
      rw [hname] at hdefine
      exact hdefine.bind fun _ _ _ _ _ => .result fun _ _ => .normal
    | ifThen hc ha =>
      refine (hk₁.evaluate hc).bind fun l v v' _ hv => ?_
      rw [hv.truthy_eq]
      split
      · exact hk₁.execute ha
      · exact .result fun _ _ => .normal
    | ifElse hc ha hb =>
      refine (hk₁.evaluate hc).bind fun l v v' _ hv => ?_
      rw [hv.truthy_eq]
      split
      · exact hk₁.execute ha
      · exact hk₁.execute hb
    | print h =>
      refine (hk₁.evaluate h).bind fun l v v' _ hv => ?_
      rw [hv.display_eq]
      exact (shadows_print v.display).bind fun _ _ _ _ _ => .result fun _ _ => .normal
    | returnNone => exact .result fun _ _ => .returned .nil
    | returnSome h =>
      exact (hk₁.evaluate h).bind fun _ _ _ _ hv => .result fun _ hl => .returned (hv.later hl)
    | varNone hn =>
      exact (shadows_define _ hn .nil).bind fun _ _ _ _ _ => .result fun _ _ => .normal
    | varSome hn he =>
      refine (hk₁.evaluate he).bind fun l v v' _ hv => ?_
      exact (shadows_define _ hn hv).bind fun _ _ _ _ _ => .result fun _ _ => .normal
    | «while» hc hb => exact hk₁.repeatWhile hc hb rounds

end ShadowedBy

/-- Renamed code runs like the code itself. -/
theorem shadowedBy (rounds room : Nat) : ShadowedBy ρ t rounds room := by
  induction room using Nat.strongRecOn with
  | ind room ih =>
    exact {
      evaluate := fun h => ShadowedBy.evaluate_of_below ih h
      invoke := fun hf hvs => ShadowedBy.invoke_of_below ih hf hvs
      execute := fun h => ShadowedBy.execute_of_below ih h }

end

end Lox
