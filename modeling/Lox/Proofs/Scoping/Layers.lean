import Lox.Proofs.Evaluation.Reaching
import Lox.Proofs.Evaluation.Stores
import Lox.Proofs.Scoping.LexicalScope

/-!
# Layers of scopes

A place in a tree has a depth, the number of scopes that are open there when names are bound, and a
scope of a machine has one, the number of steps outwards to the global scope. Evaluation keeps both
equal: code is evaluated in a scope of its depth, and a function is made in a scope of the depth at
which its body begins.
-/
namespace Lox

namespace Store

variable {α : Type} {s s' : Store α}

/-- The global scope is this many steps outwards, and no fewer. -/
structure Depth (s : Store α) (id : ScopeId) (depth : Nat) : Prop where
  reaches : s.ancestor? depth id = some global
  inside : ∀ hops < depth, s.ancestor? hops id ≠ some global

theorem ancestor?_add (s : Store α) (m n : Nat) (id : ScopeId) :
    s.ancestor? (m + n) id = (s.ancestor? m id).bind (s.ancestor? n) := by
  induction m generalizing id with
  | zero => rw [Nat.zero_add]; rfl
  | succ m ih =>
    rw [Nat.succ_add, ancestor?, ancestor?]
    cases s.parent? id with
    | none => rfl
    | some p => exact ih p

theorem depth_global (s : Store α) : s.Depth global 0 := ⟨rfl, nofun⟩

theorem Later.parent?_eq_some (h : s.Later s') {id p : ScopeId} (hp : s.parent? id = some p) :
    s'.parent? id = some p :=
  (h.parents id (s.lt_size_of_parent? hp)).trans hp

namespace Depth

variable {id : ScopeId} {depth : Nat}

/-- The way outwards leads to a scope at every step, and before the last one not to the global
scope. -/
theorem exists_ancestor (h : s.Depth id depth) {hops : Nat} (hlt : hops < depth) :
    ∃ holder, s.ancestor? hops id = some holder ∧ holder ≠ global := by
  obtain ⟨rest, rfl⟩ := Nat.exists_eq_add_of_lt hlt
  have hreaches := h.reaches
  rw [Nat.add_assoc, ancestor?_add] at hreaches
  obtain ⟨holder, hholder, -⟩ := Option.bind_eq_some_iff.1 hreaches
  exact ⟨holder, hholder, fun heq => h.inside hops hlt (heq ▸ hholder)⟩

theorem later (h : s.Depth id depth) (hl : s.Later s') : s'.Depth id depth where
  reaches := ancestor?_mono (fun _ _ => hl.parent?_eq_some) h.reaches
  inside hops hlt := by
    obtain ⟨holder, hholder, hne⟩ := h.exists_ancestor hlt
    rw [ancestor?_mono (fun _ _ => hl.parent?_eq_some) hholder]
    exact fun heq => hne (Option.some.inj heq)

/-- A new scope is one step further inside. -/
theorem fork (h : s.Depth id depth) (hsize : 0 < s.size) :
    (s.fork id).Depth s.size (depth + 1) := by
  have hparent (hops : Nat) : (s.fork id).ancestor? (hops + 1) s.size =
      (s.fork id).ancestor? hops id := by
    rw [ancestor?, s.parent?_fork_self]
    rfl
  have hid := h.later (Later.fork s id)
  refine ⟨(hparent depth).trans hid.reaches, fun hops hlt => ?_⟩
  cases hops with
  | zero =>
    intro heq
    rw [Option.some.inj heq] at hsize
    exact Nat.lt_irrefl _ hsize
  | succ hops =>
    rw [hparent]
    exact hid.inside hops (Nat.lt_of_succ_lt_succ hlt)

end Depth

end Store

open Binding (Visit nesting nesting_append nesting_add)

/-- The visits of code. -/
def Node.visits : Node → (inside : Bool) → List Visit
  | .expression e => e.visits
  | .statement s => s.visits

/-- Some visits are among others, with this many scopes open before them. -/
def Binding.Among (part : List Visit) (depth : Nat) (whole : List Visit) : Prop :=
  ∃ before after, whole = before ++ part ++ after ∧ nesting before 0 = some depth

namespace Binding

theorem among_refl (visits : List Visit) : Among visits 0 visits := ⟨[], [], by simp, rfl⟩

theorem Among.trans {us vs ws : List Visit} {m n : Nat} (h : Among us m vs) (h' : Among vs n ws) :
    Among us (n + m) ws := by
  obtain ⟨before, after, rfl, hn⟩ := h
  obtain ⟨before', after', rfl, hn'⟩ := h'
  refine ⟨before' ++ before, after ++ after', by simp, ?_⟩
  rw [nesting_append, hn', Option.bind_some, ← Nat.zero_add n, nesting_add hn n, Nat.zero_add,
    Nat.add_comm]

theorem Among.cons {us vs : List Visit} {v : Visit} {m : Nat} (h : Among us m vs)
    (hv : Visit.nests 0 v = some 0 := by rfl) : Among us m (v :: vs) :=
  Nat.zero_add m ▸ h.trans ⟨[v], [], by simp, by simp [hv]⟩

theorem Among.enter {us vs : List Visit} {m : Nat} (h : Among us m vs) :
    Among us (m + 1) (.enter :: vs) :=
  Nat.add_comm 1 m ▸ h.trans ⟨[.enter], [], by simp, rfl⟩

theorem Among.left {us vs ws : List Visit} {m : Nat} (h : Among us m vs) : Among us m (vs ++ ws) :=
  Nat.zero_add m ▸ h.trans ⟨[], ws, by simp, rfl⟩

theorem Among.right {us vs ws : List Visit} {m : Nat} (h : Among us m ws)
    (hv : nesting vs 0 = some 0) : Among us m (vs ++ ws) :=
  Nat.zero_add m ▸ h.trans ⟨vs, [], by simp, hv⟩

theorem among_expressions {e : Expr} {es : List Expr} (h : e ∈ es) (i : Bool) :
    Among (e.visits i) 0 (Expr.allVisits es i) := by
  induction es with
  | nil => cases h
  | cons e' es ih =>
    rcases List.mem_cons.1 h with rfl | h
    · exact (among_refl _).left
    · exact (ih h).right (nesting_expression e' i 0)

theorem among_statements {st : Statement} {ss : List Statement} (h : st ∈ ss) (i : Bool) :
    Among (st.visits i) 0 (Statement.allVisits ss i) := by
  induction ss with
  | nil => cases h
  | cons st' ss ih =>
    rcases List.mem_cons.1 h with rfl | h
    · exact (among_refl _).left
    · exact (ih h).right (nesting_statement st' i 0)

theorem among_function {st : Statement} {body : List Statement} (h : st ∈ body)
    (parameters : List Token) :
    Among (st.visits true) 1 (Visit.function parameters (Statement.allVisits body true)) :=
  ((among_statements h true).right (nesting_parameters parameters 0)).left.enter

end Binding

open Binding (Among among_refl among_expressions among_statements among_function
  nesting_expression nesting_statement)

/-- The visits of a part of code are among the visits of the code. -/
theorem Node.Part.among {n n' : Node} {k : Nat} (h : n.Part k n') (i : Bool) :
    ∃ i', Among (n'.visits i') k (n.visits i) := by
  cases h with
  | literalBody hmem => exact ⟨true, (among_function hmem _).cons⟩
  | functionBody hmem => exact ⟨true, .cons <| .cons <| .cons <| among_function hmem _⟩
  | blockBody hmem => exact ⟨i, .cons (among_statements hmem i).left.enter⟩
  | argument hmem =>
    exact ⟨i, ((among_expressions hmem i).right (nesting_expression _ i 0)).cons⟩
  | grouping => exact ⟨i, (among_refl _).cons⟩
  | operand => exact ⟨i, (among_refl _).cons⟩
  | binaryLeft => exact ⟨i, (among_refl _).left.cons⟩
  | binaryRight => exact ⟨i, ((among_refl _).right (nesting_expression _ i 0)).cons⟩
  | logicalLeft => exact ⟨i, (among_refl _).left.cons⟩
  | logicalRight => exact ⟨i, ((among_refl _).right (nesting_expression _ i 0)).cons⟩
  | ternaryCondition => exact ⟨i, (among_refl _).left.cons⟩
  | ternaryThen => exact ⟨i, ((among_refl _).left.right (nesting_expression _ i 0)).cons⟩
  | ternaryElse =>
    exact ⟨i, (((among_refl _).right (nesting_expression _ i 0)).right
      (nesting_expression _ i 0)).cons⟩
  | assigned => exact ⟨i, (among_refl _).left.cons⟩
  | callee => exact ⟨i, (among_refl _).left.cons⟩
  | value => exact ⟨i, (among_refl _).cons⟩
  | @ifCondition _ _ b =>
    exact ⟨i, by cases b <;> exact (among_refl _).left.cons⟩
  | @thenBranch _ _ b =>
    refine ⟨i, ?_⟩
    cases b with
    | none => exact ((among_refl _).right (nesting_expression _ i 0)).cons
    | some b => exact ((among_refl _).left.right (nesting_expression _ i 0)).cons
  | elseBranch =>
    exact ⟨i, (((among_refl _).right (nesting_statement _ i 0)).right
      (nesting_expression _ i 0)).cons⟩
  | printed => exact ⟨i, (among_refl _).cons⟩
  | returned => exact ⟨i, .cons <| .cons <| among_refl _⟩
  | initializer => exact ⟨i, .cons <| .cons (among_refl _).left⟩
  | loopCondition => exact ⟨i, (among_refl _).left.cons⟩
  | loopBody => exact ⟨i, ((among_refl _).right (nesting_expression _ i 0)).cons⟩

/-- In one of some units there is this code, at this depth. -/
def Occurs (units : List Code) (n : Node) (depth : Nat) : Prop :=
  ∃ unit ∈ units, ∃ i, Among (n.visits i) depth unit.visits

/-- A part of code occurs with the code. -/
theorem Occurs.part {units : List Code} {n n' : Node} {depth k : Nat} (h : Occurs units n depth)
    (hp : n.Part k n') : Occurs units n' (depth + k) := by
  obtain ⟨unit, hunit, i, hamong⟩ := h
  obtain ⟨i', hpart⟩ := hp.among i
  exact ⟨unit, hunit, i', hpart.trans hamong⟩

/-- Functions of some units are in scopes of the depth at which their bodies begin. -/
def FunctionLayered (units : List Code) (s : Store Value) (v : Value) : Prop :=
  ∀ c, v = .function (.closure c) →
    ∃ depth, s.Depth c.scope depth ∧ ∀ st ∈ c.body, Occurs units (.statement st) (depth + 1)

/-- There is a global scope without a parent, and all functions are in scopes of their depths. -/
structure StoreLayered (units : List Code) (s : Store Value) : Prop where
  size : 0 < s.size
  global : s.parent? Store.global = none
  functions : ∀ v, s.Has v → FunctionLayered units s v

variable {units : List Code} {s s' : Store Value}

theorem Occurs.mono {units' : List Code} {n : Node} {depth : Nat} (h : Occurs units n depth)
    (hsub : units ⊆ units') : Occurs units' n depth := by
  obtain ⟨unit, hunit, hamong⟩ := h
  exact ⟨unit, hsub hunit, hamong⟩

theorem FunctionLayered.mono {units' : List Code} {v : Value} (h : FunctionLayered units s v)
    (hsub : units ⊆ units') : FunctionLayered units' s v := by
  intro c hc
  obtain ⟨depth, hdepth, hbody⟩ := h c hc
  exact ⟨depth, hdepth, fun st hst => (hbody st hst).mono hsub⟩

/-- More units may come. -/
theorem StoreLayered.mono {units' : List Code} (h : StoreLayered units s)
    (hsub : units ⊆ units') : StoreLayered units' s :=
  ⟨h.size, h.global, fun v hv => (h.functions v hv).mono hsub⟩

theorem FunctionLayered.later {v : Value} (h : FunctionLayered units s v) (hl : s.Later s') :
    FunctionLayered units s' v := by
  intro c hc
  obtain ⟨depth, hdepth, hbody⟩ := h c hc
  exact ⟨depth, hdepth.later hl, hbody⟩

theorem StoreLayered.define (h : StoreLayered units s) {id : ScopeId} {name : String} {v : Value}
    (hv : FunctionLayered units s v) : StoreLayered units (s.define id name v) where
  size := by simpa using h.size
  global := by simpa using h.global
  functions w hw := by
    have hl := Store.Later.define s id name v
    rcases Store.has_define hw with rfl | hold
    · exact hv.later hl
    · exact (h.functions w hold).later hl

theorem StoreLayered.fork (h : StoreLayered units s) (id : ScopeId) :
    StoreLayered units (s.fork id) where
  size := by simp
  global := (s.parent?_fork_of_lt id h.size).trans h.global
  functions w hw := (h.functions w (Store.has_fork hw)).later (.fork s id)

theorem StoreLayered.frame (h : StoreLayered units s) (id : ScopeId) (parameters : List Token)
    {vs : List Value} (hvs : ∀ v ∈ vs, FunctionLayered units s v) :
    StoreLayered units (s.frame id parameters vs) := by
  have hfold (pairs : List (Token × Value)) (store : Store Value) (hl : s.Later store)
      (hs : StoreLayered units store) (hp : ∀ pair ∈ pairs, FunctionLayered units s pair.2) :
      StoreLayered units
        (pairs.foldl (fun store pair => store.define s.size pair.1.lexeme pair.2) store) := by
    induction pairs generalizing store with
    | nil => exact hs
    | cons pair pairs ih =>
      obtain ⟨hpair, hpairs⟩ := List.forall_mem_cons.1 hp
      exact ih _ (hl.trans (.define _ _ _ _)) (hs.define (hpair.later hl)) hpairs
  exact hfold _ _ (.fork s id) (h.fork id) fun pair hpair => hvs _ (List.of_mem_zip hpair).2

/-- Code of some units is evaluated in scopes of its depth. -/
def Invariant.layered (units : List Code) : Invariant where
  store := StoreLayered units
  value := FunctionLayered units
  node s id n := ∃ depth, s.Depth id depth ∧ Occurs units n depth
  value_later hl hv := hv.later hl
  node_later := fun hl ⟨depth, hdepth, hn⟩ => ⟨depth, hdepth.later hl, hn⟩
  part := fun ⟨depth, hdepth, hn⟩ hp => ⟨depth, hdepth, hn.part hp⟩
  plain hv c hc := absurd hc (hv c)
  lookUp hs _ _ hv := hs.functions _ (Store.has_of_valueIn? hv)
  assign hs _ hv _ := hs.define hv
  define hs _ hv := hs.define hv
  close := by
    rintro s id n identity name parameters body hs ⟨depth, hdepth, hn⟩ hmakes c hc
    cases hc
    refine ⟨depth, hdepth, fun st hst => ?_⟩
    cases hmakes with
    | literal => exact hn.part (.literalBody hst)
    | declaration => exact hn.part (.functionBody hst)
  block := fun hs ⟨depth, hdepth, hn⟩ =>
    ⟨hs.fork _, fun st hst => ⟨depth + 1, hdepth.fork hs.size, hn.part (.blockBody hst)⟩⟩
  frame {s c vs} hs hc hvs := by
    obtain ⟨depth, hdepth, hbody⟩ := hc c rfl
    refine ⟨hs.frame c.scope c.parameters hvs, fun st hst => ?_⟩
    exact ⟨depth + 1, (hdepth.fork hs.size).later (.frame_of_fork _ _ _ _), hbody st hst⟩

end Lox
