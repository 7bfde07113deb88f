import Lox.Proofs.Evaluation.Keeping
import Mathlib.Logic.Relation

/-!
# What a call can reach

A scope links to its parent and to the scopes of the functions that it holds. A call begins with the
global scope, the scope of its function and those of its arguments. Whatever it does, it leaves
every other scope that there was as it is, unless links lead there from one of these; and what it
returns, what it stores and what it creates leads to no others either.
-/
namespace Lox

/-- The scope of a function of the program. -/
inductive Value.ClosesOver : Value → ScopeId → Prop where
  | closure (c : Closure) : ClosesOver (.function (.closure c)) c.scope

namespace Store

/-- From a scope to its parent, and to the scope of a function that it holds. -/
inductive Links (s : Store Value) : ScopeId → ScopeId → Prop where
  | parent {id p} (h : s.parent? id = some p) : Links s id p
  | held {id name v id'} (h : s.valueIn? id name = some v) (hv : v.ClosesOver id') : Links s id id'

/-- Some links lead from one scope to another. -/
abbrev Reaches (s : Store Value) : ScopeId → ScopeId → Prop := Relation.ReflTransGen s.Links

/-- The scopes of `R`, and those of `s'` that `s` did not have. -/
def Within (R : ScopeId → Prop) (s s' : Store Value) (id : ScopeId) : Prop :=
  R id ∨ s.size ≤ id ∧ id < s'.size

/-- The old scopes outside of `R` are as they were, and from `R` and the new scopes links lead to no
others. -/
structure Confined (R : ScopeId → Prop) (s s' : Store Value) : Prop where
  size : s.size ≤ s'.size
  untouched : ∀ id < s.size, ¬ R id → s'.scope? id = s.scope? id
  reaches : ∀ id id', Within R s s' id → s'.Reaches id id' → Within R s s' id'

variable {R : ScopeId → Prop} {s₀ s s' : Store Value} {id id' parent : ScopeId} {name : String}
  {v : Value}

theorem Within.mono (h : Within R s₀ s id) (hsize : s.size ≤ s'.size) : Within R s₀ s' id :=
  h.imp_right fun ⟨hnew, hlt⟩ => ⟨hnew, Nat.lt_of_lt_of_le hlt hsize⟩

/-- It is enough to follow single links. -/
theorem confined_of_links (hsize : s₀.size ≤ s.size)
    (hu : ∀ id < s₀.size, ¬ R id → s.scope? id = s₀.scope? id)
    (hl : ∀ id id', Within R s₀ s id → s.Links id id' → Within R s₀ s id') : Confined R s₀ s := by
  refine ⟨hsize, hu, fun id id' hid hreaches => ?_⟩
  induction hreaches with
  | refl => exact hid
  | tail _ hlink ih => exact hl _ _ ih hlink

theorem links_define (h : (s.define id name v).Links id' parent) :
    s.Links id' parent ∨ id' = id ∧ v.ClosesOver parent := by
  cases h with
  | parent h => exact .inl (.parent (by simpa using h))
  | @held name' w _ h hw =>
    by_cases heq : id = id' ∧ name = name'
    · obtain ⟨rfl, rfl⟩ := heq
      have hlt : id < s.size := by simpa using lt_size_of_valueIn? _ (Option.isSome_of_eq_some h)
      rw [s.valueIn?_define_self hlt] at h
      cases h
      exact .inr ⟨rfl, hw⟩
    · rw [s.valueIn?_define_of_ne v fun hid hname => heq ⟨hid, hname⟩] at h
      exact .inl (.held h hw)

theorem links_fork (h : (s.fork parent).Links id id') :
    s.Links id id' ∨ id = s.size ∧ id' = parent := by
  cases h with
  | parent h =>
    rcases Nat.lt_succ_iff_lt_or_eq.1 (by simpa using lt_size_of_parent? _ h) with hlt | rfl
    · rw [s.parent?_fork_of_lt parent hlt] at h
      exact .inl (.parent h)
    · rw [s.parent?_fork_self] at h
      cases h
      exact .inr ⟨rfl, rfl⟩
  | held h hv =>
    rw [valueIn?_fork] at h
    exact .inl (.held h hv)

theorem lt_of_links (h : s.Links id id') : id < s.size := by
  cases h with
  | parent h => exact s.lt_size_of_parent? h
  | held h => exact s.lt_size_of_valueIn? (Option.isSome_of_eq_some h)

namespace Confined

theorem links (h : Confined R s₀ s) (hid : Within R s₀ s id) (hl : s.Links id id') :
    Within R s₀ s id' :=
  h.reaches id id' hid (.single hl)

theorem ancestor (h : Confined R s₀ s) {hops : Nat} (hid : Within R s₀ s id)
    (ha : s.ancestor? hops id = some id') : Within R s₀ s id' := by
  induction hops generalizing id with
  | zero =>
    obtain rfl := Option.some.inj ha
    exact hid
  | succ hops ih =>
    obtain ⟨p, hp, hrest⟩ := Option.bind_eq_some_iff.1 ha
    exact ih (h.links hid (.parent hp)) hrest

theorem define (h : Confined R s₀ s) (hid : Within R s₀ s id)
    (hv : ∀ id', v.ClosesOver id' → Within R s₀ s id') (name : String) :
    Confined R s₀ (s.define id name v) := by
  have hsize := s.size_define id name v
  have hmono {id' : ScopeId} (h : Within R s₀ s id') : Within R s₀ (s.define id name v) id' :=
    h.mono (Nat.le_of_eq hsize.symm)
  refine confined_of_links (hsize ▸ h.size) (fun id' hlt hR => ?_) fun id₁ id₂ hid₁ hlink => ?_
  · have hne : id ≠ id' := by
      rintro rfl
      exact hid.elim hR fun hnew => Nat.not_lt.2 hnew.1 hlt
    rw [scope?_define, if_neg hne]
    exact h.untouched id' hlt hR
  · rcases links_define hlink with hlink | ⟨-, hclosure⟩
    · exact hmono (h.links (hid₁.mono (Nat.le_of_eq hsize)) hlink)
    · exact hmono (hv id₂ hclosure)

theorem fork (h : Confined R s₀ s) (hp : Within R s₀ s parent) :
    Confined R s₀ (s.fork parent) := by
  have hmono {id : ScopeId} (h : Within R s₀ s id) : Within R s₀ (s.fork parent) id :=
    h.mono (by simp)
  refine confined_of_links (Nat.le_trans h.size (by simp)) (fun id hlt hR => ?_)
    fun id₁ id₂ hid₁ hlink => ?_
  · rw [scope?_fork, if_neg (Nat.ne_of_lt (Nat.lt_of_lt_of_le hlt h.size))]
    exact h.untouched id hlt hR
  · rcases links_fork hlink with hlink | ⟨-, rfl⟩
    · exact hmono (h.links (hid₁.imp_right fun hnew => ⟨hnew.1, lt_of_links hlink⟩) hlink)
    · exact hmono hp

theorem within_fork (h : Confined R s₀ s) (parent : ScopeId) :
    Within R s₀ (s.fork parent) s.size :=
  .inr ⟨h.size, by simp⟩

theorem frame (h : Confined R s₀ s) (hp : Within R s₀ s parent) (parameters : List Token)
    {vs : List Value} (hvs : ∀ v ∈ vs, ∀ id, v.ClosesOver id → Within R s₀ s id) :
    Confined R s₀ (s.frame parent parameters vs) ∧
      Within R s₀ (s.frame parent parameters vs) s.size := by
  have hfold (pairs : List (Token × Value)) (s' : Store Value) (hle : s.size ≤ s'.size)
      (h' : Confined R s₀ s') (hself : Within R s₀ s' s.size)
      (hpairs : ∀ pair ∈ pairs, ∀ id, pair.2.ClosesOver id → Within R s₀ s id) :
      let frame := pairs.foldl (fun store pair => store.define s.size pair.1.lexeme pair.2) s'
      Confined R s₀ frame ∧ Within R s₀ frame s.size := by
    induction pairs generalizing s' with
    | nil => exact ⟨h', hself⟩
    | cons pair pairs ih =>
      obtain ⟨hpair, hrest⟩ := List.forall_mem_cons.1 hpairs
      have hsize := (s'.size_define s.size pair.1.lexeme pair.2).symm
      refine ih _ (hsize ▸ hle) (h'.define hself (fun id hid => (hpair id hid).mono hle) _)
        (hself.mono (Nat.le_of_eq hsize)) hrest
  exact hfold _ _ (by simp) (h.fork hp) (h.within_fork parent)
    fun pair hpair => hvs pair.2 (List.of_mem_zip hpair).2

/-- A use of a variable finds a scope that links lead to. -/
theorem holder {m : Machine} {site : Site} {name : Token} (h : Confined R s₀ m.store)
    (hglobal : R global) (hscope : Within R s₀ m.store m.scope)
    (hh : Run.holder m site name = .ok id) : Within R s₀ m.store id := by
  unfold Run.holder at hh
  split at hh
  · unfold holderAt at hh
    split at hh
    · cases hh
    · next ha =>
      split at hh <;> cases hh
      exact h.ancestor hscope ha
  · rw [Store.holder, owner?_global] at hh
    split at hh
    · next howner =>
      cases hh
      split at howner <;> cases howner
      exact .inl hglobal
    · cases hh

end Confined
end Store

section
variable {R : ScopeId → Prop} {s₀ : Store Value}

/-- Code is evaluated in scopes of `R` and new ones, and functions close over such scopes. -/
def Invariant.confined (R : ScopeId → Prop) (s₀ : Store Value) (hglobal : R Store.global) :
    Invariant where
  store s := Store.Confined R s₀ s
  value s v := ∀ id, v.ClosesOver id → Store.Within R s₀ s id
  node s id _ := Store.Within R s₀ s id
  value_later hl hv id hid := (hv id hid).mono hl.size
  node_later hl hn := hn.mono hl.size
  part hn _ := hn
  plain h id hid := by
    cases hid with
    | closure c => exact absurd rfl (h c)
  lookUp hs hn hholder hv id hid := hs.links (hs.holder hglobal hn hholder) (.held hv hid)
  assign hs hn hv hholder := hs.define (hs.holder hglobal hn hholder) hv _
  define hs hn hv := hs.define hn hv _
  close _ hn _ id hid := by
    cases hid with
    | closure c => exact hn
  block {s id _} hs hn := ⟨hs.fork hn, fun _ _ => hs.within_fork id⟩
  frame {s c vs} hs hc hvs := by
    obtain ⟨hframe, hself⟩ := hs.frame (hc _ (.closure c)) c.parameters hvs
    exact ⟨hframe, fun _ _ => hself⟩

end

namespace Eval

/-- The scopes that a call begins with. -/
inductive CallScope (f : Function) (vs : List Value) : ScopeId → Prop where
  | global : CallScope f vs Store.global
  | function {id} (h : (Value.function f).ClosesOver id) : CallScope f vs id
  | argument {v id} (hv : v ∈ vs) (h : v.ClosesOver id) : CallScope f vs id

/-- The scopes that links lead to from those that a call begins with. -/
def CallReaches (s : Store Value) (f : Function) (vs : List Value) (id : ScopeId) : Prop :=
  ∃ start, CallScope f vs start ∧ s.Reaches start id

/-- However a call ends, the scopes that it cannot reach are as they were, and those that it can
reach, the scopes that it created and the value that it returns lead to no others. -/
theorem invoke_confined (rounds room : Nat) (f : Function) (vs : List Value) (m : Machine) :
    let R := CallReaches m.store f vs
    Ends (invoke rounds room f vs) m
      (fun v m' => Store.Confined R m.store m'.store ∧
        ∀ id id', v.ClosesOver id → m'.store.Reaches id id' → Store.Within R m.store m'.store id')
      (fun _ m' => Store.Confined R m.store m'.store) := by
  intro R
  have hroot {id : ScopeId} (h : CallScope f vs id) : Store.Within R m.store m.store id :=
    .inl ⟨id, h, .refl⟩
  have hstart : Store.Confined R m.store m.store := by
    refine Store.confined_of_links (Nat.le_refl _) (fun _ _ _ => rfl) fun id id' hid hlink => ?_
    rcases hid with ⟨start, hstart, hreaches⟩ | ⟨hnew, hlt⟩
    · exact .inl ⟨start, hstart, hreaches.tail hlink⟩
    · exact absurd hlt (Nat.not_lt.2 hnew)
  have hkeeps := ((Invariant.confined R m.store ⟨_, .global, .refl⟩).keptBy rounds room).invoke f vs
    m hstart (fun id hid => hroot (.function hid)) fun v hv id hid => hroot (.argument hv hid)
  refine hkeeps.imp (fun v m' ⟨_, hs, hv⟩ => ⟨hs, fun id id' hid => ?_⟩) fun _ m' ⟨_, hs⟩ => hs
  exact hs.reaches id id' (hv id hid)

end Eval
end Lox
