import Lox.Proofs.Evaluation.Succession

/-!
# Where functions come from

Every execution of a declaration or of a literal makes a function of its own. `executions` lists
those of an evaluation in the order in which they happen. They take identities one after the other,
and a function that comes out of the evaluation was there before or was made by one of them.
-/
namespace Lox
namespace Point

variable {rounds : Nat} {p q : Point}

/-- The executions of declarations and literals in an evaluation, in order. -/
def executions (rounds : Nat) (p : Point) : List Point :=
  match p.made? with
  | some _ => [p]
  | none => (p.parts rounds).attach.flatMap fun q => executions rounds q.1
termination_by p.left
decreasing_by exact Prod.lex_def.2 (mem_parts_iff.1 q.2).left_lt

theorem executions_of_made {c : Closure} (hm : p.made? = some c) : p.executions rounds = [p] := by
  rw [executions, hm]

theorem executions_of_not_made (hm : p.made? = none) :
    p.executions rounds = (p.parts rounds).flatMap (executions rounds) := by
  rw [executions, hm]
  simp

/-- One of some executions made this function. -/
inductive Made (qs : List Point) : Function → Prop where
  | closure {q c} (hq : q ∈ qs) (hc : q.made? = some c) : Made qs (.closure c)

theorem Made.mono {us vs : List Point} {f : Function} (h : Made us f) (hsub : us ⊆ vs) :
    Made vs f := by
  cases h with
  | closure hq hc => exact .closure (hsub hq) hc

/-- Executions take the identities from `n` on, one after the other, up to `n'`. -/
structure Numbered (n : Nat) (qs : List Point) (n' : Nat) : Prop where
  identity : ∀ i q, qs[i]? = some q → q.machine.nextIdentity = n + i
  next : n' = n + qs.length

namespace Numbered

variable {n n₁ n' : Nat} {us vs : List Point}

theorem nil (n : Nat) : Numbered n [] n := ⟨by simp, rfl⟩

theorem one {q : Point} (h : n' = q.machine.nextIdentity + 1) :
    Numbered q.machine.nextIdentity [q] n' where
  identity i q' hq' := by
    obtain ⟨rfl, rfl⟩ : i = 0 ∧ q = q' := by simpa [List.getElem?_singleton] using hq'
    rfl
  next := h

theorem append (hu : Numbered n us n₁) (hv : Numbered n₁ vs n') : Numbered n (us ++ vs) n' where
  identity i q hq := by
    by_cases hi : i < us.length
    · rw [List.getElem?_append_left hi] at hq
      exact hu.identity i q hq
    · rw [List.getElem?_append_right (by omega)] at hq
      rw [hv.identity _ q hq, hu.next]
      omega
  next := by rw [hv.next, hu.next, List.length_append, Nat.add_assoc]

end Numbered

/-- An evaluation takes identities for its executions only, and what comes out of it was there
before or was made in it. -/
structure Accounted (rounds : Nat) (p : Point) : Prop where
  numbered : Numbered p.machine.nextIdentity (p.executions rounds) (p.leaves rounds).nextIdentity
  origin : ∀ f, p.Yields rounds f → p.Given f ∨ Made (p.executions rounds) f

theorem Succession.accounted_of {n n' : Nat} {K Y : Function → Prop} {ps : List Point}
    (h : Succession rounds n K ps n' Y) (hps : ∀ p ∈ ps, p.Accounted rounds) :
    Numbered n (ps.flatMap (executions rounds)) n' ∧
      ∀ f, Y f → K f ∨ Made (ps.flatMap (executions rounds)) f := by
  induction h with
  | done h => exact ⟨.nil _, fun f hf => .inl (h f hf)⟩
  | @step n n' K Y p ps hn hgiven _ ih =>
    obtain ⟨hp, hps⟩ := List.forall_mem_cons.1 hps
    obtain ⟨hnumbered, horigin⟩ := ih hps
    rw [List.flatMap_cons]
    refine ⟨(hn ▸ hp.numbered).append hnumbered, fun f hf => ?_⟩
    rcases horigin f hf with (hK | hyields) | hmade
    · exact .inl hK
    · refine (hp.origin f hyields).imp (hgiven f) fun hmade => hmade.mono ?_
      exact List.subset_append_left _ _
    · exact .inr (hmade.mono (List.subset_append_right _ _))

/-- So it is with every evaluation, because it is with its parts. -/
theorem accounted (rounds : Nat) (p : Point) : p.Accounted rounds := by
  cases hm : p.made? with
  | some c =>
    obtain ⟨-, hnext, hyields⟩ := leaves_of_made rounds hm
    have hone : Numbered p.machine.nextIdentity [p] (p.leaves rounds).nextIdentity := .one hnext
    refine ⟨executions_of_made hm ▸ hone, fun f hf => (hyields f hf).imp_right ?_⟩
    rintro rfl
    exact .closure (by simp [executions_of_made hm]) hm
  | none =>
    have hps (q : Point) (hq : q ∈ p.parts rounds) : q.Accounted rounds := accounted rounds q
    obtain ⟨hnumbered, horigin⟩ := (succession_parts rounds hm).accounted_of hps
    rw [← executions_of_not_made hm] at hnumbered horigin
    exact ⟨hnumbered, horigin⟩
termination_by p.left
decreasing_by exact Prod.lex_def.2 (mem_parts_iff.1 hq).left_lt

theorem Succession.accounted {n n' : Nat} {K Y : Function → Prop} {ps : List Point}
    (h : Succession rounds n K ps n' Y) :
    Numbered n (ps.flatMap (executions rounds)) n' ∧
      ∀ f, Y f → K f ∨ Made (ps.flatMap (executions rounds)) f :=
  h.accounted_of fun p _ => Point.accounted rounds p

/-- Each evaluation begins behind the executions in those before it, and with functions that were
known at first or were made in those. -/
theorem Succession.before {n n' : Nat} {K Y : Function → Prop} {us vs : List Point}
    (h : Succession rounds n K (us ++ q :: vs) n' Y) :
    q.machine.nextIdentity = n + (us.flatMap (executions rounds)).length ∧
      ∀ f, q.Given f → K f ∨ Made (us.flatMap (executions rounds)) f := by
  obtain ⟨n₁, K₁, hus, hrest⟩ := h.of_append
  obtain ⟨hnumbered, horigin⟩ := hus.accounted
  cases hrest with
  | step hn hgiven _ => exact ⟨hn.trans hnumbered.next, fun f hf => horigin f (hgiven f hf)⟩

/-- What an evaluation comes to has its executions among those of the evaluation, and begins behind
the executions that stand before them. -/
theorem exists_before (h : Relation.ReflTransGen (Enters rounds) p q) :
    ∃ us vs, p.executions rounds = us ++ q.executions rounds ++ vs ∧
      q.machine.nextIdentity = p.machine.nextIdentity + us.length ∧
      ∀ f, q.Given f → p.Given f ∨ Made us f := by
  induction h using Relation.ReflTransGen.head_induction_on with
  | refl => exact ⟨[], [], by simp, rfl, fun f => .inl⟩
  | @head p r hstep _ ih =>
    obtain ⟨us, vs, hexecutions, hnext, hgiven⟩ := ih
    have hmem := mem_parts_iff.2 hstep
    -- What has a part makes no function itself.
    have hm : p.made? = none := by
      cases hm : p.made? with
      | none => rfl
      | some c => simp [(leaves_of_made rounds hm).1] at hmem
    obtain ⟨before, after, hparts⟩ := List.append_of_mem hmem
    have hsuccession := succession_parts rounds hm
    rw [hparts] at hsuccession
    obtain ⟨hfirst, hknown⟩ := hsuccession.before
    refine ⟨before.flatMap (executions rounds) ++ us, vs ++ after.flatMap (executions rounds), ?_,
      ?_, fun f hf => ?_⟩
    · rw [executions_of_not_made hm, hparts, List.flatMap_append, List.flatMap_cons, hexecutions]
      simp
    · rw [hnext, hfirst, List.length_append, Nat.add_assoc]
    · rcases hgiven f hf with hf | hmade
      · exact (hknown f hf).imp_right fun hmade => hmade.mono (List.subset_append_left _ _)
      · exact .inr (hmade.mono (List.subset_append_right _ _))

theorem reaches_of_mem_executions (p : Point) (hq : q ∈ p.executions rounds) :
    Relation.ReflTransGen (Enters rounds) p q ∧ q.made?.isSome := by
  cases hm : p.made? with
  | some c =>
    obtain rfl := List.mem_singleton.1 (executions_of_made hm ▸ hq)
    exact ⟨.refl, by simp [hm]⟩
  | none =>
    rw [executions_of_not_made hm] at hq
    obtain ⟨r, hr, hq⟩ := List.mem_flatMap.1 hq
    obtain ⟨hreaches, hmade⟩ := reaches_of_mem_executions r hq
    exact ⟨.head (mem_parts_iff.1 hr) hreaches, hmade⟩
termination_by p.left
decreasing_by exact Prod.lex_def.2 (mem_parts_iff.1 hr).left_lt

/-- The executions in an evaluation are the declarations and literals that it comes to. -/
theorem mem_executions_iff :
    q ∈ p.executions rounds ↔ Relation.ReflTransGen (Enters rounds) p q ∧ q.made?.isSome := by
  refine ⟨reaches_of_mem_executions p, fun ⟨hreaches, hmade⟩ => ?_⟩
  obtain ⟨c, hm⟩ := Option.isSome_iff_exists.1 hmade
  obtain ⟨us, vs, hexecutions, -⟩ := exists_before hreaches
  simp [hexecutions, executions_of_made hm]

end Point

namespace Function

open Point (Made Numbered)

/-- Where a function comes from: from the host, which gives each of its functions an identity, or
from one of the executions of declarations and literals, counted from zero. -/
inductive Origin where
  | host (identity : Nat)
  | execution (index : Nat)

/-- A function comes from there, when these are the executions. -/
inductive StemsFrom (made : List Point) : Function → Origin → Prop where
  | host {h} : StemsFrom made (.host h) (.host h.identity)
  | execution {i q c} (hq : made[i]? = some q) (hc : q.made? = some c) :
    StemsFrom made (.closure c) (.execution i)

/-- Of the host, or made by one of the first `n` executions. -/
def Early (made : List Point) (n : Nat) (f : Function) : Prop :=
  ∃ o, f.StemsFrom made o ∧ ∀ i, o = .execution i → i < n

variable {made us vs : List Point} {n n' i : Nat} {f g : Function} {o o' : Origin} {q : Point}
  {c : Closure}

theorem Early.of_append (h : (∃ host, f = .host host) ∨ Made us f) :
    f.Early (us ++ vs) us.length := by
  rcases h with ⟨host, rfl⟩ | hmade
  · exact ⟨_, .host, nofun⟩
  · cases hmade with
    | closure hq hc =>
      obtain ⟨i, hi, rfl⟩ := List.mem_iff_getElem.1 hq
      have hq : (us ++ vs)[i]? = some us[i] := by
        rw [List.getElem?_append_left hi, List.getElem?_eq_getElem hi]
      refine ⟨.execution i, .execution hq hc, fun j hj => ?_⟩
      cases hj
      exact hi

theorem Early.mono (h : f.Early made n) (hle : n ≤ n') : f.Early made n' := by
  obtain ⟨o, hstems, hearly⟩ := h
  exact ⟨o, hstems, fun i hi => Nat.lt_of_lt_of_le (hearly i hi) hle⟩

/-- Two functions are the same if they have the same origin. -/
theorem StemsFrom.same_iff (hn : Numbered 0 made n) (hf : f.StemsFrom made o)
    (hg : g.StemsFrom made o') : f.same g = true ↔ o = o' := by
  have hidentity {i : Nat} {q : Point} {c : Closure} (hq : made[i]? = some q)
      (hc : q.made? = some c) : c.identity = i := by
    rw [Point.identity_of_made hc, hn.identity i q hq, Nat.zero_add]
  cases hf with
  | host => cases hg <;> simp [same]
  | execution hq hc =>
    cases hg with
    | host => simp [same]
    | execution hq' hc' => simp [same, hidentity hq hc, hidentity hq' hc']

theorem StemsFrom.unique (hn : Numbered 0 made n) (h : f.StemsFrom made o)
    (h' : f.StemsFrom made o') : o = o' := by
  refine (StemsFrom.same_iff hn h h').1 ?_
  cases f <;> simp [same]

/-- The function that an execution makes is another one than all that were there. -/
theorem Early.same_eq_false (hn : Numbered 0 made n) (hq : made[i]? = some q)
    (hc : q.made? = some c) (hf : f.Early made i) : (closure c).same f = false := by
  obtain ⟨o, hstems, hearly⟩ := hf
  refine Bool.eq_false_iff.2 fun hsame => ?_
  have ho := (StemsFrom.same_iff hn (.execution hq hc) hstems).1 hsame
  exact Nat.lt_irrefl _ (hearly i ho.symm)

end Function
end Lox
