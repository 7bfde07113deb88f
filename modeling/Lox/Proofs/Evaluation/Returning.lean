import Lox.Eval
import Lox.Proofs.Ending
import Lox.Proofs.Scoping.Visits

/-!
# Programs that do not return

A `return` outside of every function is reported when names are bound. Without one, statements end
normally if they end well, so that what stands behind them is executed next.
-/
namespace Lox

namespace Binding

/-- No `return` among these visits is outside of a function. -/
def ReturnsInside (visits : List Visit) : Prop :=
  ∀ keyword, Visit.leaveFunction keyword false ∉ visits

theorem ReturnsInside.mono {us vs : List Visit} (h : ReturnsInside vs) (hsub : us ⊆ vs) :
    ReturnsInside us :=
  fun keyword hmem => h keyword (hsub hmem)

theorem reports_step (v : Visit) (p : Progress) : p.reports <:+ (v.step p).reports := by
  cases v with
  | declare name => simp only [Visit.step]; split <;> simp
  | use kind site name => simp only [Visit.step]; split <;> simp
  | leaveFunction keyword inside => cases inside <;> simp [Visit.step]
  | _ => exact List.suffix_refl _

theorem reports_walk (visits : List Visit) (p : Progress) :
    p.reports <:+ (walk visits p).reports := by
  induction visits generalizing p with
  | nil => exact List.suffix_refl _
  | cons v visits ih => exact (reports_step v p).trans (ih _)

/-- Each such `return` is reported. -/
theorem returnsInside_of_unreported {visits : List Visit} {p : Progress}
    (h : ∀ r ∈ (walk visits p).reports, r.fault ≠ .returnOutsideFunction) :
    ReturnsInside visits := by
  intro keyword hmem
  obtain ⟨us, vs, rfl⟩ := List.append_of_mem hmem
  rw [walk_append, walk_cons] at h
  have hsuffix := reports_walk vs ((Visit.leaveFunction keyword false).step (walk us p))
  exact h ⟨keyword, .returnOutsideFunction⟩ (hsuffix.subset List.mem_cons_self) rfl

theorem returnsInside_of_silent {visits : List Visit} {p : Progress}
    (h : (walk visits p).reports = []) : ReturnsInside visits :=
  returnsInside_of_unreported (p := p) (by simp [h])

end Binding

open Binding (ReturnsInside)

/-- An action that ends normally if it ends well. -/
def EndsNormally (act : Run Completion) : Prop := ∀ m c m', act m = .ok c m' → c = .normal

namespace EndsNormally

variable {α : Type}

theorem result : EndsNormally (pure .normal) := fun _ _ _ h => by cases h; rfl

theorem abort (a : Abort) : EndsNormally (Run.abort a) := fun _ _ _ => nofun

theorem bind {act : Run α} {next : α → Run Completion} (h : ∀ a, EndsNormally (next a)) :
    EndsNormally (act >>= next) := by
  intro m c m' hok
  obtain ⟨a, m₁, -, hnext⟩ := ok_of_bind hok
  exact h a m₁ c m' hnext

theorem within {act : Run Completion} (h : EndsNormally act) (scope : ScopeId) :
    EndsNormally (Run.within scope act) := by
  intro m c m' hok
  unfold Run.within at hok
  split at hok <;> cases hok
  next hact => exact h _ _ _ hact

theorem executeAll {execute : Statement → Run Completion} {ss : List Statement}
    (h : ∀ s ∈ ss, EndsNormally (execute s)) : EndsNormally (Eval.executeAll execute ss) := by
  induction ss with
  | nil => exact result
  | cons s ss ih =>
    intro m c m' hok
    obtain ⟨c₁, m₁, hs, hrest⟩ := ok_of_bind hok
    cases h s List.mem_cons_self m c₁ m₁ hs
    exact ih (fun s' hs' => h s' (List.mem_cons_of_mem s hs')) m₁ c m' hrest

theorem repeatWhile {condition : Run Value} {body : Run Completion} (h : EndsNormally body)
    (rounds : Nat) : EndsNormally (Eval.repeatWhile condition body rounds) := by
  induction rounds with
  | zero => exact abort _
  | succ rounds ih =>
    refine bind fun v => ?_
    cases v.truthy with
    | false => exact result
    | true =>
      intro m c m' hok
      obtain ⟨c₁, m₁, hbody, hrest⟩ := ok_of_bind hok
      cases h m c₁ m₁ hbody
      exact ih m₁ c m' hrest

end EndsNormally

theorem Binding.ReturnsInside.statements {ss : List Statement}
    (h : ReturnsInside (Statement.allVisits ss false)) :
    ∀ s ∈ ss, ReturnsInside (s.visits false) := by
  induction ss with
  | nil => nofun
  | cons s ss ih =>
    rw [Statement.allVisits] at h
    exact List.forall_mem_cons.2 ⟨h.mono (List.subset_append_left _ _),
      ih (h.mono (List.subset_append_right _ _))⟩

/-- A statement without a `return` of its own ends normally. -/
theorem endsNormally_execute (rounds room : Nat) (s : Statement)
    (h : ReturnsInside (s.visits false)) : EndsNormally (Eval.execute rounds room s) := by
  induction room using Nat.strongRecOn generalizing s with
  | ind room ih =>
    match room, s, ih, h with
    | 0, _, _, _ => exact .abort _
    | room + 1, .block ss, ih, h =>
      have hss : ReturnsInside (Statement.allVisits ss false) :=
        h.mono fun v hv => by simp [Statement.visits, hv]
      refine .bind fun _ => .bind fun inner => ?_
      match room, ih with
      | 0, _ => exact .abort _
      | room + 1, ih =>
        exact .within (.executeAll fun s hs => ih room (by omega) s (hss.statements s hs)) inner
    | _ + 1, .expression _, _, _ => exact .bind fun _ => .result
    | _ + 1, .function _ _ _, _, _ => exact .bind fun _ => .bind fun _ => .result
    | room + 1, .ifElse condition thenBranch none, ih, h =>
      have ht : ReturnsInside (thenBranch.visits false) :=
        h.mono fun v hv => by simp [Statement.visits, hv]
      refine .bind fun v => ?_
      cases v.truthy with
      | true => exact ih room (Nat.lt_succ_self _) thenBranch ht
      | false => exact .result
    | room + 1, .ifElse condition thenBranch (some elseBranch), ih, h =>
      have ht : ReturnsInside (thenBranch.visits false) :=
        h.mono fun v hv => by simp [Statement.visits, hv]
      have he : ReturnsInside (elseBranch.visits false) :=
        h.mono fun v hv => by simp [Statement.visits, hv]
      refine .bind fun v => ?_
      cases v.truthy with
      | true => exact ih room (Nat.lt_succ_self _) thenBranch ht
      | false => exact ih room (Nat.lt_succ_self _) elseBranch he
    | _ + 1, .print _, _, _ => exact .bind fun _ => .bind fun _ => .result
    | _ + 1, .return keyword none, _, h => exact absurd (by simp [Statement.visits]) (h keyword)
    | _ + 1, .return keyword (some _), _, h =>
      exact absurd (by simp [Statement.visits]) (h keyword)
    | _ + 1, .var _ none, _, _ => exact .bind fun _ => .result
    | _ + 1, .var _ (some _), _, _ => exact .bind fun _ => .bind fun _ => .result
    | room + 1, .while condition body, ih, h =>
      have hbody : ReturnsInside (body.visits false) :=
        h.mono fun v hv => by simp [Statement.visits, hv]
      exact .repeatWhile (ih room (Nat.lt_succ_self _) body hbody) rounds

/-- Statements that end normally are followed by those behind them. -/
theorem executeAll_append (execute : Statement → Run Completion) (ss ss' : List Statement)
    {m m₁ : Machine} (h : Eval.executeAll execute ss m = .ok .normal m₁) :
    Eval.executeAll execute (ss ++ ss') m = Eval.executeAll execute ss' m₁ := by
  induction ss generalizing m with
  | nil => cases h; rfl
  | cons s ss ih =>
    obtain ⟨c, m₂, hs, hrest⟩ := ok_of_bind h
    cases c with
    | returned v => cases hrest
    | normal => exact (bind_of_ok hs).trans (ih hrest)

end Lox
