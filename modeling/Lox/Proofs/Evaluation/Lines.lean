import Lox.Proofs.Evaluation.Relabelling

/-!
# Code on other lines

When statements are moved to other lines, their execution does the same as before, and an error at
one of their tokens is moved with them, while one at another token stays where it was. To tell these
tokens apart, all lines are marked for a while: those of the statements as odd numbers, those of the
functions that the machine has already as even ones.
-/
namespace Lox

/-- The uses in the body of a function. -/
def Value.sites : Value → List Site
  | .function (.closure c) => Statement.allSites c.body
  | _ => []

section
variable (ρ τ : Relabelling)

theorem Value.relabel_relabel (v : Value) :
    (v.relabel ρ).relabel τ = v.relabel (ρ.andThen τ) := by
  match v with
  | .function (.closure c) =>
    simp [Value.relabel, Function.relabel, Statement.relabelAll_relabelAll]
  | .function (.host h) => rfl
  | .nil => rfl
  | .bool _ => rfl
  | .number _ => rfl
  | .string _ => rfl

theorem Machine.relabel_relabel (m : Machine) (t t' : Binding.Table) :
    (m.relabel ρ t).relabel τ t' = m.relabel (ρ.andThen τ) t' := by
  have hvalues : Value.relabel τ ∘ Value.relabel ρ = Value.relabel (ρ.andThen τ) :=
    funext fun v => v.relabel_relabel ρ τ
  simp [Machine.relabel, Store.map_map, hvalues]

end

theorem Value.relabel_of_fixes {ρ : Relabelling} {v : Value} (h : ρ.Fixes v.sites) :
    v.relabel ρ = v := by
  match v, h with
  | .function (.closure c), h =>
    rw [Value.relabel, Function.relabel, h.tokens, Statement.relabelAll_of_fixes c.body h]
  | .function (.host h), _ => rfl
  | .nil, _ => rfl
  | .bool _, _ => rfl
  | .number _, _ => rfl
  | .string _, _ => rfl

/-- A machine keeps its functions if their labels are not changed. -/
theorem Machine.relabel_of_fixes {ρ : Relabelling} {m : Machine} (t : Binding.Table)
    (h : ∀ v, m.store.Has v → ρ.Fixes v.sites) : m.relabel ρ t = { m with table := t } := by
  rw [Machine.relabel, Store.map_of_fixed _ fun v hv => Value.relabel_of_fixes (h v hv)]

namespace Relabelling

/-- The mark of new code. -/
def odd (l : Int) : Int := 2 * l + 1

/-- The mark of old code. -/
def even (l : Int) : Int := 2 * l

def isOdd (l : Int) : Bool := l % 2 = 1

/-- The lines without their marks, and then changed in one way if they were odd and in another way
if they were even. -/
def unmark (new old : Int → Int) (l : Int) : Int := if isOdd l then new (l / 2) else old (l / 2)

variable (new old : Int → Int)

theorem odd_andThen_unmark :
    (lines odd).andThen (lines (unmark new old)) = lines new := by
  have hline : unmark new old ∘ odd = new := by
    funext l
    have hodd : isOdd (2 * l + 1) = true := by
      have : (2 * l + 1) % 2 = 1 := by omega
      simp [isOdd, this]
    have hhalf : (2 * l + 1) / 2 = l := by omega
    simp [unmark, odd, hodd, hhalf]
  rw [andThen, lines, lines, hline]
  rfl

theorem even_andThen_unmark :
    (lines even).andThen (lines (unmark new old)) = lines old := by
  have hline : unmark new old ∘ even = old := by
    funext l
    have hodd : isOdd (2 * l) = false := by simp [isOdd]
    have hhalf : 2 * l / 2 = l := by omega
    simp [unmark, even, hodd, hhalf]
  rw [andThen, lines, lines, hline]
  rfl

end Relabelling

open Relabelling

/-- Every use is looked up as before if its site is the same. -/
theorem matches_of_site {ρ : Relabelling} (h : ρ.site = id) (t : Binding.Table) :
    Matches ρ t t := by
  intro site
  rw [h]
  rfl

/-- New statements do the same on a machine with old functions, wherever they stand and wherever the
functions stand: there are an end and a machine with marked lines, of which the odd ones are changed
as the lines of the statements are, and the even ones as those of the functions. -/
theorem executeAll_lines (rounds room : Nat) (ss : List Statement) (m : Machine) :
    (∃ (completion : Completion) (m₁ : Machine), ∀ new old,
      Eval.executeAll (Eval.execute rounds room) (Statement.relabelAll (lines new) ss)
          (m.relabel (lines old) m.table) =
        .ok (completion.relabel (lines (unmark new old)))
          (m₁.relabel (lines (unmark new old)) m.table)) ∨
    ∃ (e : Failure) (m₁ : Machine), ∀ new old,
      Eval.executeAll (Eval.execute rounds room) (Statement.relabelAll (lines new) ss)
          (m.relabel (lines old) m.table) =
        .error (e.relabel (lines (unmark new old)))
          (m₁.relabel (lines (unmark new old)) m.table) := by
  let marked := m.relabel (lines even) m.table
  have htable : marked.table = m.table := rfl
  have hfollows (new old : Int → Int) :=
    ((matches_of_site (ρ := lines (unmark new old)) rfl m.table).followedBy
      rounds room).executeAll (Statement.relabelAll (lines odd) ss)
  have hstatements (new old : Int → Int) :
      Statement.relabelAll (lines (unmark new old)) (Statement.relabelAll (lines odd) ss) =
        Statement.relabelAll (lines new) ss := by
    rw [Statement.relabelAll_relabelAll, odd_andThen_unmark]
  have hmachine (new old : Int → Int) : marked.relabel (lines (unmark new old)) m.table =
      m.relabel (lines old) m.table := by
    rw [Machine.relabel_relabel, even_andThen_unmark]
  cases hact : Eval.executeAll (Eval.execute rounds room) (Statement.relabelAll (lines odd) ss)
      marked with
  | ok completion m₁ =>
    refine .inl ⟨completion, m₁, fun new old => ?_⟩
    have h := (hfollows new old).ok htable hact
    rwa [hstatements, hmachine] at h
  | error e m₁ =>
    refine .inr ⟨e, m₁, fun new old => ?_⟩
    have h := (hfollows new old).error htable hact
    rwa [hstatements, hmachine] at h

end Lox
