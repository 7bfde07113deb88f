import Lox.Ast

/-!
# The sites of a tree

The uses of variables in a tree, each by its site, in the order of the tree.
-/
namespace Lox

mutual

def Expr.sites : Expr → List Site
  | .literal _ => []
  | .grouping inner => inner.sites
  | .unary _ operand => operand.sites
  | .binary left _ right => left.sites ++ right.sites
  | .logical left _ right => left.sites ++ right.sites
  | .ternary condition thenBranch elseBranch =>
    condition.sites ++ thenBranch.sites ++ elseBranch.sites
  | .access site _ => [site]
  | .assign site _ value => site :: value.sites
  | .call callee _ arguments => callee.sites ++ Expr.allSites arguments
  | .function _ _ body => Statement.allSites body

def Expr.allSites : List Expr → List Site
  | [] => []
  | e :: rest => e.sites ++ Expr.allSites rest

def Statement.sites : Statement → List Site
  | .block statements => Statement.allSites statements
  | .expression value => value.sites
  | .function _ _ body => Statement.allSites body
  | .ifElse condition thenBranch none => condition.sites ++ thenBranch.sites
  | .ifElse condition thenBranch (some elseBranch) =>
    condition.sites ++ thenBranch.sites ++ elseBranch.sites
  | .print value => value.sites
  | .return _ none => []
  | .return _ (some value) => value.sites
  | .var _ none => []
  | .var _ (some initializer) => initializer.sites
  | .while condition body => condition.sites ++ body.sites

def Statement.allSites : List Statement → List Site
  | [] => []
  | s :: rest => s.sites ++ Statement.allSites rest

end

theorem Expr.allSites_eq_flatMap (es : List Expr) : Expr.allSites es = es.flatMap Expr.sites := by
  induction es with
  | nil => rfl
  | cons e es ih => simp [Expr.allSites, ih]

/-- Sites that are handed out from `first` on and before `next`, none of them twice. -/
structure FreshSites (first : Nat) (sites : List Nat) (next : Nat) : Prop where
  le : first ≤ next
  nodup : sites.Nodup
  range : ∀ site ∈ sites, first ≤ site ∧ site < next

namespace FreshSites

variable {first middle next : Nat} {us vs : List Nat}

theorem nil (h : first ≤ next) : FreshSites first [] next := ⟨h, .nil, by simp⟩

theorem append (hu : FreshSites first us middle) (hv : FreshSites middle vs next) :
    FreshSites first (us ++ vs) next := by
  have hle := hu.le
  have hle' := hv.le
  refine ⟨by omega, ?_, ?_⟩
  · refine List.nodup_append.2 ⟨hu.nodup, hv.nodup, fun a ha b hb hab => ?_⟩
    have h1 := hu.range a ha
    have h2 := hv.range b hb
    omega
  · intro site hs
    rcases List.mem_append.1 hs with hs | hs
    · have h := hu.range site hs
      omega
    · have h := hv.range site hs
      omega

theorem perm (h : FreshSites first us next) (hp : us.Perm vs) : FreshSites first vs next :=
  ⟨h.le, hp.nodup_iff.1 h.nodup, fun site hs => h.range site (hp.mem_iff.2 hs)⟩

/-- Uses may be dropped. -/
theorem sublist (h : FreshSites first us next) (hs : vs.Sublist us) : FreshSites first vs next :=
  ⟨h.le, h.nodup.sublist hs, fun site hv => h.range site (hs.subset hv)⟩

theorem one (first : Nat) : FreshSites first [first] (first + 1) :=
  ⟨by omega, by simp, by simp⟩

end FreshSites
end Lox
