import Lox.Proofs.Scoping.Layers
import Mathlib.Data.List.Pairwise

/-!
# Places of code

Where code occurs in the trees of a session, binding comes to it, with some number of open scopes.
Equal code may occur at many places. But no two uses have the same site, and so code that uses a
variable occurs at one place only.
-/
namespace Lox

open Binding (Visit UseKind nesting walk sitesOf Among)

/-- The sites of code. -/
def Node.sites : Node → List Site
  | .expression e => e.sites
  | .statement s => s.sites

/-- The visit of code itself, before its parts. -/
def Node.visit : Node → Visit
  | .expression e => .expression e
  | .statement s => .statement s

theorem Node.visit_injective : Function.Injective Node.visit := by
  intro n n' h
  cases n <;> cases n' <;> cases h <;> rfl

/-- Binding comes to this visit in one of some units, with this many scopes open. -/
def VisitedAt (units : List Code) (v : Visit) (depth : Nat) : Prop :=
  ∃ unit ∈ units, ∃ before after, unit.visits = before ++ v :: after ∧
    (walk before .start).scopes.length = depth

theorem Node.visits_eq_cons (n : Node) (i : Bool) : ∃ rest, n.visits i = n.visit :: rest := by
  cases n with
  | expression e => cases e <;> exact ⟨_, rfl⟩
  | statement s =>
    cases s with
    | ifElse _ _ b => cases b <;> exact ⟨_, rfl⟩
    | «return» _ value => cases value <;> exact ⟨_, rfl⟩
    | var _ initializer => cases initializer <;> exact ⟨_, rfl⟩
    | _ => exact ⟨_, rfl⟩

theorem Node.perm_sites (n : Node) (i : Bool) : (sitesOf (n.visits i)).Perm n.sites := by
  cases n with
  | expression e => exact Binding.perm_sites_expression e i
  | statement s => exact Binding.perm_sites_statement s i

theorem Occurs.visitedAt {units : List Code} {n : Node} {depth : Nat} (h : Occurs units n depth) :
    VisitedAt units n.visit depth := by
  obtain ⟨unit, hunit, i, before, after, hvisits, hdepth⟩ := h
  obtain ⟨rest, hrest⟩ := n.visits_eq_cons i
  exact ⟨unit, hunit, before, rest ++ after, by simp [hvisits, hrest],
    Binding.length_walk hdepth⟩

namespace Binding

/-- The visit of code is followed by all visits of its parts. -/
def Headed (visits : List Visit) : Prop :=
  ∀ before (n : Node) after, visits = before ++ n.visit :: after →
    ∃ i rest, n.visit :: after = n.visits i ++ rest

theorem headed_nil : Headed [] := by
  intro before n after h
  simp at h

theorem Headed.append {us vs : List Visit} (hu : Headed us) (hv : Headed vs) :
    Headed (us ++ vs) := by
  intro before n after h
  obtain ⟨mid, rfl, hmid⟩ | ⟨mid, rfl, hmid⟩ := List.append_eq_append_iff.1 h
  · exact hv mid n after hmid
  · cases mid with
    | nil => exact hv [] n after hmid.symm
    | cons v mid =>
      obtain ⟨rfl, rfl⟩ := List.cons_eq_cons.1 hmid
      obtain ⟨i, rest, hrest⟩ := hu before n mid rfl
      exact ⟨i, rest ++ vs, by simpa using congrArg (· ++ vs) hrest⟩

/-- Whether a visit is that of code. -/
def Visit.isNode : Visit → Bool
  | .expression _ => true
  | .statement _ => true
  | _ => false

theorem Headed.cons {v : Visit} {visits : List Visit} (h : Headed visits)
    (hv : v.isNode = false := by rfl) : Headed (v :: visits) := by
  intro before n after heq
  cases before with
  | nil =>
    obtain ⟨rfl, -⟩ := List.cons_eq_cons.1 heq
    cases n <;> cases hv
  | cons w before =>
    obtain ⟨-, rfl⟩ := List.cons_eq_cons.1 heq
    exact h before n after rfl

/-- Code in front of the visits of its parts. -/
theorem Headed.node {n : Node} {i : Bool} {visits : List Visit} (h : Headed visits)
    (hn : n.visits i = n.visit :: visits) : Headed (n.visits i) := by
  intro before n' after heq
  rw [hn] at heq
  cases before with
  | nil =>
    obtain ⟨hvisit, rfl⟩ := List.cons_eq_cons.1 heq
    exact ⟨i, [], by rw [← Node.visit_injective hvisit, hn, List.append_nil]⟩
  | cons w before =>
    obtain ⟨-, rfl⟩ := List.cons_eq_cons.1 heq
    exact h before n' after rfl

theorem headed_parameters (names : List Token) : Headed (Visit.parameters names) := by
  induction names with
  | nil => exact headed_nil
  | cons name names ih => exact .cons <| .cons ih

theorem Headed.function {names : List Token} {body : List Visit} (h : Headed body) :
    Headed (Visit.function names body) :=
  .cons <| ((headed_parameters names).append h).append <| .cons headed_nil

mutual

theorem headed_expression : (e : Expr) → (i : Bool) → Headed (e.visits i)
  | .literal value, i => .node (n := .expression (.literal value)) (i := i) headed_nil rfl
  | .grouping inner, i =>
    .node (n := .expression (.grouping inner)) (headed_expression inner i) rfl
  | .unary operator operand, i =>
    .node (n := .expression (.unary operator operand)) (headed_expression operand i) rfl
  | .binary left operator right, i =>
    .node (n := .expression (.binary left operator right))
      ((headed_expression left i).append <| headed_expression right i) rfl
  | .logical left operator right, i =>
    .node (n := .expression (.logical left operator right))
      ((headed_expression left i).append <| headed_expression right i) rfl
  | .ternary condition thenBranch elseBranch, i =>
    .node (n := .expression (.ternary condition thenBranch elseBranch))
      ((headed_expression condition i).append <| (headed_expression thenBranch i).append <|
        headed_expression elseBranch i) rfl
  | .access site name, i =>
    .node (n := .expression (.access site name)) (i := i) (.cons headed_nil) rfl
  | .assign site name value, i =>
    .node (n := .expression (.assign site name value))
      ((headed_expression value i).append <| .cons headed_nil) rfl
  | .call callee paren arguments, i =>
    .node (n := .expression (.call callee paren arguments))
      ((headed_expression callee i).append <| headed_expressions arguments i) rfl
  | .function keyword parameters body, i =>
    .node (n := .expression (.function keyword parameters body)) (i := i)
      (headed_statements body true).function rfl

theorem headed_expressions : (es : List Expr) → (i : Bool) → Headed (Expr.allVisits es i)
  | [], _ => headed_nil
  | e :: es, i => (headed_expression e i).append <| headed_expressions es i

theorem headed_statement : (s : Statement) → (i : Bool) → Headed (s.visits i)
  | .block ss, i =>
    .node (n := .statement (.block ss))
      (.cons <| (headed_statements ss i).append <| .cons headed_nil) rfl
  | .expression value, i =>
    .node (n := .statement (.expression value)) (headed_expression value i) rfl
  | .function name parameters body, i =>
    .node (n := .statement (.function name parameters body)) (i := i)
      (.cons <| .cons (headed_statements body true).function) rfl
  | .ifElse condition thenBranch none, i =>
    .node (n := .statement (.ifElse condition thenBranch none))
      ((headed_expression condition i).append <| headed_statement thenBranch i) rfl
  | .ifElse condition thenBranch (some elseBranch), i =>
    .node (n := .statement (.ifElse condition thenBranch (some elseBranch)))
      ((headed_expression condition i).append <| (headed_statement thenBranch i).append <|
        headed_statement elseBranch i) rfl
  | .print value, i => .node (n := .statement (.print value)) (headed_expression value i) rfl
  | .return keyword none, i =>
    .node (n := .statement (.return keyword none)) (i := i) (.cons headed_nil) rfl
  | .return keyword (some value), i =>
    .node (n := .statement (.return keyword (some value))) (.cons <| headed_expression value i) rfl
  | .var name none, i =>
    .node (n := .statement (.var name none)) (i := i) (.cons <| .cons headed_nil) rfl
  | .var name (some initializer), i =>
    .node (n := .statement (.var name (some initializer)))
      (.cons <| (headed_expression initializer i).append <| .cons headed_nil) rfl
  | .while condition body, i =>
    .node (n := .statement (.while condition body))
      ((headed_expression condition i).append <| headed_statement body i) rfl

theorem headed_statements : (ss : List Statement) → (i : Bool) →
    Headed (Statement.allVisits ss i)
  | [], _ => headed_nil
  | s :: ss, i => (headed_statement s i).append <| headed_statements ss i

end

theorem headed_code (unit : Code) : Headed unit.visits := by
  match unit with
  | .program ss => exact headed_statements ss false
  | .expression none => exact headed_nil
  | .expression (some e) => exact headed_expression e false

end Binding

theorem VisitedAt.occurs {units : List Code} {n : Node} {depth : Nat}
    (h : VisitedAt units n.visit depth) : Occurs units n depth := by
  obtain ⟨unit, hunit, before, after, hvisits, rfl⟩ := h
  obtain ⟨i, rest, hrest⟩ := Binding.headed_code unit before n after hvisits
  obtain ⟨k, hk⟩ := Binding.exists_nesting_of_append (hvisits ▸ Binding.nesting_code unit 0)
  refine ⟨unit, hunit, i, before, rest, by rw [hvisits, hrest, List.append_assoc], ?_⟩
  rw [hk, Binding.length_walk hk]

/-- Code that is itself a use of a variable. -/
inductive Node.Uses : Node → UseKind → Site → Token → Prop where
  | access {site name} : Uses (.expression (.access site name)) .access site name
  | assignment {site name e} : Uses (.expression (.assign site name e)) .assignment site name

theorem Node.Uses.among {n : Node} {kind : UseKind} {site : Site} {name : Token}
    (h : n.Uses kind site name) (i : Bool) : Among [.use kind site name] 0 (n.visits i) := by
  cases h with
  | access => exact (Binding.among_refl _).cons
  | assignment => exact ((Binding.among_refl _).right (Binding.nesting_expression _ i 0)).cons

theorem Node.Uses.mem_sites {n : Node} {kind : UseKind} {site : Site} {name : Token}
    (h : n.Uses kind site name) : site ∈ n.sites := by
  cases h with
  | access => simp [Node.sites, Expr.sites]
  | assignment => simp [Node.sites, Expr.sites]

namespace Binding

/-- A visit, whether inside a function or not. -/
def Visit.anywhere : Visit → Visit
  | .leaveFunction keyword _ => .leaveFunction keyword false
  | v => v

mutual

/-- Only a `return` tells whether a tree is inside a function. -/
theorem anywhere_expression : (e : Expr) → (i i' : Bool) →
    (e.visits i).map Visit.anywhere = (e.visits i').map Visit.anywhere
  | .literal _, _, _ => rfl
  | .grouping inner, i, i' => by simp [Expr.visits, anywhere_expression inner i i']
  | .unary _ operand, i, i' => by simp [Expr.visits, anywhere_expression operand i i']
  | .binary left _ right, i, i' => by
    simp [Expr.visits, anywhere_expression left i i', anywhere_expression right i i']
  | .logical left _ right, i, i' => by
    simp [Expr.visits, anywhere_expression left i i', anywhere_expression right i i']
  | .ternary condition thenBranch elseBranch, i, i' => by
    simp [Expr.visits, anywhere_expression condition i i', anywhere_expression thenBranch i i',
      anywhere_expression elseBranch i i']
  | .access _ _, _, _ => rfl
  | .assign _ _ value, i, i' => by simp [Expr.visits, anywhere_expression value i i']
  | .call callee _ arguments, i, i' => by
    simp [Expr.visits, anywhere_expression callee i i', anywhere_expressions arguments i i']
  | .function _ _ _, _, _ => rfl

theorem anywhere_expressions : (es : List Expr) → (i i' : Bool) →
    (Expr.allVisits es i).map Visit.anywhere = (Expr.allVisits es i').map Visit.anywhere
  | [], _, _ => rfl
  | e :: es, i, i' => by
    simp [Expr.allVisits, anywhere_expression e i i', anywhere_expressions es i i']

theorem anywhere_statement : (s : Statement) → (i i' : Bool) →
    (s.visits i).map Visit.anywhere = (s.visits i').map Visit.anywhere
  | .block ss, i, i' => by simp [Statement.visits, anywhere_statements ss i i']
  | .expression value, i, i' => by simp [Statement.visits, anywhere_expression value i i']
  | .function _ _ _, _, _ => rfl
  | .ifElse condition thenBranch none, i, i' => by
    simp [Statement.visits, anywhere_expression condition i i',
      anywhere_statement thenBranch i i']
  | .ifElse condition thenBranch (some elseBranch), i, i' => by
    simp [Statement.visits, anywhere_expression condition i i',
      anywhere_statement thenBranch i i', anywhere_statement elseBranch i i']
  | .print value, i, i' => by simp [Statement.visits, anywhere_expression value i i']
  | .return _ none, _, _ => rfl
  | .return _ (some value), i, i' => by
    simp [Statement.visits, Visit.anywhere, anywhere_expression value i i']
  | .var _ none, _, _ => rfl
  | .var _ (some initializer), i, i' => by
    simp [Statement.visits, anywhere_expression initializer i i']
  | .while condition body, i, i' => by
    simp [Statement.visits, anywhere_expression condition i i', anywhere_statement body i i']

theorem anywhere_statements : (ss : List Statement) → (i i' : Bool) →
    (Statement.allVisits ss i).map Visit.anywhere = (Statement.allVisits ss i').map Visit.anywhere
  | [], _, _ => rfl
  | s :: ss, i, i' => by
    simp [Statement.allVisits, anywhere_statement s i i', anywhere_statements ss i i']

end

/-- Some visits with a use in them are among others at one depth only. -/
theorem Among.depth_unique {us us' ws : List Visit} {m m' : Nat} (hn : (sitesOf ws).Nodup)
    (h : Among us m ws) (h' : Among us' m' ws)
    (hsame : us.map Visit.anywhere = us'.map Visit.anywhere) (hne : sitesOf us ≠ []) : m = m' := by
  obtain ⟨site, hsite⟩ := List.exists_mem_of_ne_nil _ hne
  obtain ⟨v, hv, hvsite⟩ := List.mem_filterMap.1 hsite
  obtain ⟨kind, name, rfl⟩ : ∃ kind name, v = .use kind site name := by
    cases v <;> cases hvsite
    exact ⟨_, _, rfl⟩
  obtain ⟨before, after, rfl, hm⟩ := h
  obtain ⟨before', after', hws, hm'⟩ := h'
  -- The use stands at the same distance from the beginning of both parts.
  obtain ⟨front, back, rfl⟩ := List.append_of_mem hv
  rw [List.map_append, List.map_cons] at hsame
  obtain ⟨front', rest', rfl, hfront, hrest⟩ := List.map_eq_append_iff.1 hsame.symm
  obtain ⟨v', back', rfl, hv', -⟩ := List.map_eq_cons_iff.1 hrest
  obtain rfl : v' = .use kind site name := by cases v' <;> cases hv'; rfl
  have hlength : front'.length = front.length := by simpa using congrArg List.length hfront
  have hsplit : before ++ (front ++ .use kind site name :: back) ++ after =
      (before ++ front) ++ .use kind site name :: (back ++ after) := by simp
  have hsplit' : before' ++ (front' ++ .use kind site name :: back') ++ after' =
      (before' ++ front') ++ .use kind site name :: (back' ++ after') := by simp
  obtain ⟨heq, -⟩ := use_unique hn hsplit (hws.trans hsplit')
  obtain ⟨rfl, -⟩ := List.append_inj' heq hlength.symm
  exact Option.some.inj (hm.symm.trans hm')

end Binding

theorem Node.anywhere (n : Node) (i i' : Bool) :
    (n.visits i).map Visit.anywhere = (n.visits i').map Visit.anywhere := by
  cases n with
  | expression e => exact Binding.anywhere_expression e i i'
  | statement s => exact Binding.anywhere_statement s i i'

/-- The uses of code are uses of the unit in which it occurs. -/
theorem Occurs.exists_unit {units : List Code} {n : Node} {depth : Nat}
    (h : Occurs units n depth) : ∃ unit ∈ units, n.sites ⊆ unit.sites ∧
      ∃ i, Among (n.visits i) depth unit.visits := by
  obtain ⟨unit, hunit, i, hamong⟩ := h
  refine ⟨unit, hunit, fun site hsite => ?_, i, hamong⟩
  obtain ⟨before, after, hvisits, -⟩ := hamong
  have hmem : site ∈ sitesOf unit.visits := by
    simp [hvisits, (n.perm_sites i).mem_iff.2 hsite]
  exact (Binding.perm_sites_code unit).subset hmem

/-- No unit has a site of another one. -/
theorem unit_unique {units : List Code}
    (hapart : units.Pairwise fun u u' => List.Disjoint u.sites u'.sites) {u u' : Code}
    (hu : u ∈ units) (hu' : u' ∈ units) {site : Site} (h : site ∈ u.sites) (h' : site ∈ u'.sites) :
    u = u' := by
  by_contra hne
  have hsymm : Std.Symm fun u u' : Code => List.Disjoint u.sites u'.sites :=
    ⟨fun _ _ h _ hb ha => h ha hb⟩
  exact hapart.forall hu hu' hne h h'

/-- Code with a use in it occurs at one depth only. -/
theorem Occurs.depth_unique {units : List Code} {n : Node} {d d' : Nat}
    (hnodup : ∀ u ∈ units, u.sites.Nodup)
    (hapart : units.Pairwise fun u u' => List.Disjoint u.sites u'.sites)
    (hne : n.sites ≠ []) (h : Occurs units n d) (h' : Occurs units n d') : d = d' := by
  obtain ⟨unit, hunit, hsub, i, hamong⟩ := h.exists_unit
  obtain ⟨unit', hunit', hsub', i', hamong'⟩ := h'.exists_unit
  obtain ⟨site, hsite⟩ := List.exists_mem_of_ne_nil _ hne
  obtain rfl := unit_unique hapart hunit hunit' (hsub hsite) (hsub' hsite)
  refine hamong.depth_unique ?_ hamong' (n.anywhere i i') ?_
  · exact (Binding.perm_sites_code unit).nodup_iff.2 (hnodup unit hunit)
  · exact fun hnil => hne ((n.perm_sites i).symm.trans (.of_eq hnil)).eq_nil

end Lox
