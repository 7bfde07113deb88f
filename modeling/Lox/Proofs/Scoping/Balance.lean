import Lox.Proofs.Scoping.Places
import Lox.Proofs.Syntax.Parts

/-!
# A pass leaves its state balanced

Whatever state a pass over a tree begins in, it ends with the same scopes open and inside a function
just if it began there. An expression leaves the scopes as they are. A statement adds the names that
it declares directly in the innermost scope, and they may be read afterwards. What was recorded
before stays recorded, and what is new was recorded for a use in the tree.
-/
namespace Lox

open Binding (Visit walk UseKind Names)

/-- The names that a statement declares in the scope in which it stands, in the order in which this
happens. -/
def Statement.declared : Statement → List Token
  | .function name _ _ => [name]
  | .ifElse _ thenBranch none => thenBranch.declared
  | .ifElse _ thenBranch (some elseBranch) => thenBranch.declared ++ elseBranch.declared
  | .var name _ => [name]
  | .while _ body => body.declared
  | _ => []

/-- An expression declares nothing in the scope in which it stands. -/
def Node.declared : Node → List Token
  | .expression _ => []
  | .statement s => s.declared

namespace Binding

/-- What was recorded so far. -/
def Progress.table (p : Progress) : Table := Table.install [] p.entries.reverse

/-- The open scopes behind the declarations of some names. -/
def declaringAll (names : List Token) (scopes : List Names) : List Names :=
  names.foldl (fun scopes name => declaring name.lexeme scopes) scopes

/-- What a pass over some code may do to its state. -/
structure Balanced (n : Node) (p p' : Progress) : Prop where
  /-- As many scopes are open as before. -/
  length : p'.scopes.length = p.scopes.length
  /-- Only the innermost scope may change. -/
  outer : p'.scopes.tail = p.scopes.tail
  /-- It has the names that the code declares in it, ready to be read, and its other names as they
  were. -/
  inner : ∀ names ∈ p.scopes.head?, ∃ names' ∈ p'.scopes.head?, ∀ name,
    names'.lookup name =
      if name ∈ n.declared.map (·.lexeme) then some true else names.lookup name
  insideFunction : p'.insideFunction = p.insideFunction
  /-- What was recorded before counts as before. -/
  kept : ∀ site hops, p.table.lookup site = some hops → p'.table.lookup site = some hops
  /-- What is new was recorded for a use in the code. -/
  added : ∀ site hops, p'.table.lookup site = some hops → p.table.lookup site = none →
    ∃ m kind name, n.Within m ∧ m.Uses kind site name

theorem declaringAll_append (us vs : List Token) (scopes : List Names) :
    declaringAll (us ++ vs) scopes = declaringAll vs (declaringAll us scopes) := by
  simp [declaringAll]

@[simp] theorem tail_declaringAll (names : List Token) (scopes : List Names) :
    (declaringAll names scopes).tail = scopes.tail := by
  induction names generalizing scopes with
  | nil => rfl
  | cons name names ih => simpa [declaringAll, declaring] using ih (declaring name.lexeme scopes)

@[simp] theorem length_declaringAll (names : List Token) (scopes : List Names) :
    (declaringAll names scopes).length = scopes.length := by
  induction names generalizing scopes with
  | nil => rfl
  | cons name names ih => exact (ih _).trans (by cases scopes <;> rfl)

theorem scopes_parameters (names : List Token) (p : Progress) :
    (walk (Visit.parameters names) p).scopes = declaringAll names p.scopes := by
  induction names generalizing p with
  | nil => rfl
  | cons name names ih => exact ih _

/-- The scope of a function is closed again. -/
theorem scopes_function (names : List Token) {body : List Visit}
    (h : ∀ p, (walk body p).scopes.tail = p.scopes.tail) (p : Progress) :
    (walk (Visit.function names body) p).scopes = p.scopes := by
  simp [Visit.function, Visit.step, h, scopes_parameters]

mutual

theorem scopes_expression : (e : Expr) → (i : Bool) → (p : Progress) →
    (walk (e.visits i) p).scopes = p.scopes
  | .literal _, _, _ => rfl
  | .grouping inner, i, p => scopes_expression inner i p
  | .unary _ operand, i, p => scopes_expression operand i p
  | .binary left _ right, i, p => by
    simp [Expr.visits, Visit.step, scopes_expression left, scopes_expression right]
  | .logical left _ right, i, p => by
    simp [Expr.visits, Visit.step, scopes_expression left, scopes_expression right]
  | .ternary condition thenBranch elseBranch, i, p => by
    simp [Expr.visits, Visit.step, scopes_expression condition, scopes_expression thenBranch,
      scopes_expression elseBranch]
  | .access _ _, _, _ => rfl
  | .assign _ _ value, i, p => by
    simp [Expr.visits, Visit.step, scopes_expression value]
  | .call callee _ arguments, i, p => by
    simp [Expr.visits, Visit.step, scopes_expression callee, scopes_expressions arguments]
  | .function _ parameters body, _, p =>
    scopes_function parameters (tail_scopes_statements body true) p

theorem scopes_expressions : (es : List Expr) → (i : Bool) → (p : Progress) →
    (walk (Expr.allVisits es i) p).scopes = p.scopes
  | [], _, _ => rfl
  | e :: es, i, p => by
    simp [Expr.allVisits, scopes_expression e, scopes_expressions es]

theorem scopes_statement : (s : Statement) → (i : Bool) → (p : Progress) →
    (walk (s.visits i) p).scopes = declaringAll s.declared p.scopes
  | .block ss, i, p => by
    simp [Statement.visits, Visit.step, Statement.declared, declaringAll,
      tail_scopes_statements ss]
  | .expression value, i, p => scopes_expression value i p
  | .function _ parameters body, _, p =>
    scopes_function parameters (tail_scopes_statements body true) _
  | .ifElse condition thenBranch none, i, p => by
    simp [Statement.visits, Visit.step, Statement.declared, scopes_expression condition,
      scopes_statement thenBranch]
  | .ifElse condition thenBranch (some elseBranch), i, p => by
    simp [Statement.visits, Visit.step, Statement.declared, scopes_expression condition,
      scopes_statement thenBranch, scopes_statement elseBranch, declaringAll_append]
  | .print value, i, p => scopes_expression value i p
  | .return _ none, _, _ => rfl
  | .return _ (some value), i, p => scopes_expression value i _
  | .var _ none, _, _ => rfl
  | .var _ (some initializer), i, p => by
    simp [Statement.visits, Visit.step, Statement.declared, scopes_expression initializer,
      declaringAll, declaring]
  | .while condition body, i, p => by
    simp [Statement.visits, Visit.step, Statement.declared, scopes_expression condition,
      scopes_statement body]

theorem tail_scopes_statements : (ss : List Statement) → (i : Bool) → (p : Progress) →
    (walk (Statement.allVisits ss i) p).scopes.tail = p.scopes.tail
  | [], _, _ => rfl
  | s :: ss, i, p => by
    simp [Statement.allVisits, scopes_statement s, tail_scopes_statements ss]

end

theorem scopes_node (n : Node) (i : Bool) (p : Progress) :
    (walk (n.visits i) p).scopes = declaringAll n.declared p.scopes := by
  cases n with
  | expression e => exact scopes_expression e i p
  | statement s => exact scopes_statement s i p

/-- The names that are declared may be read, and the others are as they were. -/
theorem lookup_declaringAll (declared : List Token) (names : Names) (outer : List Names) :
    ∃ names', declaringAll declared (names :: outer) = names' :: outer ∧ ∀ name,
      names'.lookup name =
        if name ∈ declared.map (·.lexeme) then some true else names.lookup name := by
  induction declared generalizing names with
  | nil => exact ⟨names, rfl, fun _ => by simp⟩
  | cons d declared ih =>
    obtain ⟨names', heq, hlookup⟩ := ih ((d.lexeme, true) :: (d.lexeme, false) :: names)
    refine ⟨names', heq, fun name => ?_⟩
    rw [hlookup]
    by_cases hrest : name ∈ declared.map (·.lexeme)
    · rw [if_pos hrest, if_pos (by simp [hrest])]
    · by_cases hd : name = d.lexeme
      · rw [if_neg hrest, if_pos (by simp [hd]), hd, List.lookup_cons_self]
      · rw [if_neg hrest, if_neg (by simp_all), List.lookup_cons, List.lookup_cons,
          beq_false_of_ne hd]

/-- The newest entry of a use is what was recorded for it. -/
theorem Progress.lookup_table (p : Progress) (site : Site) :
    p.table.lookup site = (p.entries.find? (·.site = site)).map (·.hops) := by
  rw [table, lookup_install, List.lookup_nil, Option.or_none]

theorem entries_step (v : Visit) (p : Progress) :
    ∃ new, (v.step p).entries = new ++ p.entries ∧ ∀ e ∈ new, e.visit = v := by
  cases v with
  | use kind site name =>
    cases hhops : hops? name.lexeme p.scopes with
    | none => exact ⟨[], by simp [Visit.step, hhops], by simp⟩
    | some hops =>
      exact ⟨[⟨kind, site, name, hops⟩], by simp [Visit.step, hhops], by simp [Entry.visit]⟩
  | _ => exact ⟨[], rfl, by simp⟩

/-- Every new entry is one of a use on the way. -/
theorem entries_walk (visits : List Visit) (p : Progress) :
    ∃ new, (walk visits p).entries = new ++ p.entries ∧ ∀ e ∈ new, e.visit ∈ visits := by
  induction visits generalizing p with
  | nil => exact ⟨[], rfl, by simp⟩
  | cons v visits ih =>
    obtain ⟨first, hfirst, hv⟩ := entries_step v p
    obtain ⟨new, heq, hnew⟩ := ih (v.step p)
    refine ⟨new ++ first, by rw [walk_cons, heq, hfirst, List.append_assoc], fun e he => ?_⟩
    rcases List.mem_append.1 he with he | he
    · exact .tail _ (hnew e he)
    · exact hv e he ▸ .head _

/-- What is found behind a walk was found before it, or has an entry of a use on the way. -/
theorem lookup_walk (visits : List Visit) (p : Progress) (site : Site) :
    (walk visits p).table.lookup site = p.table.lookup site ∨
      ∃ kind name, .use kind site name ∈ visits := by
  obtain ⟨new, heq, hnew⟩ := entries_walk visits p
  by_cases h : ∃ e ∈ new, e.site = site
  · obtain ⟨e, he, rfl⟩ := h
    exact .inr ⟨e.kind, e.name, hnew e he⟩
  · have hnone : new.find? (·.site = site) = none := by
      simpa using h
    left
    rw [Progress.lookup_table, Progress.lookup_table, heq, List.find?_append, hnone, Option.none_or]

/-- Every use among some visits is a use within some code. -/
def UsedWithin (n : Node) (visits : List Visit) : Prop :=
  ∀ kind site name, .use kind site name ∈ visits → ∃ m, n.Within m ∧ m.Uses kind site name

namespace UsedWithin

variable {n m : Node} {k : Nat} {v : Visit} {us vs : List Visit}

theorem nil : UsedWithin n [] := by simp [UsedWithin]

theorem append (hu : UsedWithin n us) (hv : UsedWithin n vs) : UsedWithin n (us ++ vs) :=
  fun kind site name h => (List.mem_append.1 h).elim (hu kind site name) (hv kind site name)

theorem cons (h : UsedWithin n vs) (hv : v.site? = none := by rfl) : UsedWithin n (v :: vs) := by
  intro kind site name hmem
  rcases List.mem_cons.1 hmem with rfl | hmem
  · cases hv
  · exact h kind site name hmem

/-- What is within a part is within the whole. -/
theorem part (h : UsedWithin m vs) (hm : n.Part k m) : UsedWithin n vs := by
  intro kind site name hmem
  obtain ⟨q, hwithin, huses⟩ := h kind site name hmem
  exact ⟨q, .head ⟨k, hm⟩ hwithin, huses⟩

theorem use {kind : UseKind} {site : Site} {name : Token} (h : n.Uses kind site name) :
    UsedWithin n [.use kind site name] := by
  intro kind' site' name' hmem
  obtain ⟨rfl, rfl, rfl⟩ : kind' = kind ∧ site' = site ∧ name' = name := by simpa using hmem
  exact ⟨n, .refl, h⟩

theorem parameters (names : List Token) : UsedWithin n (Visit.parameters names) := by
  induction names with
  | nil => exact nil
  | cons name names ih => exact .cons (.cons ih)

theorem function {names : List Token} (h : UsedWithin n vs) :
    UsedWithin n (Visit.function names vs) :=
  .cons (((parameters names).append h).append (.cons nil))

end UsedWithin

mutual

theorem usedWithin_expression : (e : Expr) → (i : Bool) → UsedWithin (.expression e) (e.visits i)
  | .literal _, _ => .cons .nil
  | .grouping inner, i => .cons ((usedWithin_expression inner i).part .grouping)
  | .unary _ operand, i => .cons ((usedWithin_expression operand i).part .operand)
  | .binary left _ right, i =>
    .cons (((usedWithin_expression left i).part .binaryLeft).append
      ((usedWithin_expression right i).part .binaryRight))
  | .logical left _ right, i =>
    .cons (((usedWithin_expression left i).part .logicalLeft).append
      ((usedWithin_expression right i).part .logicalRight))
  | .ternary condition thenBranch elseBranch, i =>
    .cons (((usedWithin_expression condition i).part .ternaryCondition).append
      (((usedWithin_expression thenBranch i).part .ternaryThen).append
        ((usedWithin_expression elseBranch i).part .ternaryElse)))
  | .access _ _, _ => .cons (.use .access)
  | .assign _ _ value, i =>
    .cons (((usedWithin_expression value i).part .assigned).append (.use .assignment))
  | .call callee _ arguments, i =>
    .cons (((usedWithin_expression callee i).part .callee).append
      (usedWithin_expressions arguments i fun _ h => .argument h))
  | .function _ _ body, _ =>
    .cons (.function (usedWithin_statements body true fun _ h => .literalBody h))

/-- Parts that stand in a list. -/
theorem usedWithin_expressions {n : Node} {k : Nat} : (es : List Expr) → (i : Bool) →
    (∀ e ∈ es, n.Part k (.expression e)) → UsedWithin n (Expr.allVisits es i)
  | [], _, _ => .nil
  | e :: es, i, h =>
    ((usedWithin_expression e i).part (h e (.head _))).append
      (usedWithin_expressions es i fun e' he' => h e' (.tail _ he'))

theorem usedWithin_statement : (s : Statement) → (i : Bool) →
    UsedWithin (.statement s) (s.visits i)
  | .block ss, i =>
    .cons (.cons ((usedWithin_statements ss i fun _ h => .blockBody h).append (.cons .nil)))
  | .expression value, i => .cons ((usedWithin_expression value i).part .value)
  | .function _ _ body, _ =>
    .cons (.cons (.cons (.function (usedWithin_statements body true fun _ h => .functionBody h))))
  | .ifElse condition thenBranch none, i =>
    .cons (((usedWithin_expression condition i).part .ifCondition).append
      ((usedWithin_statement thenBranch i).part .thenBranch))
  | .ifElse condition thenBranch (some elseBranch), i =>
    .cons (((usedWithin_expression condition i).part .ifCondition).append
      (((usedWithin_statement thenBranch i).part .thenBranch).append
        ((usedWithin_statement elseBranch i).part .elseBranch)))
  | .print value, i => .cons ((usedWithin_expression value i).part .printed)
  | .return _ none, _ => .cons (.cons .nil)
  | .return _ (some value), i => .cons (.cons ((usedWithin_expression value i).part .returned))
  | .var _ none, _ => .cons (.cons (.cons .nil))
  | .var _ (some initializer), i =>
    .cons (.cons (((usedWithin_expression initializer i).part .initializer).append (.cons .nil)))
  | .while condition body, i =>
    .cons (((usedWithin_expression condition i).part .loopCondition).append
      ((usedWithin_statement body i).part .loopBody))

theorem usedWithin_statements {n : Node} {k : Nat} : (ss : List Statement) → (i : Bool) →
    (∀ s ∈ ss, n.Part k (.statement s)) → UsedWithin n (Statement.allVisits ss i)
  | [], _, _ => .nil
  | s :: ss, i, h =>
    ((usedWithin_statement s i).part (h s (.head _))).append
      (usedWithin_statements ss i fun s' hs' => h s' (.tail _ hs'))

end

theorem usedWithin_node (n : Node) (i : Bool) : UsedWithin n (n.visits i) := by
  cases n with
  | expression e => exact usedWithin_expression e i
  | statement s => exact usedWithin_statement s i

theorem Node.mem_sites_of_use {n : Node} {i : Bool} {kind : UseKind} {site : Site} {name : Token}
    (h : .use kind site name ∈ n.visits i) : site ∈ n.sites :=
  (n.perm_sites i).subset (List.mem_filterMap.2 ⟨_, h, rfl⟩)

/-- A walk along the visits of code of which nothing is recorded yet leaves its state balanced. -/
theorem balanced_walk {n : Node} {p : Progress}
    (hnew : ∀ site ∈ n.sites, p.table.lookup site = none) (i : Bool) :
    Balanced n p (walk (n.visits i) p) := by
  have hscopes := scopes_node n i p
  refine ⟨by rw [hscopes, length_declaringAll], by rw [hscopes, tail_declaringAll],
    fun names hnames => ?_, insideFunction_walk _ p, fun site hops h => ?_,
    fun site hops h hnone => ?_⟩
  · obtain ⟨outer, hp⟩ := List.head?_eq_some_iff.1 hnames
    obtain ⟨names', heq, hlookup⟩ := lookup_declaringAll n.declared names outer
    exact ⟨names', by rw [hscopes, hp, heq]; rfl, hlookup⟩
  · -- Nothing was recorded before for the uses on the way.
    rcases lookup_walk (n.visits i) p site with hsame | ⟨kind, name, huse⟩
    · rw [hsame, h]
    · cases h.symm.trans (hnew site (Node.mem_sites_of_use huse))
  · rcases lookup_walk (n.visits i) p site with hsame | ⟨kind, name, huse⟩
    · cases h.symm.trans (hsame.trans hnone)
    · obtain ⟨m, hwithin, huses⟩ := usedWithin_node n i kind site name huse
      exact ⟨m, kind, name, hwithin, huses⟩

/-- Passes over trees of which nothing is recorded yet leave every state balanced, whatever they
report, and get to the end just if there is room. An expression leaves the scopes as they are. -/
theorem passes_balanced (room : Nat) (p : Progress) :
    (∀ e : Expr, (∀ site ∈ e.sites, p.table.lookup site = none) →
      Ends (expression room e) p
        (fun _ p' => e.depth ≤ room ∧ p'.scopes = p.scopes ∧ Balanced (.expression e) p p')
        fun _ _ => ¬ e.depth ≤ room) ∧
    ∀ s : Statement, (∀ site ∈ s.sites, p.table.lookup site = none) →
      Ends (statement room s) p (fun _ p' => s.depth ≤ room ∧ Balanced (.statement s) p p')
        fun _ _ => ¬ s.depth ≤ room := by
  constructor
  · intro e hnew
    refine (logs_expression e room p).imp (fun _ p' h => ⟨h.1, ?_, ?_⟩) fun _ _ h => h
    · rw [h.2, scopes_expression]
    · rw [h.2]
      exact balanced_walk (n := .expression e) hnew _
  · intro s hnew
    refine (logs_statement s room p).imp (fun _ p' h => ⟨h.1, ?_⟩) fun _ _ h => h
    rw [h.2]
    exact balanced_walk (n := .statement s) hnew _

/-- The text `fun (a) { return x = a; }`. -/
def assigningLiteral : Expr :=
  .function ⟨.fun, "fun", .nil, 1⟩ [⟨.identifier, "a", .nil, 1⟩]
    [.return ⟨.return, "return", .nil, 1⟩
      (some (.assign 0 ⟨.identifier, "x", .nil, 1⟩ (.access 1 ⟨.identifier, "a", .nil, 1⟩)))]

/-- The text `if (x) var y = fun (a) { return x = a; };`. -/
def declaringBranch : Statement :=
  .ifElse (.access 2 ⟨.identifier, "x", .nil, 1⟩)
    (.var ⟨.identifier, "y", .nil, 1⟩ (some assigningLiteral)) none

/-- The initializer of `x` is not over, and there is a use of `z` behind. -/
def initializing : Progress :=
  ⟨[[("x", false)], [("z", true)]], false, [⟨.access, 3, ⟨.identifier, "z", .nil, 1⟩, 1⟩], []⟩

theorem passes_balanced_initializing :
    (∀ site ∈ declaringBranch.sites, initializing.table.lookup site = none) ∧
    (∃ p', expression 5 assigningLiteral initializing = .ok () p' ∧
      p'.scopes = initializing.scopes ∧ p'.table = [(0, 1), (1, 0), (3, 1)]) ∧
    ∃ p', statement 7 declaringBranch initializing = .ok () p' ∧
      Balanced (.statement declaringBranch) initializing p' ∧
      p'.scopes = [[("y", true), ("y", false), ("x", false)], [("z", true)]] := by
  have hnew : ∀ site ∈ declaringBranch.sites, initializing.table.lookup site = none := by decide
  refine ⟨hnew, ⟨_, rfl, ?_, ?_⟩, ⟨_, rfl, ?_, ?_⟩⟩
  · exact ((passes_balanced 5 initializing).1 assigningLiteral (by decide)).2.1
  · decide
  · exact ((passes_balanced 7 initializing).2 declaringBranch hnew).2
  · decide

end Binding
end Lox
