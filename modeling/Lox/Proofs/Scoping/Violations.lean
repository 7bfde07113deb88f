import Lox.Proofs.Scoping.LexicalScope

/-!
# Every report is a violation

A pass reports three things: a name that is declared again in its scope, a variable that is read in
its own initializer, and a `return` outside of every function. Here each of them is a condition on
the visits of the tree, without the marks that the pass keeps for the names and without its flag for
functions. `Violations` reads the visits from the first to the last and has one report at each
violation. The reports of a pass are these and no others.
-/
namespace Lox
namespace Binding

/-- What a visit says of a name in the innermost scope: whether it may be read. -/
def Visit.mark? : Visit → Option (String × Bool)
  | .declare name => some (name.lexeme, false)
  | .settle name => some (name.lexeme, true)
  | _ => none

/-- None of some visits says anything of a name directly in the scope that has this many open scopes
inside it in the end. -/
def Unmarked (visits : List Visit) (name : String) (hops : Nat) : Prop :=
  ∀ us v vs, visits = us ++ v :: vs → nesting vs 0 = some hops →
    ∀ ready, v.mark? ≠ some (name, ready)

/-- What was said last of a name in a scope that is still open. The top level is no scope. -/
def LatestMark (before : List Visit) (name : String) (hops : Nat) (ready : Bool) : Prop :=
  ∃ outer v inner outside, before = outer ++ v :: inner ∧ v.mark? = some (name, ready) ∧
    nesting outer 0 = some (outside + 1) ∧ nesting inner 0 = some hops ∧ Unmarked inner name hops

theorem nesting_snoc {visits : List Visit} {v : Visit} {hops : Nat} :
    nesting (visits ++ [v]) 0 = some hops ↔
      ∃ k, nesting visits 0 = some k ∧ Visit.nests k v = some hops := by
  simp [Option.bind_eq_some_iff]

/-- Different numbers of scopes stay different. -/
theorem Visit.nests_injective {v : Visit} {k m hops : Nat} (hk : nests k v = some hops)
    (hm : nests m v = some hops) : k = m := by
  cases v <;> cases k <;> cases m <;> simp [nests] at hk hm ⊢ <;> omega

theorem unmarked_nil (name : String) (hops : Nat) : Unmarked [] name hops := by
  intro us v vs h
  simp at h

theorem unmarked_snoc {visits : List Visit} {v : Visit} {name : String} {k hops : Nat}
    (hk : Visit.nests k v = some hops) :
    Unmarked (visits ++ [v]) name hops ↔
      Unmarked visits name k ∧ (hops = 0 → ∀ ready, v.mark? ≠ some (name, ready)) := by
  constructor
  · refine fun h => ⟨fun us w vs heq hvs => ?_, fun hzero => ?_⟩
    · exact h us w (vs ++ [v]) (by simp [heq]) (nesting_snoc.2 ⟨k, hvs, hk⟩)
    · exact h visits v [] rfl (by rw [hzero, nesting_nil])
  · rintro ⟨h, hlast⟩ us w vs heq hvs
    obtain ⟨-, rfl, rfl⟩ | ⟨rest, rfl, hvisits⟩ := append_singleton_eq heq
    · exact hlast (Option.some.inj hvs).symm
    · obtain ⟨m, hm, hnests⟩ := nesting_snoc.1 hvs
      exact h us w rest hvisits (Visit.nests_injective hnests hk ▸ hm)

theorem latestMark_snoc {before : List Visit} {v : Visit} {name : String} {hops : Nat}
    {ready : Bool} :
    LatestMark (before ++ [v]) name hops ready ↔
      (∃ outside, v.mark? = some (name, ready) ∧ nesting before 0 = some (outside + 1) ∧ hops = 0) ∨
      ∃ k, LatestMark before name k ready ∧ Visit.nests k v = some hops ∧
        (hops = 0 → ∀ r, v.mark? ≠ some (name, r)) := by
  constructor
  · rintro ⟨outer, w, inner, outside, heq, hw, houter, hinner, hun⟩
    obtain ⟨rfl, rfl, rfl⟩ | ⟨inner, rfl, rfl⟩ := append_singleton_eq heq
    · exact .inl ⟨outside, hw, houter, (Option.some.inj hinner).symm⟩
    · obtain ⟨k, hk, hlast⟩ := nesting_snoc.1 hinner
      obtain ⟨hun, hlater⟩ := (unmarked_snoc hlast).1 hun
      exact .inr ⟨k, ⟨outer, w, inner, outside, rfl, hw, houter, hk, hun⟩, hlast, hlater⟩
  · rintro (⟨outside, hv, houter, rfl⟩ |
      ⟨k, ⟨outer, w, inner, outside, rfl, hw, houter, hk, hun⟩, hlast, hlater⟩)
    · exact ⟨before, v, [], outside, rfl, hv, houter, rfl, unmarked_nil _ _⟩
    · exact ⟨outer, w, inner ++ [v], outside, by simp, hw, houter, nesting_snoc.2 ⟨k, hk, hlast⟩,
        (unmarked_snoc hlast).2 ⟨hun, hlater⟩⟩

/-- One of some scopes, counted from the innermost one, says whether a name may be read. -/
def Says (scopes : List Names) (name : String) (hops : Nat) (ready : Bool) : Prop :=
  ∃ names, scopes[hops]? = some names ∧ names.lookup name = some ready

theorem says_enter {scopes : List Names} {name : String} {hops : Nat} {ready : Bool} :
    Says ([] :: scopes) name hops ready ↔ ∃ k, Says scopes name k ready ∧ k + 1 = hops := by
  cases hops <;> simp [Says]

theorem says_tail {scopes : List Names} {name : String} {hops : Nat} {ready : Bool} :
    Says scopes.tail name hops ready ↔ Says scopes name (hops + 1) ready := by
  simp [Says]

theorem says_marked {scopes : List Names} {name other : String} {ready r : Bool} {hops : Nat} :
    Says (marked other r scopes) name hops ready ↔
      (scopes ≠ [] ∧ (other, r) = (name, ready) ∧ hops = 0) ∨
        (Says scopes name hops ready ∧ ¬ (other = name ∧ hops = 0)) := by
  cases scopes with
  | nil => simp [Says, marked]
  | cons names outer =>
    cases hops with
    | zero =>
      by_cases h : name = other
      · simp [Says, marked, h]
      · simp [Says, marked, List.lookup_cons, beq_false_of_ne h, Ne.symm h]
    | succ hops => simp [Says, marked]

/-- A walk has said of a name in a scope what it said last. -/
theorem says_walk {visits : List Visit} {n : Nat} (hn : nesting visits 0 = some n) {name : String}
    {hops : Nat} {ready : Bool} :
    Says (walk visits .start).scopes name hops ready ↔ LatestMark visits name hops ready := by
  induction visits using List.reverseRecOn generalizing n hops with
  | nil => simp [Says, LatestMark, Progress.start]
  | append_singleton visits v ih =>
    obtain ⟨m, hm⟩ := exists_nesting_of_append hn
    have hopen : (walk visits .start).scopes ≠ [] ↔
        ∃ outside, nesting visits 0 = some (outside + 1) := by
      have hlength : (walk visits .start).scopes.length = m := length_walk hm
      rw [← List.length_pos_iff, hlength, hm]
      cases m <;> simp
    replace ih := @ih m hm
    rw [latestMark_snoc, walk_append, walk_cons, walk_nil]
    cases v with
    | enter => simp [Visit.step, Visit.nests, Visit.mark?, says_enter, ih]
    | leave =>
      have hnests (k : Nat) : Visit.nests k .leave = some hops ↔ k = hops + 1 := by
        cases k <;> simp [Visit.nests]
      simp [Visit.step, Visit.mark?, says_tail, ih, hnests]
    | declare token | settle token =>
      simp only [Visit.step, Visit.nests, Visit.mark?, says_marked, ih, hopen]
      grind
    | _ => simp [Visit.step, Visit.nests, Visit.mark?, ih]

/-- A name may not be read if its nearest scope says so. -/
theorem readable_eq_false_iff {name : String} {scopes : List Names} :
    readable name scopes = false ↔ ∃ hops, hops? name scopes = some hops ∧
      Says scopes name hops false := by
  induction scopes with
  | nil => simp [readable, hops?]
  | cons names outer ih =>
    cases h : names.lookup name with
    | none =>
      simp only [readable, hops?] at ih
      simp [readable, hops?, h, ih, List.findIdx?_cons, Says]
    | some ready => simp [readable, hops?, h, List.findIdx?_cons, Says]

/-- What is visited of a function before its scope begins. -/
inductive FunctionHead (names : List Token) (body : List Statement) : List Visit → Prop where
  | expression (keyword : Token) :
    FunctionHead names body [.expression (.function keyword names body)]
  | statement (name : Token) :
    FunctionHead names body [.statement (.function name names body), .declare name, .settle name]

/-- A visit with these before it is one of the body of a function. -/
def WithinFunction (before : List Visit) (v : Visit) : Prop :=
  ∃ outer names body head inner rest, FunctionHead names body head ∧
    before = outer ++ (head ++ .enter :: (Visit.parameters names ++ inner)) ∧
    Statement.allVisits body true = inner ++ v :: rest

/-- A declaration is over at once, or it is that of a variable and is over behind its initializer.
The flag of a `return` is that of the tree, or the tree has a function around it. -/
def Placed (i : Bool) (before : List Visit) : Visit → (after : List Visit) → Prop
  | .declare token, after =>
    (∃ rest, after = .settle token :: rest) ∨
      ∃ outer initializer inside rest,
        before = outer ++ [.statement (.var token (some initializer))] ∧
        after = initializer.visits inside ++ .settle token :: rest
  | .leaveFunction keyword inside, _ =>
    inside = i ∨ (inside = true ∧ WithinFunction before (.leaveFunction keyword inside))
  | _, _ => True

/-- All of some visits stand where they have to, with others before and behind them. -/
def AllPlaced (i : Bool) (before visits after : List Visit) : Prop :=
  ∀ us v vs, visits = us ++ v :: vs → Placed i (before ++ us) v (vs ++ after)

section
variable {i : Bool} {before us vs after : List Visit}

@[simp] theorem allPlaced_nil : AllPlaced i before [] after := by
  intro us v vs h
  simp at h

@[simp] theorem allPlaced_cons {v : Visit} : AllPlaced i before (v :: vs) after ↔
    Placed i before v (vs ++ after) ∧ AllPlaced i (before ++ [v]) vs after := by
  constructor
  · refine fun h => ⟨by simpa using h [] v vs rfl, fun us w ws heq => ?_⟩
    simpa using h (v :: us) w ws (by simp [heq])
  · rintro ⟨hv, h⟩ us w ws heq
    cases us with
    | nil =>
      obtain ⟨rfl, rfl⟩ := List.cons_eq_cons.1 heq
      simpa using hv
    | cons u us =>
      obtain ⟨rfl, hrest⟩ := List.cons_eq_cons.1 heq
      simpa using h us w ws hrest

@[simp] theorem allPlaced_append : AllPlaced i before (us ++ vs) after ↔
    AllPlaced i before us (vs ++ after) ∧ AllPlaced i (before ++ us) vs after := by
  induction us generalizing before with
  | nil => simp
  | cons u us ih => simp [ih, and_assoc]

@[simp] theorem allPlaced_parameters (names : List Token) :
    AllPlaced i before (Visit.parameters names) after := by
  induction names generalizing before with
  | nil => exact allPlaced_nil
  | cons name names ih =>
    rw [Visit.parameters, List.flatMap_cons, allPlaced_append]
    exact ⟨by simp [Placed], ih⟩

/-- The body of a function stands inside it, whatever is around the function. -/
theorem allPlaced_function {names : List Token} {body : List Statement} {head : List Visit}
    (hhead : FunctionHead names body head)
    (h : ∀ before after, AllPlaced true before (Statement.allVisits body true) after) :
    AllPlaced i (before ++ head) (Visit.function names (Statement.allVisits body true)) after := by
  rw [Visit.function, List.append_assoc, allPlaced_cons, allPlaced_append, allPlaced_append]
  refine ⟨trivial, allPlaced_parameters names, fun us v vs heq => ?_, by simp [Placed]⟩
  have hv := h (before ++ head ++ [.enter] ++ Visit.parameters names) ([.leave] ++ after) us v vs
    heq
  cases v with
  | leaveFunction keyword inside =>
    obtain rfl : inside = true := hv.elim id And.left
    exact .inr ⟨rfl, before, names, body, head, us, vs, hhead, by simp, heq⟩
  | _ => exact hv

end

mutual

/-- The visits of a tree stand where they have to. -/
theorem allPlaced_expression : (e : Expr) → (i : Bool) → (before after : List Visit) →
    AllPlaced i before (e.visits i) after
  | .literal _, _, _, _ => by simp [Expr.visits, Placed]
  | .grouping inner, i, _, _ => by
    simp [Expr.visits, Placed, allPlaced_expression inner i]
  | .unary _ operand, i, _, _ => by
    simp [Expr.visits, Placed, allPlaced_expression operand i]
  | .binary left _ right, i, _, _ => by
    simp [Expr.visits, Placed, allPlaced_expression left i, allPlaced_expression right i]
  | .logical left _ right, i, _, _ => by
    simp [Expr.visits, Placed, allPlaced_expression left i, allPlaced_expression right i]
  | .ternary condition thenBranch elseBranch, i, _, _ => by
    simp [Expr.visits, Placed, allPlaced_expression condition i,
      allPlaced_expression thenBranch i, allPlaced_expression elseBranch i]
  | .access _ _, _, _, _ => by simp [Expr.visits, Placed]
  | .assign _ _ value, i, _, _ => by
    simp [Expr.visits, Placed, allPlaced_expression value i]
  | .call callee _ arguments, i, _, _ => by
    simp [Expr.visits, Placed, allPlaced_expression callee i, allPlaced_expressions arguments i]
  | .function keyword names body, _, _, _ => by
    rw [Expr.visits, allPlaced_cons]
    exact ⟨trivial, allPlaced_function (.expression keyword) (allPlaced_statements body true)⟩

theorem allPlaced_expressions : (es : List Expr) → (i : Bool) → (before after : List Visit) →
    AllPlaced i before (Expr.allVisits es i) after
  | [], _, _, _ => allPlaced_nil
  | e :: es, i, _, _ => by
    simp [Expr.allVisits, allPlaced_expression e i, allPlaced_expressions es i]

theorem allPlaced_statement : (s : Statement) → (i : Bool) → (before after : List Visit) →
    AllPlaced i before (s.visits i) after
  | .block ss, i, _, _ => by simp [Statement.visits, Placed, allPlaced_statements ss i]
  | .expression value, i, _, _ => by
    simp [Statement.visits, Placed, allPlaced_expression value i]
  | .function name names body, _, before, after => by
    rw [Statement.visits, allPlaced_cons, allPlaced_cons, allPlaced_cons]
    refine ⟨trivial, .inl ⟨_, rfl⟩, trivial, ?_⟩
    rw [List.append_assoc, List.append_assoc]
    exact allPlaced_function (.statement name) (allPlaced_statements body true)
  | .ifElse condition thenBranch none, i, _, _ => by
    simp [Statement.visits, Placed, allPlaced_expression condition i,
      allPlaced_statement thenBranch i]
  | .ifElse condition thenBranch (some elseBranch), i, _, _ => by
    simp [Statement.visits, Placed, allPlaced_expression condition i,
      allPlaced_statement thenBranch i, allPlaced_statement elseBranch i]
  | .print value, i, _, _ => by
    simp [Statement.visits, Placed, allPlaced_expression value i]
  | .return _ none, _, _, _ => by simp [Statement.visits, Placed]
  | .return _ (some value), i, _, _ => by
    simp [Statement.visits, Placed, allPlaced_expression value i]
  | .var _ none, _, _, _ => by simp [Statement.visits, Placed]
  | .var name (some initializer), i, before, _ => by
    simp only [Statement.visits, allPlaced_cons, allPlaced_append]
    exact ⟨trivial, .inr ⟨before, initializer, i, _, rfl, List.append_assoc ..⟩,
      allPlaced_expression initializer i _ _, trivial, allPlaced_nil⟩
  | .while condition body, i, _, _ => by
    simp [Statement.visits, Placed, allPlaced_expression condition i, allPlaced_statement body i]

theorem allPlaced_statements : (ss : List Statement) → (i : Bool) → (before after : List Visit) →
    AllPlaced i before (Statement.allVisits ss i) after
  | [], _, _, _ => allPlaced_nil
  | s :: ss, i, _, _ => by
    simp [Statement.allVisits, allPlaced_statement s i, allPlaced_statements ss i]

end

/-- Every visit of a unit stands where it has to; outside of every function there is none. -/
theorem placed_code {unit : Code} {before after : List Visit} {v : Visit}
    (h : unit.visits = before ++ v :: after) : Placed false before v after := by
  have hall : AllPlaced false [] unit.visits [] := by
    match unit with
    | .program ss => exact allPlaced_statements ss false [] []
    | .expression none => exact allPlaced_nil
    | .expression (some e) => exact allPlaced_expression e false [] []
  simpa using hall before v after h

/-- The body of a function is inside a function. -/
theorem WithinFunction.inside {before : List Visit} {keyword : Token} {inside : Bool}
    (h : WithinFunction before (.leaveFunction keyword inside)) : inside = true := by
  obtain ⟨outer, names, body, head, inner, rest, -, -, hbody⟩ := h
  exact (allPlaced_statements body true [] [] inner _ rest hbody).elim id And.left

/-- A use, with these visits before it, of a variable in its own initializer: in the nearest scope
around the use that declares its name, the latest declaration of the name is that of a variable
whose initializer contains the use. -/
def InOwnInitializer (before : List Visit) (v : Visit) (name : String) : Prop :=
  ∃ hops outer token initializer inside inner rest,
    IsLeast {k | Declares before name k} hops ∧
    before = outer ++ .statement (.var token (some initializer)) :: .declare token :: inner ∧
    token.lexeme = name ∧ nesting inner 0 = some hops ∧
    (∀ us other vs, inner = us ++ .declare other :: vs → other.lexeme = name →
      nesting vs 0 ≠ some hops) ∧
    initializer.visits inside = inner ++ v :: rest

/-- What is wrong at a visit that has others before it. -/
inductive Violation (before : List Visit) : Visit → Report → Prop where
  | alreadyDeclared {token : Token} (h : Declares before token.lexeme 0) :
    Violation before (.declare token) ⟨token, .alreadyDeclared token.lexeme⟩
  | readInInitializer {site : Site} {name : Token}
    (h : InOwnInitializer before (.use .access site name) name.lexeme) :
    Violation before (.use .access site name) ⟨name, .readInInitializer⟩
  | returnOutsideFunction {keyword : Token} {inside : Bool}
    (h : ¬ WithinFunction before (.leaveFunction keyword inside)) :
    Violation before (.leaveFunction keyword inside) ⟨keyword, .returnOutsideFunction⟩

/-- The reports of the violations among some visits, in order, if others come before them. -/
inductive Violations : (before visits : List Visit) → List Report → Prop where
  | nil {before : List Visit} : Violations before [] []
  | here {before visits : List Visit} {v : Visit} {r : Report} {reports : List Report}
    (hv : Violation before v r) (h : Violations (before ++ [v]) visits reports) :
    Violations before (v :: visits) (r :: reports)
  | skip {before visits : List Visit} {v : Visit} {reports : List Report}
    (hv : ∀ r, ¬ Violation before v r) (h : Violations (before ++ [v]) visits reports) :
    Violations before (v :: visits) reports

/-- One visit violates one thing at most. -/
theorem Violation.unique {before : List Visit} {v : Visit} {r r' : Report}
    (h : Violation before v r) (h' : Violation before v r') : r = r' := by
  cases h <;> cases h' <;> rfl

theorem Violations.unique {before visits : List Visit} {reports reports' : List Report}
    (h : Violations before visits reports) (h' : Violations before visits reports') :
    reports = reports' := by
  induction h generalizing reports' with
  | nil => cases h'; rfl
  | here hv _ ih =>
    cases h' with
    | here hv' h' => rw [hv.unique hv', ih h']
    | skip hv' _ => exact absurd hv (hv' _)
  | skip hv _ ih =>
    cases h' with
    | here hv' _ => exact absurd hv' (hv _)
    | skip _ h' => exact ih h'

section
variable {unit : Code} {before after : List Visit} {v : Visit} {name : String}

/-- The scope of the latest declaration before a use is open. -/
theorem exists_open_of_declares {outer inner : List Visit} {token : Token} {hops depth : Nat}
    (hdepth : nesting (outer ++ .declare token :: inner) 0 = some depth)
    (hinner : nesting inner 0 = some hops) (hlt : hops < depth) :
    ∃ outside, nesting outer 0 = some (outside + 1) := by
  obtain ⟨m, hm⟩ := exists_nesting_of_append hdepth
  have hkeep := nesting_add hinner m
  rw [Nat.zero_add] at hkeep
  have heq : some (hops + m) = some depth := by simpa [hm, Visit.nests, hkeep] using hdepth
  cases m with
  | zero => cases heq; omega
  | succ outside => exact ⟨outside, hm⟩

/-- Behind the declaration of a variable nothing is said of its name up to a use in its initializer,
unless the name is declared again there: a declaration that is over in the initializer began in
it. -/
theorem unmarked_initializer {initializer : Expr} {inside : Bool} {inner rest : List Visit}
    {hops : Nat} (hinit : initializer.visits inside = inner ++ rest)
    (hlast : ∀ us other vs, inner = us ++ .declare other :: vs → other.lexeme = name →
      nesting vs 0 ≠ some hops) : Unmarked inner name hops := by
  rintro us w vs rfl hvs ready hw
  cases w with
  | declare other =>
    cases hw
    exact hlast us other vs rfl rfl hvs
  | settle other =>
    cases hw
    obtain ⟨outer, mid, rfl, hmid⟩ :=
      settled_expression initializer inside us other (vs ++ rest) (by simp [hinit])
    exact hlast outer other (mid ++ .settle other :: vs) (by simp) rfl
      (by simp [hmid, Visit.nests, hvs])
  | _ => cases hw

/-- Up to a visit that follows a declaration the declaration is over, or the visit is in the
initializer. -/
theorem Placed.settled_or_initializer {i : Bool} {outer inner : List Visit} {token : Token}
    (h : Placed i outer (.declare token) (inner ++ v :: after)) (hv : v.mark? = none) :
    (∃ us vs, inner = us ++ .settle token :: vs ∧ nesting us 0 = some 0) ∨
      ∃ outer' initializer inside rest,
        outer = outer' ++ [.statement (.var token (some initializer))] ∧
        initializer.visits inside = inner ++ v :: rest := by
  -- The visit that ends the declaration comes before the visit or behind it.
  have hsplit (us rest : List Visit) (heq : inner ++ v :: after = us ++ .settle token :: rest) :
      (∃ vs, inner = us ++ .settle token :: vs) ∨ ∃ vs, us = inner ++ v :: vs := by
    obtain ⟨mid, rfl, hmid⟩ | ⟨mid, rfl, hmid⟩ := List.append_eq_append_iff.1 heq
    · cases mid with
      | nil =>
        obtain ⟨rfl, -⟩ := List.cons_eq_cons.1 hmid
        cases hv
      | cons w mid =>
        obtain ⟨rfl, -⟩ := List.cons_eq_cons.1 hmid
        exact .inr ⟨mid, rfl⟩
    · cases mid with
      | nil =>
        obtain ⟨rfl, -⟩ := List.cons_eq_cons.1 hmid
        cases hv
      | cons w mid =>
        obtain ⟨rfl, -⟩ := List.cons_eq_cons.1 hmid
        exact .inl ⟨mid, rfl⟩
  obtain ⟨rest, heq⟩ | ⟨outer', initializer, inside, rest, rfl, heq⟩ := h
  · obtain ⟨vs, rfl⟩ | ⟨vs, hnil⟩ := hsplit [] rest heq
    · exact .inl ⟨[], vs, rfl, rfl⟩
    · simp at hnil
  · obtain ⟨vs, rfl⟩ | ⟨vs, hvs⟩ := hsplit _ rest heq
    · exact .inl ⟨_, vs, rfl, nesting_expression initializer inside 0⟩
    · exact .inr ⟨outer', initializer, inside, vs, rfl, hvs⟩

/-- What was said last of a name in its nearest scope forbids reading it just in its own
initializer. -/
theorem inOwnInitializer_iff (h : unit.visits = before ++ v :: after) (hv : v.mark? = none) :
    InOwnInitializer before v name ↔
      ∃ hops, IsLeast {k | Declares before name k} hops ∧ LatestMark before name hops false := by
  constructor
  · rintro ⟨hops, outer, token, initializer, inside, inner, rest, hleast, rfl, rfl, hinner, hlast,
      hinit⟩
    obtain ⟨depth, hdepth⟩ := exists_nesting_of_append (h ▸ nesting_code unit 0)
    have hlt : hops < depth := Declares.lt hleast.1 hdepth
    rw [List.append_cons] at hdepth
    obtain ⟨outside, houter⟩ := exists_open_of_declares hdepth hinner hlt
    exact ⟨hops, hleast, _, .declare token, inner, outside, List.append_cons .., rfl, houter,
      hinner, unmarked_initializer hinit hlast⟩
  · rintro ⟨hops, hleast, outer, w, inner, outside, rfl, hw, houter, hinner, hun⟩
    cases w with
    | declare token =>
      cases hw
      have hplaced : Placed false outer (.declare token) (inner ++ v :: after) :=
        placed_code (by simpa using h)
      obtain ⟨us, vs, rfl, hus⟩ | ⟨outer, initializer, inside, rest, rfl, hinit⟩ :=
        hplaced.settled_or_initializer hv
      · exact absurd rfl (hun us _ vs rfl (by simpa [hus, Visit.nests] using hinner) true)
      · refine ⟨hops, outer, token, initializer, inside, inner, rest, hleast, by simp, rfl, hinner,
          fun us other vs heq hname hvs => ?_, hinit⟩
        exact hun us _ vs heq hvs false (by rw [Visit.mark?, hname])
    | _ => cases hw

theorem readable_walk (h : unit.visits = before ++ v :: after) (hv : v.mark? = none) :
    readable name (walk before .start).scopes = false ↔ InOwnInitializer before v name := by
  obtain ⟨n, hn⟩ := exists_nesting_of_append (h ▸ nesting_code unit 0)
  rw [readable_eq_false_iff, inOwnInitializer_iff h hv]
  simp only [hops?_walk h, says_walk hn]

/-- The innermost scope has the names that were declared in it. -/
theorem declares_walk (h : unit.visits = before ++ after) :
    (walk before .start).declares name = true ↔ Declares before name 0 := by
  have hinnermost : (walk before .start).declares name = true ↔
      hops? name (walk before .start).scopes = some 0 := by
    cases hs : (walk before .start).scopes with
    | nil => simp [Progress.declares, hs, hops?]
    | cons names outer =>
      cases hn : names.lookup name <;> simp [Progress.declares, hs, hops?, List.findIdx?_cons, hn]
  rw [hinnermost, hops?_walk h]
  exact ⟨And.left, fun hd => ⟨hd, fun k _ => Nat.zero_le k⟩⟩

/-- A report that is made on a condition, which is the one for a violation. -/
theorem exists_report_if {c : Prop} [Decidable c] {r : Report} {reports : List Report}
    (hv : c → Violation before v r) (hc : ∀ r', Violation before v r' → c) :
    ∃ r? : Option Report, (if c then r :: reports else reports) = r?.toList ++ reports ∧
      ∀ r', Violation before v r' ↔ r? = some r' := by
  by_cases h : c
  · refine ⟨some r, by simp [h], fun r' => ?_⟩
    exact ⟨fun hr => congrArg some ((hv h).unique hr), fun hr => Option.some.inj hr ▸ hv h⟩
  · exact ⟨none, by simp [h], fun r' => ⟨fun hr => absurd (hc r' hr) h, fun hr => nomatch hr⟩⟩

/-- A visit adds the report of its violation, if there is one. -/
theorem exists_reports_step (h : unit.visits = before ++ v :: after) :
    ∃ r? : Option Report,
      (walk (before ++ [v]) .start).reports = r?.toList ++ (walk before .start).reports ∧
      ∀ r, Violation before v r ↔ r? = some r := by
  rw [walk_append, walk_cons, walk_nil]
  cases v with
  | declare token =>
    refine exists_report_if (fun hd => .alreadyDeclared ((declares_walk h).1 hd)) ?_
    intro r hr
    cases hr with
    | alreadyDeclared hd => exact (declares_walk h).2 hd
  | use kind site name =>
    refine exists_report_if ?_ ?_
    · rintro ⟨rfl, hr⟩
      exact .readInInitializer ((readable_walk h rfl).1 hr)
    · intro r hr
      cases hr with
      | readInInitializer hown => exact ⟨rfl, (readable_walk h rfl).2 hown⟩
  | leaveFunction keyword inside =>
    -- Outside of every function the flag is not set, and inside of one it is.
    have hflag : inside = true ↔ WithinFunction before (.leaveFunction keyword inside) :=
      ⟨fun hi => (placed_code h).elim (fun hf => nomatch hi.symm.trans hf) And.right,
        WithinFunction.inside⟩
    have hstep : (Visit.step (walk before .start) (.leaveFunction keyword inside)).reports =
        if ¬ inside = true then ⟨keyword, .returnOutsideFunction⟩ :: (walk before .start).reports
        else (walk before .start).reports := by
      cases inside <;> rfl
    rw [hstep]
    refine exists_report_if (fun hi => .returnOutsideFunction (mt hflag.2 hi)) ?_
    intro r hr
    cases hr with
    | returnOutsideFunction hout => exact mt hflag.1 hout
  | _ => exact ⟨none, rfl, fun r => ⟨fun hr => (nomatch hr), fun hr => nomatch hr⟩⟩

/-- The rest of a walk reports the violations among the rest of the visits. -/
theorem violations_walk (h : unit.visits = before ++ after) :
    ∃ reports, Violations before after reports ∧
      (walk unit.visits .start).reports.reverse =
        (walk before .start).reports.reverse ++ reports := by
  induction after generalizing before with
  | nil => exact ⟨[], .nil, by simp [h]⟩
  | cons v after ih =>
    obtain ⟨r?, hstep, hr⟩ := exists_reports_step h
    obtain ⟨reports, hrest, heq⟩ := ih (show unit.visits = (before ++ [v]) ++ after by simp [h])
    rw [heq, hstep]
    cases r? with
    | none => exact ⟨reports, .skip (fun r hv => nomatch (hr r).1 hv) hrest, rfl⟩
    | some r => exact ⟨r :: reports, .here ((hr r).2 rfl) hrest, by simp⟩

end

/-- The reports of a pass are the violations among the visits of its unit, in order. What a visit
violates depends on the tree alone, so no report adds or suppresses another one. -/
theorem reports_eq_iff_violations {unit : Code} {room : Nat} (hroom : unit.depth ≤ room)
    (reports : List Report) :
    (resolve room unit).reports = reports ↔ Violations [] unit.visits reports := by
  obtain ⟨found, hfound, heq⟩ := violations_walk (show unit.visits = [] ++ unit.visits from rfl)
  have hresolve : (resolve room unit).reports = found := by
    rw [resolve_eq_walk hroom]
    exact heq
  rw [hresolve]
  exact ⟨fun h => h ▸ hfound, hfound.unique⟩

/-- A name that is declared again, read in its initializer by a function there, and a `return`
behind it, outside of every function. -/
def misused : Code :=
  let name (text : String) : Token := ⟨.identifier, text, .nil, 1⟩
  .program [.block [
    .var (name "x") none,
    .var (name "x") (some (.function (name "fun") [name "y"]
      [.return (name "return") (some (.access 0 (name "x")))])),
    .return (name "return") (some (.access 1 (name "x")))]]

theorem reports_misused :
    misused.depth ≤ 6 ∧
      Violations [] misused.visits [
        ⟨⟨.identifier, "x", .nil, 1⟩, .alreadyDeclared "x"⟩,
        ⟨⟨.identifier, "x", .nil, 1⟩, .readInInitializer⟩,
        ⟨⟨.identifier, "return", .nil, 1⟩, .returnOutsideFunction⟩] := by
  have hdepth : misused.depth ≤ 6 := by decide
  exact ⟨hdepth, (reports_eq_iff_violations hdepth _).1 (by decide +kernel)⟩

end Binding
end Lox
