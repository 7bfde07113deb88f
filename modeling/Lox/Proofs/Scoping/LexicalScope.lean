import Lox.Proofs.Scoping.Visits
import Mathlib.Data.List.Induction
import Mathlib.Data.Nat.Find
import Mathlib.Order.Bounds.Defs

/-!
# Binding is lexical

The scope that a use refers to is the innermost one around it in which its name was declared before.
Both are read off the visits of a tree: `nesting` follows the scopes as brackets, and `Declares`
finds a declaration in a scope that is still open. The table that a pass fills holds just these
references.
-/
namespace Lox
namespace Binding

/-- How many scopes are open after a visit. No answer means that there was none to leave. -/
def Visit.nests : Nat → Visit → Option Nat
  | n, .enter => some (n + 1)
  | 0, .leave => none
  | n + 1, .leave => some n
  | n, _ => some n

/-- How many scopes are open after some visits. -/
def nesting (visits : List Visit) (n : Nat) : Option Nat := visits.foldlM Visit.nests n

@[simp] theorem nesting_nil (n : Nat) : nesting [] n = some n := rfl

@[simp] theorem nesting_cons (v : Visit) (visits : List Visit) (n : Nat) :
    nesting (v :: visits) n = (Visit.nests n v).bind (nesting visits) := rfl

@[simp] theorem nesting_append (us vs : List Visit) (n : Nat) :
    nesting (us ++ vs) n = (nesting us n).bind (nesting vs) := by
  rw [nesting, List.foldlM_append]
  rfl

theorem Visit.nests_add {v : Visit} {n m : Nat} (h : nests n v = some m) (k : Nat) :
    nests (n + k) v = some (m + k) := by
  cases v with
  | enter => cases h; simp [nests, Nat.add_right_comm]
  | leave =>
    cases n with
    | zero => cases h
    | succ n => cases h; simp [nests, Nat.add_right_comm]
  | _ => cases h; rfl

/-- Scopes that are open further outwards stay open. -/
theorem nesting_add {visits : List Visit} {n m : Nat} (h : nesting visits n = some m) (k : Nat) :
    nesting visits (n + k) = some (m + k) := by
  induction visits generalizing n with
  | nil => cases h; rfl
  | cons v visits ih =>
    obtain ⟨n', hv, hrest⟩ := Option.bind_eq_some_iff.1 h
    rw [nesting_cons, Visit.nests_add hv k, Option.bind_some]
    exact ih hrest

/-- What is open after a part was open before it or in it. -/
theorem exists_nesting_of_append {us vs : List Visit} {n m : Nat}
    (h : nesting (us ++ vs) n = some m) : ∃ k, nesting us n = some k := by
  rw [nesting_append] at h
  obtain ⟨k, hk, -⟩ := Option.bind_eq_some_iff.1 h
  exact ⟨k, hk⟩

theorem nesting_parameters (names : List Token) (n : Nat) :
    nesting (Visit.parameters names) n = some n := by
  induction names with
  | nil => rfl
  | cons name names ih => simpa [Visit.parameters, Visit.nests] using ih

theorem nesting_function {names : List Token} {body : List Visit}
    (h : ∀ n, nesting body n = some n) (n : Nat) :
    nesting (Visit.function names body) n = some n := by
  simp [Visit.function, Visit.nests, nesting_parameters, h]

mutual

/-- A tree closes the scopes that it opens, and no other. -/
theorem nesting_expression : (e : Expr) → (i : Bool) → (n : Nat) →
    nesting (e.visits i) n = some n
  | .literal _, _, _ => rfl
  | .grouping inner, i, n => nesting_expression inner i n
  | .unary _ operand, i, n => nesting_expression operand i n
  | .binary left _ right, i, n => by
    simp [Expr.visits, Visit.nests, nesting_expression left, nesting_expression right]
  | .logical left _ right, i, n => by
    simp [Expr.visits, Visit.nests, nesting_expression left, nesting_expression right]
  | .ternary condition thenBranch elseBranch, i, n => by
    simp [Expr.visits, Visit.nests, nesting_expression condition, nesting_expression thenBranch,
      nesting_expression elseBranch]
  | .access _ _, _, _ => rfl
  | .assign _ _ value, i, n => by
    simp [Expr.visits, Visit.nests, nesting_expression value]
  | .call callee _ arguments, i, n => by
    simp [Expr.visits, Visit.nests, nesting_expression callee, nesting_expressions arguments]
  | .function _ _ body, _, n => nesting_function (nesting_statements body true) n

theorem nesting_expressions : (es : List Expr) → (i : Bool) → (n : Nat) →
    nesting (Expr.allVisits es i) n = some n
  | [], _, _ => rfl
  | e :: es, i, n => by
    simp [Expr.allVisits, nesting_expression e, nesting_expressions es]

theorem nesting_statement : (s : Statement) → (i : Bool) → (n : Nat) →
    nesting (s.visits i) n = some n
  | .block ss, i, n => by simp [Statement.visits, Visit.nests, nesting_statements ss]
  | .expression value, i, n => nesting_expression value i n
  | .function _ _ body, _, n => nesting_function (nesting_statements body true) n
  | .ifElse condition thenBranch none, i, n => by
    simp [Statement.visits, Visit.nests, nesting_expression condition,
      nesting_statement thenBranch]
  | .ifElse condition thenBranch (some elseBranch), i, n => by
    simp [Statement.visits, Visit.nests, nesting_expression condition,
      nesting_statement thenBranch, nesting_statement elseBranch]
  | .print value, i, n => nesting_expression value i n
  | .return _ none, _, _ => rfl
  | .return _ (some value), i, n => nesting_expression value i n
  | .var _ none, _, _ => rfl
  | .var _ (some initializer), i, n => by
    simp [Statement.visits, Visit.nests, nesting_expression initializer]
  | .while condition body, i, n => by
    simp [Statement.visits, Visit.nests, nesting_expression condition, nesting_statement body]

theorem nesting_statements : (ss : List Statement) → (i : Bool) → (n : Nat) →
    nesting (Statement.allVisits ss i) n = some n
  | [], _, _ => rfl
  | s :: ss, i, n => by
    simp [Statement.allVisits, nesting_statement s, nesting_statements ss]

end

theorem nesting_code (unit : Code) (n : Nat) : nesting unit.visits n = some n := by
  match unit with
  | .program ss => exact nesting_statements ss false n
  | .expression none => rfl
  | .expression (some e) => exact nesting_expression e false n

/-- The walk has as many scopes as the nesting says. -/
theorem Visit.length_step {v : Visit} {p : Progress} {n : Nat}
    (h : nests p.scopes.length v = some n) : (v.step p).scopes.length = n := by
  obtain ⟨scopes, _, _, _⟩ := p
  cases v <;> cases scopes <;> simp_all [nests, step, marked]

theorem length_walk {visits : List Visit} {p : Progress} {n : Nat}
    (h : nesting visits p.scopes.length = some n) : (walk visits p).scopes.length = n := by
  induction visits generalizing p with
  | nil => exact Option.some.inj h
  | cons v visits ih =>
    obtain ⟨m, hv, hrest⟩ := Option.bind_eq_some_iff.1 h
    rw [← Visit.length_step hv] at hrest
    exact ih hrest

/-- One more visit at the end is the visit in question, or it comes behind it. -/
theorem append_singleton_eq {visits before after : List Visit} {v w : Visit}
    (h : visits ++ [v] = before ++ w :: after) :
    (before = visits ∧ w = v ∧ after = []) ∨
      ∃ rest, after = rest ++ [v] ∧ visits = before ++ w :: rest := by
  obtain rfl | ⟨rest, u, rfl⟩ := List.eq_nil_or_concat after
  · obtain ⟨rfl, hv⟩ := List.append_inj' h rfl
    exact .inl ⟨rfl, (List.singleton_inj.1 hv).symm, rfl⟩
  · have heq : visits ++ [v] = (before ++ w :: rest) ++ [u] := by simpa using h
    obtain ⟨hvisits, hv⟩ := List.append_inj' heq rfl
    obtain rfl := List.singleton_inj.1 hv
    exact .inr ⟨rest, by simp, hvisits⟩

/-- Whether a declaration is over. -/
def Visit.isSettle : Visit → Bool
  | .settle _ => true
  | _ => false

/-- A declaration that is over began before, in the scope that is the innermost one again. -/
def Settled (visits : List Visit) : Prop :=
  ∀ before name after, visits = before ++ .settle name :: after →
    ∃ outer inner, before = outer ++ .declare name :: inner ∧ nesting inner 0 = some 0

theorem settled_nil : Settled [] := by
  intro before name after h
  simp at h

/-- A visit more, which ends a declaration only if there is one to end. -/
theorem Settled.snoc {visits : List Visit} {v : Visit} (h : Settled visits)
    (hv : ∀ name, v = .settle name →
      ∃ outer inner, visits = outer ++ .declare name :: inner ∧ nesting inner 0 = some 0) :
    Settled (visits ++ [v]) := by
  intro before name after heq
  obtain ⟨rfl, rfl, -⟩ | ⟨rest, -, hvisits⟩ := append_singleton_eq heq
  · exact hv name rfl
  · exact h before name rest hvisits

theorem Settled.append {us vs : List Visit} (hu : Settled us) (hv : Settled vs) :
    Settled (us ++ vs) := by
  intro before name after h
  obtain ⟨mid, rfl, hmid⟩ | ⟨mid, rfl, hmid⟩ := List.append_eq_append_iff.1 h
  · obtain ⟨outer, inner, rfl, hinner⟩ := hv mid name after hmid
    exact ⟨us ++ outer, inner, by simp, hinner⟩
  · cases mid with
    | nil =>
      obtain ⟨outer, inner, heq, -⟩ := hv [] name after hmid.symm
      simp at heq
    | cons v mid =>
      obtain ⟨rfl, -⟩ := List.cons_eq_cons.1 hmid
      exact hu before name mid rfl

theorem Settled.cons {v : Visit} {visits : List Visit} (h : Settled visits)
    (hv : v.isSettle = false := by rfl) : Settled (v :: visits) := by
  refine (settled_nil.snoc fun name heq => ?_).append h
  simp [heq, Visit.isSettle] at hv

/-- A declaration with all that is visited until it is over. -/
theorem Settled.declaration {visits : List Visit} (name : Token) (h : Settled visits)
    (hn : nesting visits 0 = some 0) : Settled (.declare name :: (visits ++ [.settle name])) := by
  refine (h.cons).snoc fun other heq => ?_
  cases heq
  exact ⟨[], visits, rfl, hn⟩

theorem settled_parameters (names : List Token) : Settled (Visit.parameters names) := by
  induction names with
  | nil => exact settled_nil
  | cons name names ih => exact (settled_nil.declaration name rfl).append ih

theorem Settled.function {names : List Token} {body : List Visit} (h : Settled body) :
    Settled (Visit.function names body) :=
  .cons <| ((settled_parameters names).append h).append <| .cons settled_nil

mutual

theorem settled_expression : (e : Expr) → (i : Bool) → Settled (e.visits i)
  | .literal _, _ => .cons settled_nil
  | .grouping inner, i => .cons <| settled_expression inner i
  | .unary _ operand, i => .cons <| settled_expression operand i
  | .binary left _ right, i =>
    .cons <| (settled_expression left i).append <| settled_expression right i
  | .logical left _ right, i =>
    .cons <| (settled_expression left i).append <| settled_expression right i
  | .ternary condition thenBranch elseBranch, i =>
    .cons <| (settled_expression condition i).append <| (settled_expression thenBranch i).append <|
      settled_expression elseBranch i
  | .access _ _, _ => .cons <| .cons settled_nil
  | .assign _ _ value, i => .cons <| (settled_expression value i).append <| .cons settled_nil
  | .call callee _ arguments, i =>
    .cons <| (settled_expression callee i).append <| settled_expressions arguments i
  | .function _ _ body, _ => .cons (settled_statements body true).function

theorem settled_expressions : (es : List Expr) → (i : Bool) → Settled (Expr.allVisits es i)
  | [], _ => settled_nil
  | e :: es, i => (settled_expression e i).append <| settled_expressions es i

theorem settled_statement : (s : Statement) → (i : Bool) → Settled (s.visits i)
  | .block ss, i => .cons <| .cons <| (settled_statements ss i).append <| .cons settled_nil
  | .expression value, i => .cons <| settled_expression value i
  | .function name _ body, _ =>
    .cons <| (settled_nil.declaration name rfl).append (settled_statements body true).function
  | .ifElse condition thenBranch none, i =>
    .cons <| (settled_expression condition i).append <| settled_statement thenBranch i
  | .ifElse condition thenBranch (some elseBranch), i =>
    .cons <| (settled_expression condition i).append <| (settled_statement thenBranch i).append <|
      settled_statement elseBranch i
  | .print value, i => .cons <| settled_expression value i
  | .return _ none, _ => .cons <| .cons settled_nil
  | .return _ (some value), i => .cons <| .cons <| settled_expression value i
  | .var name none, _ => .cons <| settled_nil.declaration name rfl
  | .var name (some initializer), i =>
    .cons <| (settled_expression initializer i).declaration name
      (nesting_expression initializer i 0)
  | .while condition body, i =>
    .cons <| (settled_expression condition i).append <| settled_statement body i

theorem settled_statements : (ss : List Statement) → (i : Bool) →
    Settled (Statement.allVisits ss i)
  | [], _ => settled_nil
  | s :: ss, i => (settled_statement s i).append <| settled_statements ss i

end

theorem settled_code (unit : Code) : Settled unit.visits := by
  match unit with
  | .program ss => exact settled_statements ss false
  | .expression none => exact settled_nil
  | .expression (some e) => exact settled_expression e false

/-- Among some visits is a declaration of a name, directly in a scope that is still open and that
has this many open scopes inside it. The top level is no scope. -/
def Declares (before : List Visit) (name : String) (hops : Nat) : Prop :=
  ∃ outer token inner outside, before = outer ++ .declare token :: inner ∧ token.lexeme = name ∧
    nesting outer 0 = some (outside + 1) ∧ nesting inner 0 = some hops

/-- The scope of a declaration is one of those that are open. -/
theorem Declares.lt {before : List Visit} {name : String} {hops depth : Nat}
    (h : Declares before name hops) (hdepth : nesting before 0 = some depth) : hops < depth := by
  obtain ⟨outer, token, inner, outside, rfl, -, houter, hinner⟩ := h
  have hopen := nesting_add hinner (outside + 1)
  rw [Nat.zero_add] at hopen
  have heq : nesting (outer ++ .declare token :: inner) 0 = some (hops + (outside + 1)) := by
    simpa [houter, Visit.nests] using hopen
  have := Option.some.inj (hdepth.symm.trans heq)
  omega

/-- One of some scopes, counted from the innermost one, has a name. -/
def Has (scopes : List Names) (name : String) (hops : Nat) : Prop :=
  ∃ names, scopes[hops]? = some names ∧ (names.lookup name).isSome

theorem hops?_eq_some_iff {name : String} {scopes : List Names} {hops : Nat} :
    hops? name scopes = some hops ↔ IsLeast {k | Has scopes name k} hops := by
  rw [hops?, List.findIdx?_eq_some_iff_getElem]
  constructor
  · rintro ⟨hlt, hhops, hless⟩
    refine ⟨⟨_, List.getElem?_eq_getElem hlt, hhops⟩, ?_⟩
    rintro k ⟨names, hk, hnames⟩
    obtain ⟨hk', rfl⟩ := List.getElem?_eq_some_iff.1 hk
    exact Nat.le_of_not_lt fun hlt => hless k hlt hnames
  · rintro ⟨⟨names, hk, hnames⟩, hleast⟩
    obtain ⟨hlt, rfl⟩ := List.getElem?_eq_some_iff.1 hk
    refine ⟨hlt, hnames, fun j hj hnames' => ?_⟩
    have hle := hleast ⟨_, List.getElem?_eq_getElem (Nat.lt_trans hj hlt), hnames'⟩
    omega

theorem has_nil (name : String) (hops : Nat) : ¬ Has [] name hops := by
  rintro ⟨names, h, -⟩
  cases h

theorem has_enter {scopes : List Names} {name : String} {hops : Nat} :
    Has ([] :: scopes) name hops ↔ ∃ k, Has scopes name k ∧ k + 1 = hops := by
  cases hops <;> simp [Has]

theorem has_tail {scopes : List Names} {name : String} {hops : Nat} :
    Has scopes.tail name hops ↔ Has scopes name (hops + 1) := by
  simp [Has]

theorem has_marked {scopes : List Names} {name other : String} {ready : Bool} {hops : Nat} :
    Has (marked other ready scopes) name hops ↔
      (scopes ≠ [] ∧ other = name ∧ hops = 0) ∨ Has scopes name hops := by
  cases scopes with
  | nil => simp [marked]
  | cons names outer =>
    cases hops with
    | zero =>
      by_cases h : name = other
      · simp [Has, marked, h, -List.lookup_isSome_iff]
      · simp [Has, marked, List.lookup_cons, beq_false_of_ne h, Ne.symm h, -List.lookup_isSome_iff]
    | succ hops => simp [Has, marked]

/-- The last visit is the declaration itself, or it leaves the scope of an earlier one open. -/
theorem declares_snoc {before : List Visit} {v : Visit} {name : String} {hops : Nat} :
    Declares (before ++ [v]) name hops ↔
      (∃ token outside, v = .declare token ∧ token.lexeme = name ∧
        nesting before 0 = some (outside + 1) ∧ hops = 0) ∨
      ∃ k, Declares before name k ∧ Visit.nests k v = some hops := by
  constructor
  · rintro ⟨outer, token, inner, outside, heq, hname, houter, hinner⟩
    obtain ⟨rfl, rfl, rfl⟩ | ⟨inner, rfl, rfl⟩ := append_singleton_eq heq
    · exact .inl ⟨token, outside, rfl, hname, houter, (Option.some.inj hinner).symm⟩
    · obtain ⟨k, hk, hlast⟩ : ∃ k, nesting inner 0 = some k ∧ Visit.nests k v = some hops := by
        simpa [Option.bind_eq_some_iff] using hinner
      exact .inr ⟨k, ⟨outer, token, inner, outside, rfl, hname, houter, hk⟩, hlast⟩
  · rintro (⟨token, outside, rfl, hname, houter, rfl⟩ |
      ⟨k, ⟨outer, token, inner, outside, rfl, hname, houter, hk⟩, hlast⟩)
    · exact ⟨before, token, [], outside, rfl, hname, houter, rfl⟩
    · exact ⟨outer, token, inner ++ [v], outside, by simp, hname, houter, by simp [hk, hlast]⟩

/-- The names that a walk has in its scopes are those that were declared in them. -/
theorem has_walk {visits : List Visit} {n : Nat} (hs : Settled visits)
    (hn : nesting visits 0 = some n) {name : String} {hops : Nat} :
    Has (walk visits .start).scopes name hops ↔ Declares visits name hops := by
  induction visits using List.reverseRecOn generalizing n hops with
  | nil =>
    refine iff_of_false (has_nil _ _) ?_
    rintro ⟨outer, token, inner, outside, heq, -⟩
    simp at heq
  | append_singleton visits v ih =>
    have hs' : Settled visits := fun before token after h =>
      hs before token (after ++ [v]) (by simp [h])
    obtain ⟨m, hm⟩ := exists_nesting_of_append hn
    have hlength : (walk visits .start).scopes.length = m := length_walk hm
    have hopen : (walk visits .start).scopes ≠ [] ↔
        ∃ outside, nesting visits 0 = some (outside + 1) := by
      rw [← List.length_pos_iff, hlength, hm]
      cases m <;> simp
    replace ih := @ih m hs' hm
    rw [declares_snoc, walk_append, walk_cons, walk_nil]
    cases v with
    | enter => simp [Visit.step, Visit.nests, has_enter, ih]
    | leave =>
      have hnests (k : Nat) : Visit.nests k .leave = some hops ↔ k = hops + 1 := by
        cases k <;> simp [Visit.nests]
      simp [Visit.step, has_tail, ih, hnests]
    | declare token =>
      simp only [Visit.step, Visit.nests, has_marked, ih, hopen]
      simp [and_left_comm]
    | settle token =>
      -- The name that is marked is there already, if there is a scope at all.
      have hthere (outside : Nat) (ho : nesting visits 0 = some (outside + 1)) :
          Declares visits token.lexeme 0 := by
        obtain ⟨outer, inner, rfl, hinner⟩ := hs visits token [] rfl
        obtain ⟨k, hk⟩ := exists_nesting_of_append ho
        have hkeep := nesting_add hinner k
        simp only [Nat.zero_add] at hkeep
        obtain rfl : k = outside + 1 := by simpa [hk, Visit.nests, hkeep] using ho
        exact ⟨outer, token, inner, outside, rfl, rfl, hk, hinner⟩
      simp only [Visit.step, Visit.nests, has_marked, ih, hopen]
      simp only [reduceCtorEq, false_and, exists_false, false_or, Option.some.injEq,
        exists_eq_right, or_iff_right_iff_imp]
      rintro ⟨⟨outside, ho⟩, rfl, rfl⟩
      exact hthere outside ho
    | _ => simp [Visit.step, Visit.nests, ih]

/-- The use that an entry is about. -/
def Entry.visit (e : Entry) : Visit := .use e.kind e.site e.name

theorem mem_entries_step {v : Visit} {p : Progress} {e : Entry} :
    e ∈ (v.step p).entries ↔
      (v = e.visit ∧ hops? e.name.lexeme p.scopes = some e.hops) ∨ e ∈ p.entries := by
  cases v with
  | use kind site name =>
    obtain ⟨kind', site', name', hops'⟩ := e
    cases hhops : hops? name.lexeme p.scopes with
    | none =>
      refine ⟨fun h => .inr (by simpa [Visit.step, hhops] using h), ?_⟩
      rintro (⟨heq, h⟩ | h)
      · cases heq
        cases hhops.symm.trans h
      · simpa [Visit.step, hhops] using h
    | some hops =>
      simp only [Visit.step, hhops, List.mem_cons]
      refine or_congr_left ⟨?_, ?_⟩
      · rintro h
        cases h
        exact ⟨rfl, hhops⟩
      · rintro ⟨heq, h⟩
        cases heq
        cases hhops.symm.trans h
        rfl
  | _ => simp [Visit.step, Entry.visit]

/-- An entry is made for a use whose name is in a scope. -/
theorem mem_entries_walk {visits : List Visit} {e : Entry} :
    e ∈ (walk visits .start).entries ↔ ∃ before after, visits = before ++ e.visit :: after ∧
      hops? e.name.lexeme (walk before .start).scopes = some e.hops := by
  induction visits using List.reverseRecOn with
  | nil => simp [Progress.start]
  | append_singleton visits v ih =>
    rw [walk_append, walk_cons, walk_nil, mem_entries_step, ih]
    constructor
    · rintro (⟨rfl, hhops⟩ | ⟨before, after, rfl, hhops⟩)
      · exact ⟨visits, [], rfl, hhops⟩
      · exact ⟨before, after ++ [v], by simp, hhops⟩
    · rintro ⟨before, after, heq, hhops⟩
      obtain ⟨rfl, rfl, -⟩ | ⟨rest, -, hvisits⟩ := append_singleton_eq heq
      · exact .inl ⟨rfl, hhops⟩
      · exact .inr ⟨before, rest, hvisits, hhops⟩

/-- The entries are about uses of the walk, in order and at most one for each. -/
theorem sublist_entries_walk (visits : List Visit) :
    ((walk visits .start).entries.reverse.map Entry.visit).Sublist visits := by
  induction visits using List.reverseRecOn with
  | nil => exact .slnil
  | append_singleton visits v ih =>
    rw [walk_append, walk_cons, walk_nil]
    cases v with
    | use kind site name =>
      cases hhops : hops? name.lexeme (walk visits .start).scopes with
      | none => simpa [Visit.step, hhops] using ih.trans (List.sublist_append_left _ _)
      | some hops =>
        simpa [Visit.step, hhops, Entry.visit] using
          ih.append (List.Sublist.refl [Visit.use kind site name])
    | _ => simpa [Visit.step] using ih.trans (List.sublist_append_left _ _)

/-- The site of a use. -/
def Visit.site? : Visit → Option Site
  | .use _ site _ => some site
  | _ => none

/-- The sites of the uses among some visits. -/
def sitesOf (visits : List Visit) : List Site := visits.filterMap Visit.site?

@[simp] theorem sitesOf_append (us vs : List Visit) :
    sitesOf (us ++ vs) = sitesOf us ++ sitesOf vs := List.filterMap_append

theorem sitesOf_parameters (names : List Token) : sitesOf (Visit.parameters names) = [] := by
  induction names with
  | nil => rfl
  | cons name names ih => exact ih

theorem sitesOf_function (names : List Token) (body : List Visit) :
    sitesOf (Visit.function names body) = sitesOf body := by
  show sitesOf (Visit.parameters names ++ body ++ [.leave]) = sitesOf body
  rw [sitesOf_append, sitesOf_append, sitesOf_parameters]
  exact List.append_nil _

theorem perm_sites_append {us vs : List Visit} {ss ts : List Site}
    (h : (sitesOf us).Perm ss) (h' : (sitesOf vs).Perm ts) :
    (sitesOf (us ++ vs)).Perm (ss ++ ts) := by
  rw [sitesOf_append]
  exact h.append h'

mutual

/-- The uses that are visited are those of the tree; that of an assignment comes after its value. -/
theorem perm_sites_expression : (e : Expr) → (i : Bool) → (sitesOf (e.visits i)).Perm e.sites
  | .literal _, _ => .refl _
  | .grouping inner, i => perm_sites_expression inner i
  | .unary _ operand, i => perm_sites_expression operand i
  | .binary left _ right, i =>
    perm_sites_append (perm_sites_expression left i) (perm_sites_expression right i)
  | .logical left _ right, i =>
    perm_sites_append (perm_sites_expression left i) (perm_sites_expression right i)
  | .ternary condition thenBranch elseBranch, i => by
    rw [Expr.sites, List.append_assoc]
    exact perm_sites_append (perm_sites_expression condition i)
      (perm_sites_append (perm_sites_expression thenBranch i) (perm_sites_expression elseBranch i))
  | .access _ _, _ => .refl _
  | .assign site name value, i =>
    (perm_sites_append (perm_sites_expression value i)
      (.refl (sitesOf [.use .assignment site name]))).trans (List.perm_append_singleton _ _)
  | .call callee _ arguments, i =>
    perm_sites_append (perm_sites_expression callee i) (perm_sites_expressions arguments i)
  | .function _ parameters body, _ =>
    .trans (.of_eq (sitesOf_function parameters _)) (perm_sites_statements body true)

theorem perm_sites_expressions : (es : List Expr) → (i : Bool) →
    (sitesOf (Expr.allVisits es i)).Perm (Expr.allSites es)
  | [], _ => .refl _
  | e :: es, i => perm_sites_append (perm_sites_expression e i) (perm_sites_expressions es i)

theorem perm_sites_statement : (s : Statement) → (i : Bool) → (sitesOf (s.visits i)).Perm s.sites
  | .block ss, i => by
    rw [Statement.sites, ← (Statement.allSites ss).append_nil]
    exact perm_sites_append (perm_sites_statements ss i) (.refl (sitesOf [.leave]))
  | .expression value, i => perm_sites_expression value i
  | .function _ parameters body, _ =>
    .trans (.of_eq (sitesOf_function parameters _)) (perm_sites_statements body true)
  | .ifElse condition thenBranch none, i =>
    perm_sites_append (perm_sites_expression condition i) (perm_sites_statement thenBranch i)
  | .ifElse condition thenBranch (some elseBranch), i => by
    rw [Statement.sites, List.append_assoc]
    exact perm_sites_append (perm_sites_expression condition i)
      (perm_sites_append (perm_sites_statement thenBranch i) (perm_sites_statement elseBranch i))
  | .print value, i => perm_sites_expression value i
  | .return _ none, _ => .refl _
  | .return _ (some value), i => perm_sites_expression value i
  | .var _ none, _ => .refl _
  | .var name (some initializer), i => by
    rw [Statement.sites, ← initializer.sites.append_nil]
    exact perm_sites_append (perm_sites_expression initializer i) (.refl (sitesOf [.settle name]))
  | .while condition body, i =>
    perm_sites_append (perm_sites_expression condition i) (perm_sites_statement body i)

theorem perm_sites_statements : (ss : List Statement) → (i : Bool) →
    (sitesOf (Statement.allVisits ss i)).Perm (Statement.allSites ss)
  | [], _ => .refl _
  | s :: ss, i => perm_sites_append (perm_sites_statement s i) (perm_sites_statements ss i)

end

end Binding

/-- The uses of a unit. -/
def Code.sites : Code → List Site
  | .program statements => Statement.allSites statements
  | .expression none => []
  | .expression (some e) => e.sites

/-- The declaration that a use of a unit refers to is this many scopes outwards: in the innermost
of the scopes around the use that have one of its name before it. -/
def Code.RefersTo (unit : Code) (site : Site) (hops : Nat) : Prop :=
  ∃ kind name before after, unit.visits = before ++ .use kind site name :: after ∧
    IsLeast {k | Binding.Declares before name.lexeme k} hops

namespace Binding

theorem perm_sites_code (unit : Code) : (sitesOf unit.visits).Perm unit.sites := by
  match unit with
  | .program ss => exact perm_sites_statements ss false
  | .expression none => exact .refl _
  | .expression (some e) => exact perm_sites_expression e false

/-- The search for a name finds its innermost declaration. -/
theorem hops?_walk {unit : Code} {before after : List Visit} (h : unit.visits = before ++ after)
    (name : String) (hops : Nat) :
    hops? name (walk before .start).scopes = some hops ↔
      IsLeast {k | Declares before name k} hops := by
  have hnesting : nesting (before ++ after) 0 = some 0 := h ▸ nesting_code unit 0
  obtain ⟨n, hn⟩ := exists_nesting_of_append hnesting
  have hs : Settled before := fun outer token rest heq =>
    settled_code unit outer token (rest ++ after) (by simp [h, heq])
  rw [hops?_eq_some_iff]
  simp only [has_walk hs hn]

variable {room : Nat} {unit : Code}

/-- The entries of a pass are the references of its unit. -/
theorem mem_entries_iff (hroom : unit.depth ≤ room) (e : Entry) :
    e ∈ (resolve room unit).entries ↔ ∃ before after, unit.visits = before ++ e.visit :: after ∧
      IsLeast {k | Declares before e.name.lexeme k} e.hops := by
  rw [resolve_eq_walk hroom, Resolved.ofProgress, List.mem_reverse, mem_entries_walk]
  refine exists_congr fun before => exists_congr fun after => and_congr_right fun h => ?_
  exact hops?_walk h e.name.lexeme e.hops

theorem sites_entries_sublist (hroom : unit.depth ≤ room) :
    ((resolve room unit).entries.map (·.site)).Sublist (sitesOf unit.visits) := by
  have h := (sublist_entries_walk unit.visits).filterMap Visit.site?
  rw [List.filterMap_map] at h
  rw [resolve_eq_walk hroom, Resolved.ofProgress]
  have hsite : Visit.site? ∘ Entry.visit = some ∘ Entry.site := rfl
  rwa [hsite, List.filterMap_eq_map] at h

/-- A table finds the entry of a site, if there is only one. -/
theorem lookup_install_eq_some_iff {entries : List Entry} (hn : (entries.map (·.site)).Nodup)
    {site : Site} {hops : Nat} :
    (Table.install [] entries).lookup site = some hops ↔
      ∃ e ∈ entries, e.site = site ∧ e.hops = hops := by
  have hlookup := lookup_install [] entries.reverse site
  rw [List.reverse_reverse, List.lookup_nil, Option.or_none] at hlookup
  rw [hlookup, Option.map_eq_some_iff]
  constructor
  · rintro ⟨e, he, rfl⟩
    exact ⟨e, List.mem_reverse.1 (List.mem_of_find?_eq_some he), by simpa using List.find?_some he,
      rfl⟩
  · rintro ⟨e, he, rfl, rfl⟩
    obtain ⟨e', he'⟩ := Option.isSome_iff_exists.1 <|
      List.find?_isSome (p := fun x : Entry => x.site = e.site).2
        ⟨e, List.mem_reverse.2 he, by simp⟩
    have hsite : e'.site = e.site := by simpa using List.find?_some he'
    have hmem := List.mem_reverse.1 (List.mem_of_find?_eq_some he')
    exact ⟨e', he', congrArg _ (List.inj_on_of_nodup_map hn hmem he hsite)⟩

/-- No two uses have the same site, so a use is visited once. -/
theorem use_unique {visits before before' after after' : List Visit} {kind kind' : UseKind}
    {site : Site} {name name' : Token} (hn : (sitesOf visits).Nodup)
    (h : visits = before ++ .use kind site name :: after)
    (h' : visits = before' ++ .use kind' site name' :: after') :
    before = before' ∧ name = name' := by
  have hapart (us vs ws : List Visit) (k k' : UseKind) (n n' : Token) :
      visits ≠ us ++ .use k site n :: (vs ++ .use k' site n' :: ws) := by
    rintro rfl
    simp [sitesOf, Visit.site?, List.nodup_append] at hn
  obtain ⟨mid, rfl, hmid⟩ | ⟨mid, rfl, hmid⟩ := List.append_eq_append_iff.1 (h.symm.trans h')
  · cases mid with
    | nil => cases hmid; simp
    | cons v mid =>
      obtain ⟨rfl, rfl⟩ := List.cons_eq_cons.1 hmid
      exact absurd h (hapart _ _ _ _ _ _ _)
  · cases mid with
    | nil => cases hmid; simp
    | cons v mid =>
      obtain ⟨rfl, rfl⟩ := List.cons_eq_cons.1 hmid
      exact absurd h' (hapart _ _ _ _ _ _ _)

/-- Binding is lexical: the table of a unit is the relation of its uses to their declarations. Every
use with a declaration in a scope around it is recorded, once, and nothing else is. -/
theorem resolve_lexical (hroom : unit.depth ≤ room) (hsites : unit.sites.Nodup) :
    (resolve room unit).complete = true ∧
    ((resolve room unit).entries.map (·.site)).Nodup ∧
    (∀ site hops, (Table.install [] (resolve room unit).entries).lookup site = some hops ↔
      unit.RefersTo site hops) ∧
    ∀ kind site name before after, unit.visits = before ++ .use kind site name :: after →
      (((Table.install [] (resolve room unit).entries).lookup site).isSome ↔
        ∃ k, Declares before name.lexeme k) := by
  have hvisited : (sitesOf unit.visits).Nodup := (perm_sites_code unit).nodup_iff.2 hsites
  have hentries := hvisited.sublist (sites_entries_sublist hroom)
  have hlookup (site : Site) (hops : Nat) :
      (Table.install [] (resolve room unit).entries).lookup site = some hops ↔
        unit.RefersTo site hops := by
    rw [lookup_install_eq_some_iff hentries]
    constructor
    · rintro ⟨e, he, rfl, rfl⟩
      obtain ⟨before, after, hvisits, hleast⟩ := (mem_entries_iff hroom e).1 he
      exact ⟨e.kind, e.name, before, after, hvisits, hleast⟩
    · rintro ⟨kind, name, before, after, hvisits, hleast⟩
      exact ⟨⟨kind, site, name, hops⟩, (mem_entries_iff hroom _).2 ⟨before, after, hvisits, hleast⟩,
        rfl, rfl⟩
  refine ⟨(resolve_complete_iff unit room).2 hroom, hentries, hlookup, ?_⟩
  intro kind site name before after hvisits
  rw [Option.isSome_iff_exists]
  constructor
  · rintro ⟨hops, h⟩
    obtain ⟨kind', name', before', after', hvisits', hleast⟩ := (hlookup site hops).1 h
    obtain ⟨rfl, rfl⟩ := use_unique hvisited hvisits hvisits'
    exact ⟨hops, hleast.1⟩
  · intro hdeclares
    classical
    have hleast : IsLeast {k | Declares before name.lexeme k} (Nat.find hdeclares) :=
      ⟨Nat.find_spec hdeclares, fun k hk => Nat.find_min' hdeclares hk⟩
    exact ⟨_, (hlookup site _).2 ⟨kind, name, before, after, hvisits, hleast⟩⟩

/-- A variable that is declared again, first behind a function that uses it and then in its own
initializer, with a report about either. -/
def redeclared : Code :=
  let name (text : String) : Token := ⟨.identifier, text, .nil, 1⟩
  .program [.block [
    .var (name "x") none,
    .function (name "f") [name "y"] [.expression (.assign 0 (name "y") (.access 1 (name "x")))],
    .var (name "x") (some (.access 2 (name "x"))),
    .print (.access 3 (name "z"))]]

theorem resolve_lexical_redeclared :
    redeclared.depth ≤ 6 ∧ redeclared.sites.Nodup ∧
      (resolve 6 redeclared).reports.length = 2 ∧
      redeclared.RefersTo 0 0 ∧ redeclared.RefersTo 1 1 ∧ redeclared.RefersTo 2 0 ∧
      ∀ hops, ¬ redeclared.RefersTo 3 hops := by
  have hdepth : redeclared.depth ≤ 6 := by decide
  have hsites : redeclared.sites.Nodup := by decide
  obtain ⟨-, -, hlookup, -⟩ := resolve_lexical hdepth hsites
  refine ⟨hdepth, hsites, by decide +kernel, (hlookup 0 0).1 ?_, (hlookup 1 1).1 ?_,
    (hlookup 2 0).1 ?_, fun hops h => ?_⟩
  · decide +kernel
  · decide +kernel
  · decide +kernel
  · have hnone : (Table.install [] (resolve 6 redeclared).entries).lookup 3 = none := by
      decide +kernel
    cases hnone.symm.trans ((hlookup 3 hops).2 h)

end Binding
end Lox
