import Lox.Binding
import Lox.Proofs.Ending
import Lox.Proofs.Syntax.Canonical
import Lox.Proofs.Syntax.Sites
import Mathlib.Data.List.Nodup

/-!
# Bound trees

A tree is bound by a table, among some open scopes, if the table gives every use of a variable the
way to the nearest scope that declares its name, if no variable is read before it may be, and if no
scope declares a name twice. A pass that makes no report binds the tree that it walks over, by the
entries that it records.
-/
namespace Lox

open Binding

namespace Binding

/-- The open scopes after a name is marked in the innermost one. -/
def marked (name : String) (ready : Bool) : List Names → List Names
  | [] => []
  | names :: outer => ((name, ready) :: names) :: outer

/-- Whether the innermost scope declares a name. -/
def declaredIn (name : String) (scopes : List Names) : Bool :=
  (scopes.head?.bind (·.lookup name)).isSome

/-- The open scopes behind the declaration of a name. -/
def declaring (name : String) (scopes : List Names) : List Names :=
  marked name true (marked name false scopes)

/-- The names of a scope after those of some parameters. -/
def withParameters (parameters : List Token) (names : Names) : Names :=
  parameters.foldl (fun names p => (p.lexeme, true) :: (p.lexeme, false) :: names) names

@[simp] theorem tail_marked (name : String) (ready : Bool) (scopes : List Names) :
    (marked name ready scopes).tail = scopes.tail := by
  cases scopes <;> rfl

theorem hops?_enter (name : String) (scopes : List Names) :
    hops? name ([] :: scopes) = (hops? name scopes).map (· + 1) := by
  simp [hops?, List.findIdx?_cons]

theorem readable_enter (name : String) (scopes : List Names) :
    readable name ([] :: scopes) = readable name scopes := by
  simp [readable, List.findSome?_cons]

/-- A name that is marked is in the innermost scope. -/
theorem hops?_marked (name other : String) (ready : Bool) (names : Names) (outer : List Names) :
    hops? other (marked name ready (names :: outer)) =
      if other = name then some 0 else hops? other (names :: outer) := by
  by_cases h : other = name
  · simp [hops?, marked, List.findIdx?_cons, h]
  · simp [hops?, marked, List.findIdx?_cons, h, List.lookup_cons, beq_false_of_ne h]

theorem readable_marked (name other : String) (ready : Bool) (names : Names)
    (outer : List Names) :
    readable other (marked name ready (names :: outer)) =
      if other = name then ready else readable other (names :: outer) := by
  by_cases h : other = name
  · simp [readable, marked, h]
  · simp [readable, marked, h, List.findSome?_cons, List.lookup_cons, beq_false_of_ne h]

theorem declaredIn_marked (name other : String) (ready : Bool) (names : Names)
    (outer : List Names) :
    declaredIn other (marked name ready (names :: outer)) =
      (decide (other = name) || declaredIn other (names :: outer)) := by
  by_cases h : other = name
  · simp [declaredIn, marked, h]
  · simp [declaredIn, marked, h, List.lookup_cons, beq_false_of_ne h]

/-- What is declared stays declared when another name is marked. -/
theorem declaredIn_marked_of_declaredIn {name other : String} {ready : Bool} {Γ : List Names}
    (h : declaredIn other Γ = true) : declaredIn other (marked name ready Γ) = true := by
  cases Γ with
  | nil => exact h
  | cons names outer => rw [declaredIn_marked, h, Bool.or_true]

end Binding

/-- The open scopes behind a statement. -/
def Statement.scopesAfter (scopes : List Names) : Statement → List Names
  | .var name _ => declaring name.lexeme scopes
  | .function name _ _ => declaring name.lexeme scopes
  | _ => scopes

theorem Statement.scopesAfter_of_not_declaration {s : Statement} (h : s.isDeclaration = false)
    (scopes : List Names) : s.scopesAfter scopes = scopes := by
  cases s <;> first | rfl | cases h

@[simp] theorem Statement.tail_scopesAfter (s : Statement) (scopes : List Names) :
    (s.scopesAfter scopes).tail = scopes.tail := by
  cases s <;> simp [scopesAfter, declaring]

section
variable (t : Table)

mutual

def Expr.Bound : Expr → List Names → Prop
  | .literal _, _ => True
  | .grouping inner, scopes => inner.Bound scopes
  | .unary _ operand, scopes => operand.Bound scopes
  | .binary left _ right, scopes => left.Bound scopes ∧ right.Bound scopes
  | .logical left _ right, scopes => left.Bound scopes ∧ right.Bound scopes
  | .ternary condition thenBranch elseBranch, scopes =>
    condition.Bound scopes ∧ thenBranch.Bound scopes ∧ elseBranch.Bound scopes
  | .access site name, scopes =>
    t.lookup site = hops? name.lexeme scopes ∧ readable name.lexeme scopes = true
  | .assign site name value, scopes =>
    value.Bound scopes ∧ t.lookup site = hops? name.lexeme scopes
  | .call callee _ arguments, scopes => callee.Bound scopes ∧ Expr.AllBound arguments scopes
  | .function _ parameters body, scopes =>
    (parameters.map (·.lexeme)).Nodup ∧
      Statement.AllBound body (withParameters parameters [] :: scopes)

def Expr.AllBound : List Expr → List Names → Prop
  | [], _ => True
  | e :: rest, scopes => e.Bound scopes ∧ Expr.AllBound rest scopes

/-- A variable is declared already in its initializer, and a function in its body. -/
def Statement.Bound : Statement → List Names → Prop
  | .block statements, scopes => Statement.AllBound statements ([] :: scopes)
  | .expression value, scopes => value.Bound scopes
  | .function name parameters body, scopes =>
    declaredIn name.lexeme scopes = false ∧ (parameters.map (·.lexeme)).Nodup ∧
      Statement.AllBound body (withParameters parameters [] :: declaring name.lexeme scopes)
  | .ifElse condition thenBranch none, scopes =>
    condition.Bound scopes ∧ thenBranch.Bound scopes ∧ thenBranch.isDeclaration = false
  | .ifElse condition thenBranch (some elseBranch), scopes =>
    condition.Bound scopes ∧ thenBranch.Bound scopes ∧ thenBranch.isDeclaration = false ∧
      elseBranch.Bound scopes ∧ elseBranch.isDeclaration = false
  | .print value, scopes => value.Bound scopes
  | .return _ none, _ => True
  | .return _ (some value), scopes => value.Bound scopes
  | .var name none, scopes => declaredIn name.lexeme scopes = false
  | .var name (some initializer), scopes =>
    declaredIn name.lexeme scopes = false ∧ initializer.Bound (marked name.lexeme false scopes)
  | .while condition body, scopes =>
    condition.Bound scopes ∧ body.Bound scopes ∧ body.isDeclaration = false

def Statement.AllBound : List Statement → List Names → Prop
  | [], _ => True
  | s :: rest, scopes => s.Bound scopes ∧ Statement.AllBound rest (s.scopesAfter scopes)

end

end

namespace Binding

/-- A table has just these entries for these sites. -/
def Records (t : Table) (entries : List Entry) (sites : List Nat) : Prop :=
  ∀ site ∈ sites, t.lookup site = (entries.find? (·.site = site)).map (·.hops)

/-- A part of a pass from one state to another: it walks over uses with these sites and leaves these
scopes open, and if it makes no report, then of every table with its entries `P` holds. -/
structure Walks (scopes : List Names) (sites : List Nat) (P : Table → Prop) (p p' : Progress) :
    Prop where
  scopes : p'.scopes = scopes
  found : ∃ entries reports, p'.entries = entries ++ p.entries ∧ p'.reports = reports ++ p.reports ∧
    (∀ x ∈ entries, x.site ∈ sites) ∧ (reports = [] → ∀ t, Records t entries sites → P t)

/-- An action of the pass, begun in some scopes, walks over uses. -/
def WalksOver {α : Type} (act : Binder α) (before after : List Names) (sites : List Nat)
    (P : Table → Prop) : Prop :=
  ∀ p, p.scopes = before → Ends act p (fun _ p' => Walks after sites P p p') fun _ _ => True

theorem Records.left {t : Table} {es fs : List Entry} {us vs : List Nat}
    (h : Records t (fs ++ es) (us ++ vs)) (hdis : List.Disjoint us vs)
    (hf : ∀ x ∈ fs, x.site ∈ vs) : Records t es us := by
  intro site hsite
  rw [h site (List.mem_append_left _ hsite), List.find?_append]
  have hnone : fs.find? (·.site = site) = none := by
    refine List.find?_eq_none.2 fun x hx hk => ?_
    have heq : x.site = site := by simpa using hk
    exact hdis hsite (heq ▸ hf x hx)
  rw [hnone, Option.none_or]

theorem Records.right {t : Table} {es fs : List Entry} {us vs : List Nat}
    (h : Records t (fs ++ es) (us ++ vs)) (hdis : List.Disjoint us vs)
    (he : ∀ x ∈ es, x.site ∈ us) : Records t fs vs := by
  intro site hsite
  rw [h site (List.mem_append_right _ hsite), List.find?_append]
  have hnone : es.find? (·.site = site) = none := by
    refine List.find?_eq_none.2 fun x hx hk => ?_
    have heq : x.site = site := by simpa using hk
    exact hdis (heq ▸ he x hx) hsite
  rw [hnone, Option.or_none]

namespace Walks

variable {Γ Γ' : List Names} {us vs : List Nat} {P Q : Table → Prop} {p p₁ p₂ : Progress}

theorem refl (p : Progress) : Walks p.scopes [] (fun _ => True) p p :=
  ⟨rfl, [], [], rfl, rfl, by simp, fun _ _ _ => trivial⟩

theorem trans (h : Walks Γ us P p p₁) (h' : Walks Γ' vs Q p₁ p₂) (hdis : List.Disjoint us vs) :
    Walks Γ' (us ++ vs) (fun t => P t ∧ Q t) p p₂ := by
  obtain ⟨es, rs, hes, hrs, hsites, hP⟩ := h.found
  obtain ⟨es', rs', hes', hrs', hsites', hQ⟩ := h'.found
  refine ⟨h'.scopes, es' ++ es, rs' ++ rs, by simp [hes, hes'], by simp [hrs, hrs'], ?_, ?_⟩
  · intro x hx
    rcases List.mem_append.1 hx with hx | hx
    · exact List.mem_append_right _ (hsites' x hx)
    · exact List.mem_append_left _ (hsites x hx)
  · intro hnil t ht
    obtain ⟨hnil', hnil⟩ := List.append_eq_nil_iff.1 hnil
    exact ⟨hP hnil t (ht.left hdis hsites'), hQ hnil' t (ht.right hdis hsites)⟩

theorem cast (h : Walks Γ us P p p₁) (hsites : ∀ site, site ∈ us ↔ site ∈ vs)
    (hPQ : ∀ t, P t → Q t) : Walks Γ vs Q p p₁ := by
  obtain ⟨es, rs, hes, hrs, hmem, hP⟩ := h.found
  refine ⟨h.scopes, es, rs, hes, hrs, fun x hx => (hsites _).1 (hmem x hx), fun hnil t ht => ?_⟩
  exact hPQ t (hP hnil t fun site hsite => ht site ((hsites site).1 hsite))

/-- The pass goes on with another part. -/
theorem step {α β : Type} {act : Binder α} {next : α → Binder β} {R : β → Progress → Prop}
    (h : Walks Γ us P p p₁) (hact : WalksOver act Γ Γ' vs Q) (hdis : List.Disjoint us vs)
    (hn : ∀ a p₂, Walks Γ' (us ++ vs) (fun t => P t ∧ Q t) p p₂ →
      Ends (next a) p₂ R fun _ _ => True) :
    Ends (act >>= next) p₁ R fun _ _ => True := by
  rw [ends_bind]
  exact (hact p₁ h.scopes).imp (fun a p₂ h₂ => hn a p₂ (h.trans h₂ hdis)) fun _ _ h => h

/-- A part that uses no variable. -/
theorem pass {α β : Type} {act : Binder α} {next : α → Binder β} {R : β → Progress → Prop}
    (h : Walks Γ us P p p₁) (hact : WalksOver act Γ Γ' [] Q)
    (hn : ∀ a p₂, Walks Γ' us (fun t => P t ∧ Q t) p p₂ → Ends (next a) p₂ R fun _ _ => True) :
    Ends (act >>= next) p₁ R fun _ _ => True := by
  refine h.step hact (by simp) fun a p₂ h₂ => hn a p₂ ?_
  rwa [List.append_nil] at h₂

end Walks

section
variable {Γ : List Names}

theorem walksOver_mark (name : String) (ready : Bool) :
    WalksOver (mark name ready) Γ (marked name ready Γ) [] fun _ => True := by
  rintro p rfl
  cases hscopes : p.scopes with
  | nil =>
    have hok : mark name ready p = .ok () p := by simp [mark, hscopes]
    exact .of_ok hok ⟨hscopes, (Walks.refl p).found⟩
  | cons names outer =>
    have hok : mark name ready p = .ok ()
        { p with scopes := ((name, ready) :: names) :: outer } := by simp [mark, hscopes]
    exact .of_ok hok ⟨rfl, (Walks.refl p).found⟩

theorem walksOver_report (token : Token) (fault : Fault) {P : Table → Prop} :
    WalksOver (report token fault) Γ Γ [] P := by
  rintro p rfl
  exact ⟨rfl, [], [⟨token, fault⟩], rfl, rfl, by simp, by simp⟩

theorem walksOver_declare (name : Token) :
    WalksOver (declare name) Γ (marked name.lexeme false Γ) []
      fun _ => declaredIn name.lexeme Γ = false := by
  rintro p rfl
  have hmark (p₁ : Progress) (h : Walks p.scopes []
      (fun _ => declaredIn name.lexeme p.scopes = false) p p₁) :
      Ends (mark name.lexeme false) p₁ (fun _ p' => Walks (marked name.lexeme false p.scopes) []
        (fun _ => declaredIn name.lexeme p.scopes = false) p p') fun _ _ => True := by
    rw [← bind_pure (mark _ _)]
    exact h.pass (walksOver_mark name.lexeme false)
      fun _ p₂ h₂ => h₂.cast (by simp) fun t ht => ht.1
  show Ends (do
    if p.declares name.lexeme then report name (.alreadyDeclared name.lexeme)
    mark name.lexeme false : Binder Unit) p _ _
  by_cases h : p.declares name.lexeme = true
  · rw [if_pos h]
    have hreport : WalksOver (report name (.alreadyDeclared name.lexeme)) p.scopes p.scopes []
        fun _ => declaredIn name.lexeme p.scopes = false := walksOver_report name _
    exact (Walks.refl p).pass hreport fun _ p₁ h₁ =>
      hmark p₁ (h₁.cast (by simp) fun t ht => ht.2)
  · rw [if_neg h]
    exact hmark p ((Walks.refl p).cast (by simp) fun _ _ => Bool.eq_false_iff.2 h)

theorem walksOver_bind (kind : UseKind) (site : Site) (name : Token) :
    WalksOver (bind kind site name) Γ Γ [site] fun t => t.lookup site = hops? name.lexeme Γ := by
  rintro p rfl
  cases hhops : hops? name.lexeme p.scopes with
  | none =>
    have hok : bind kind site name p = .ok () p := by simp [bind, hhops]
    refine .of_ok hok ⟨rfl, [], [], rfl, rfl, by simp, fun _ t ht => ?_⟩
    simpa using ht site (by simp)
  | some hops =>
    have hok : bind kind site name p = .ok ()
        { p with entries := ⟨kind, site, name, hops⟩ :: p.entries } := by simp [bind, hhops]
    refine .of_ok hok ⟨rfl, [⟨kind, site, name, hops⟩], [], rfl, rfl, by simp, fun _ t ht => ?_⟩
    simpa using ht site (by simp)

theorem walksOver_checkReadable (name : Token) :
    WalksOver (checkReadable name) Γ Γ [] fun _ => readable name.lexeme Γ = true := by
  rintro p rfl
  by_cases h : readable name.lexeme p.scopes = true
  · have hok : checkReadable name p = .ok () p := by simp [checkReadable, h]
    exact .of_ok hok ⟨rfl, [], [], rfl, rfl, by simp, fun _ _ _ => h⟩
  · have heq : checkReadable name p = report name .readInInitializer p := by
      simp [checkReadable, h]
    rw [Ends, heq]
    exact walksOver_report name .readInInitializer p rfl

theorem walksOver_checkReturn (keyword : Token) :
    WalksOver (checkReturn keyword) Γ Γ [] fun _ => True := by
  rintro p rfl
  by_cases h : p.insideFunction = true
  · have hok : checkReturn keyword p = .ok () p := by simp [checkReturn, h]
    exact .of_ok hok (Walks.refl p)
  · have heq : checkReturn keyword p = report keyword .returnOutsideFunction p := by
      simp [checkReturn, h]
    rw [Ends, heq]
    exact walksOver_report keyword .returnOutsideFunction p rfl

theorem walksOver_openScope : WalksOver openScope Γ ([] :: Γ) [] fun _ => True := by
  rintro p rfl
  exact ⟨rfl, (Walks.refl p).found⟩

theorem walksOver_closeScope : WalksOver closeScope Γ Γ.tail [] fun _ => True := by
  rintro p rfl
  exact ⟨rfl, (Walks.refl p).found⟩

theorem walksOver_enterFunction (inside : Bool) :
    WalksOver (enterFunction inside) Γ Γ [] fun _ => True := by
  rintro p rfl
  exact ⟨rfl, (Walks.refl p).found⟩

end

theorem walksOver_outOfRoom {Γ Γ' : List Names} {us : List Nat} {P : Table → Prop} :
    WalksOver outOfRoom Γ Γ' us P :=
  fun _ _ => trivial

/-- The open scopes behind statements. -/
def scopesBehind (Γ : List Names) (ss : List Statement) : List Names :=
  ss.foldl (fun Γ s => s.scopesAfter Γ) Γ

theorem tail_scopesBehind (Γ : List Names) (ss : List Statement) :
    (scopesBehind Γ ss).tail = Γ.tail := by
  induction ss generalizing Γ with
  | nil => rfl
  | cons s ss ih =>
    rw [scopesBehind, List.foldl_cons]
    exact (ih (s.scopesAfter Γ)).trans (s.tail_scopesAfter Γ)

theorem WalksOver.cast {α : Type} {act : Binder α} {Γ Γ' : List Names} {us vs : List Nat}
    {P Q : Table → Prop} (h : WalksOver act Γ Γ' us P) (hsites : ∀ site, site ∈ us ↔ site ∈ vs)
    (hPQ : ∀ t, P t → Q t) : WalksOver act Γ Γ' vs Q :=
  fun p hp => (h p hp).imp (fun _ _ hw => hw.cast hsites hPQ) fun _ _ h => h

theorem walksOver_pure {Γ : List Names} :
    WalksOver (pure () : Binder Unit) Γ Γ [] fun _ => True := by
  rintro p rfl
  exact Walks.refl p

/-- Two parts in sequence. -/
theorem WalksOver.andThen {act act' : Binder Unit} {Γ Γ₁ Γ₂ : List Names} {us vs : List Nat}
    {P Q : Table → Prop} (h : WalksOver act Γ Γ₁ us P) (h' : WalksOver act' Γ₁ Γ₂ vs Q)
    (hdis : List.Disjoint us vs) :
    WalksOver (do act; act') Γ Γ₂ (us ++ vs) fun t => P t ∧ Q t := by
  rintro p hp
  rw [ends_bind]
  refine (h p hp).imp (fun _ p₁ h₁ => ?_) fun _ _ h => h
  exact (h' p₁ h₁.scopes).imp (fun _ p₂ h₂ => h₁.trans h₂ hdis) fun _ _ h => h

/-- The parameters of a function are declared in its scope one after the other. -/
theorem walksOver_parameters (parameters : List Token) (names : Names) (Γ : List Names) :
    WalksOver (each (fun name => do declare name; define name) parameters) (names :: Γ)
      (withParameters parameters names :: Γ) [] fun _ =>
        (parameters.map (·.lexeme)).Nodup ∧
          ∀ p ∈ parameters, (names.lookup p.lexeme).isSome = false := by
  induction parameters generalizing names with
  | nil =>
    rintro p hp
    exact ⟨hp, [], [], rfl, rfl, by simp, fun _ _ _ => by simp⟩
  | cons name rest ih =>
    have hname : WalksOver (do declare name; define name) (names :: Γ)
        (((name.lexeme, true) :: (name.lexeme, false) :: names) :: Γ) [] _ :=
      (walksOver_declare name).andThen (walksOver_mark name.lexeme true) (by simp)
    apply (hname.andThen (ih _) (by simp)).cast (by simp)
    intro t ht
    obtain ⟨⟨hnew, -⟩, hnodup, hrest⟩ := ht
    have hne : ∀ p ∈ rest, name.lexeme ≠ p.lexeme ∧ (names.lookup p.lexeme).isSome = false := by
      intro p hp
      have h := hrest p hp
      by_cases heq : p.lexeme = name.lexeme
      · simp [heq] at h
      · simp only [List.lookup_cons, beq_false_of_ne heq] at h
        exact ⟨Ne.symm heq, h⟩
    constructor
    · rw [List.map_cons, List.nodup_cons]
      refine ⟨fun hmem => ?_, hnodup⟩
      obtain ⟨p, hp, heq⟩ := List.mem_map.1 hmem
      exact (hne p hp).1 heq.symm
    · exact List.forall_mem_cons.2 ⟨hnew, fun p hp => (hne p hp).2⟩

/-- A function among some scopes is bound if its parameters are distinct and its body is bound. -/
def FunctionBound (t : Table) (parameters : List Token) (body : List Statement)
    (Γ : List Names) : Prop :=
  (parameters.map (·.lexeme)).Nodup ∧
    Statement.AllBound t body (withParameters parameters [] :: Γ)

theorem walksOver_function {room : Nat} {parameters : List Token} {body : List Statement}
    (hb : ∀ room Γ, WalksOver (each (statement room) body) Γ (scopesBehind Γ body)
      (Statement.allSites body) (Statement.AllBound · body Γ)) (Γ : List Names) :
    WalksOver (function room parameters body) Γ Γ (Statement.allSites body)
      (FunctionBound · parameters body Γ) := by
  cases room with
  | zero => exact walksOver_outOfRoom
  | succ room =>
    rintro p rfl
    apply (Walks.refl p).pass (walksOver_enterFunction true)
    intro outside p₁ h₁
    apply h₁.pass walksOver_openScope
    intro _ p₂ h₂
    apply h₂.pass (walksOver_parameters parameters [] p.scopes)
    intro _ p₃ h₃
    apply h₃.step (hb room _) (by simp)
    intro _ p₄ h₄
    apply h₄.pass walksOver_closeScope
    intro _ p₅ h₅
    rw [tail_scopesBehind, List.tail_cons] at h₅
    refine h₅.pass (walksOver_enterFunction outside) fun _ p₆ h₆ => ?_
    exact h₆.cast (by simp) fun t ht => ⟨ht.1.1.1.2.1, ht.1.1.2⟩

mutual

theorem walksOver_expression : (e : Expr) → e.Canonical → e.sites.Nodup →
    ∀ room Γ, WalksOver (expression room e) Γ Γ e.sites (e.Bound · Γ)
  | _, _, _, 0, _ => walksOver_outOfRoom
  | .literal _, _, _, room + 1, Γ => by
    rintro p rfl
    exact Walks.refl p
  | .grouping inner, hc, hn, room + 1, Γ => walksOver_expression inner hc hn room Γ
  | .unary _ operand, hc, hn, room + 1, Γ => walksOver_expression operand hc.2.1 hn room Γ
  | .binary left _ right, hc, hn, room + 1, Γ => by
    obtain ⟨hl, hr, hdis⟩ := List.nodup_append'.1 hn
    exact (walksOver_expression left hc.1 hl room Γ).andThen
      (walksOver_expression right hc.2.1 hr room Γ) hdis
  | .logical left _ right, hc, hn, room + 1, Γ => by
    obtain ⟨hl, hr, hdis⟩ := List.nodup_append'.1 hn
    exact (walksOver_expression left hc.1 hl room Γ).andThen
      (walksOver_expression right hc.2.1 hr room Γ) hdis
  | .ternary condition thenBranch elseBranch, hc, hn, room + 1, Γ => by
    rw [Expr.sites, List.append_assoc] at hn
    obtain ⟨hcondition, hbranches, hdis⟩ := List.nodup_append'.1 hn
    obtain ⟨ht, he, hdis'⟩ := List.nodup_append'.1 hbranches
    have hboth := (walksOver_expression thenBranch hc.2.2.1 ht room Γ).andThen
      (walksOver_expression elseBranch hc.2.2.2 he room Γ) hdis'
    refine ((walksOver_expression condition hc.1 hcondition room Γ).andThen hboth hdis).cast ?_
      fun _ h => h
    simp [Expr.sites]
  | .access site name, _, _, room + 1, Γ =>
    ((walksOver_checkReadable name).andThen (walksOver_bind .access site name) (by simp)).cast
      (by simp [Expr.sites]) fun _ ht => ⟨ht.2, ht.1⟩
  | .assign site name value, hc, hn, room + 1, Γ => by
    obtain ⟨hsite, hv⟩ := List.nodup_cons.1 hn
    refine ((walksOver_expression value hc.2 hv room Γ).andThen
      (walksOver_bind .assignment site name) (by simpa using hsite)).cast ?_ fun _ ht => ht
    simp [Expr.sites, or_comm]
  | .call callee _ arguments, hc, hn, room + 1, Γ => by
    obtain ⟨hcallee, ha, hdis⟩ := List.nodup_append'.1 hn
    exact (walksOver_expression callee hc.1 hcallee room Γ).andThen
      (walksOver_arguments arguments hc.2.2.2 ha room Γ) hdis
  | .function _ _ body, hc, hn, room + 1, Γ =>
    walksOver_function (walksOver_statements body hc.2.2 hn) Γ

theorem walksOver_arguments : (es : List Expr) → Expr.AllCanonical es → (Expr.allSites es).Nodup →
    ∀ room Γ, WalksOver (each (expression room) es) Γ Γ (Expr.allSites es) (Expr.AllBound · es Γ)
  | [], _, _, _, _ => by
    rintro p rfl
    exact Walks.refl p
  | e :: es, hc, hn, room, Γ => by
    obtain ⟨he, hes, hdis⟩ := List.nodup_append'.1 hn
    exact (walksOver_expression e hc.1 he room Γ).andThen
      (walksOver_arguments es hc.2 hes room Γ) hdis

theorem walksOver_statement : (s : Statement) → s.Canonical → s.sites.Nodup →
    ∀ room Γ, WalksOver (statement room s) Γ (s.scopesAfter Γ) s.sites (s.Bound · Γ)
  | _, _, _, 0, _ => walksOver_outOfRoom
  | .block ss, hc, hn, room + 1, Γ => by
    have hss := (walksOver_statements ss hc hn room ([] :: Γ)).andThen walksOver_closeScope
      (by simp)
    rw [tail_scopesBehind] at hss
    exact (walksOver_openScope.andThen hss (by simp)).cast (by simp [Statement.sites])
      fun _ h => h.2.1
  | .expression value, hc, hn, room + 1, Γ => walksOver_expression value hc hn room Γ
  | .function name parameters body, hc, hn, room + 1, Γ => by
    have hbody : WalksOver (function room parameters body) (declaring name.lexeme Γ) _ _ _ :=
      walksOver_function (walksOver_statements body hc.2.2 hn) _
    exact ((walksOver_declare name).andThen ((walksOver_mark name.lexeme true).andThen hbody
      (by simp)) (by simp)).cast (by simp [Statement.sites]) fun _ h => ⟨h.1, h.2.2⟩
  | .ifElse condition thenBranch none, hc, hn, room + 1, Γ => by
    obtain ⟨hcondition, ht, hdis⟩ := List.nodup_append'.1 hn
    have hthen := walksOver_statement thenBranch hc.2.1 ht room Γ
    rw [Statement.scopesAfter_of_not_declaration hc.2.2] at hthen
    refine ((walksOver_expression condition hc.1 hcondition room Γ).andThen
      (hthen.andThen walksOver_pure (by simp)) (by simpa using hdis)).cast ?_ fun _ h => ?_
    · simp [Statement.sites]
    · exact ⟨h.1, h.2.1, hc.2.2⟩
  | .ifElse condition thenBranch (some elseBranch), hc, hn, room + 1, Γ => by
    obtain ⟨hcc, hct, hdt, -, hce, hde⟩ := hc
    rw [Statement.sites, List.append_assoc] at hn
    obtain ⟨hcondition, hbranches, hdis⟩ := List.nodup_append'.1 hn
    obtain ⟨ht, he, hdis'⟩ := List.nodup_append'.1 hbranches
    have hthen := walksOver_statement thenBranch hct ht room Γ
    have helse := walksOver_statement elseBranch hce he room Γ
    rw [Statement.scopesAfter_of_not_declaration hdt] at hthen
    rw [Statement.scopesAfter_of_not_declaration hde] at helse
    refine ((walksOver_expression condition hcc hcondition room Γ).andThen
      (hthen.andThen helse hdis') hdis).cast ?_ fun _ h => ?_
    · simp [Statement.sites]
    · exact ⟨h.1, h.2.1, hdt, h.2.2, hde⟩
  | .print value, hc, hn, room + 1, Γ => walksOver_expression value hc hn room Γ
  | .return keyword none, _, _, room + 1, Γ =>
    ((walksOver_checkReturn keyword).andThen walksOver_pure (by simp)).cast
      (by simp [Statement.sites]) fun _ _ => trivial
  | .return keyword (some value), hc, hn, room + 1, Γ =>
    ((walksOver_checkReturn keyword).andThen (walksOver_expression value hc.2 hn room Γ)
      (by simp)).cast (by simp [Statement.sites]) fun _ h => h.2
  | .var name none, _, _, room + 1, Γ =>
    ((walksOver_declare name).andThen (walksOver_pure.andThen (walksOver_mark name.lexeme true)
      (by simp)) (by simp)).cast (by simp [Statement.sites]) fun _ h => h.1
  | .var name (some initializer), hc, hn, room + 1, Γ => by
    have hvalue := walksOver_expression initializer hc.2 hn room (marked name.lexeme false Γ)
    exact ((walksOver_declare name).andThen (hvalue.andThen (walksOver_mark name.lexeme true)
      (by simp)) (by simp)).cast (by simp [Statement.sites]) fun _ h => ⟨h.1, h.2.1⟩
  | .while condition body, hc, hn, room + 1, Γ => by
    obtain ⟨hcondition, hb, hdis⟩ := List.nodup_append'.1 hn
    have hbody := walksOver_statement body hc.2.1 hb room Γ
    rw [Statement.scopesAfter_of_not_declaration hc.2.2] at hbody
    exact ((walksOver_expression condition hc.1 hcondition room Γ).andThen hbody hdis).cast
      (by simp [Statement.sites]) fun _ h => ⟨h.1, h.2, hc.2.2⟩

theorem walksOver_statements : (ss : List Statement) → Statement.AllCanonical ss →
    (Statement.allSites ss).Nodup → ∀ room Γ, WalksOver (each (statement room) ss) Γ
      (scopesBehind Γ ss) (Statement.allSites ss) (Statement.AllBound · ss Γ)
  | [], _, _, _, _ => by
    rintro p rfl
    exact Walks.refl p
  | s :: ss, hc, hn, room, Γ => by
    obtain ⟨hs, hss, hdis⟩ := List.nodup_append'.1 hn
    exact (walksOver_statement s hc.1 hs room Γ).andThen
      (walksOver_statements ss hc.2 hss room (s.scopesAfter Γ)) hdis

end

/-- The newest entry of a use is the one that counts. -/
theorem lookup_install (t : Table) (entries : List Entry) (site : Nat) :
    (t.install entries.reverse).lookup site =
      ((entries.find? (·.site = site)).map (·.hops)).or (t.lookup site) := by
  induction entries with
  | nil => simp [Table.install]
  | cons e entries ih =>
    have hcons : t.install (e :: entries).reverse =
        (e.site, e.hops) :: t.install entries.reverse := by
      simp [Table.install, List.foldl_append]
    rw [hcons, List.lookup_cons, List.find?_cons]
    by_cases h : e.site = site
    · simp [h]
    · rw [ih]
      simp [h, beq_false_of_ne (Ne.symm h)]

/-- A program of canonical statements that is resolved without a report is bound by every table that
has its entries for its uses, if no two of them have the same site. -/
theorem allBound_of_recorded {room : Nat} {ss : List Statement} {t : Table}
    (hc : Statement.AllCanonical ss) (hn : (Statement.allSites ss).Nodup)
    (hcomplete : (resolve room (.program ss)).complete = true)
    (hreports : (resolve room (.program ss)).reports = [])
    (ht : ∀ site ∈ Statement.allSites ss, t.lookup site =
      (Table.install [] (resolve room (.program ss)).entries).lookup site) :
    Statement.AllBound t ss [] := by
  have hwalk : Ends (code room (.program ss)) .start _ _ :=
    walksOver_statements ss hc hn room [] .start rfl
  cases hrun : code room (.program ss) .start with
  | error e p => simp [resolve, hrun, Resolved.ofProgress] at hcomplete
  | ok a p =>
    obtain ⟨es, rs, hes, hrs, -, hbound⟩ := (hwalk.ok hrun).found
    simp only [resolve, hrun, Resolved.ofProgress] at hreports ht
    have hnil : rs = [] := by simpa [hrs, Progress.start] using hreports
    apply hbound hnil _
    intro site hsite
    rw [ht site hsite, lookup_install, hes, Progress.start, List.append_nil, List.lookup_nil,
      Option.or_none]

/-- Such a program is bound by the table of its entries. -/
theorem allBound_of_resolve {room : Nat} {ss : List Statement}
    (hc : Statement.AllCanonical ss) (hn : (Statement.allSites ss).Nodup)
    (hcomplete : (resolve room (.program ss)).complete = true)
    (hreports : (resolve room (.program ss)).reports = []) :
    Statement.AllBound (Table.install [] (resolve room (.program ss)).entries) ss [] :=
  allBound_of_recorded hc hn hcomplete hreports fun _ _ => rfl

end Binding
end Lox
