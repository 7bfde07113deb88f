import Lox.Proofs.Scoping.Visits
import Lox.Proofs.Syntax.Renaming

/-!
# Binding a renamed tree

A pass over a bound tree and a pass over the tree with renamed variables go side by side. The open
scopes hold the same names in the same places, but for the renamed ones, so that every use leads as
far in the one pass as in the other: the renamed tree gets the same entries, up to names, and as
many reports.
-/
namespace Lox

variable {ρ : Renaming}

namespace Binding

/-- The names of a scope, which is chosen or not. -/
def renamedNames (ρ : Renaming) (chosen : Bool) (names : Names) : Names :=
  names.map fun entry => (ρ.name chosen entry.1, entry.2)

/-- No scope declares the new name. -/
def LacksNew (ρ : Renaming) (Γ : List Names) : Prop := ∀ names ∈ Γ, ∀ entry ∈ names, entry.1 ≠ ρ.new

/-- Names other than the new one stay apart, whichever scopes they are in. -/
theorem eq_of_name_eq {chosen chosen' : Bool} {a b : String} (ha : a ≠ ρ.new) (hb : b ≠ ρ.new)
    (h : ρ.name chosen a = ρ.name chosen' b) : a = b := by
  unfold Renaming.name at h
  split at h <;> split at h <;> simp_all

section
variable {chosen : Bool} {names : Names} {x : String}

theorem lookup_renamedNames (hx : x ≠ ρ.new) (hnames : ∀ entry ∈ names, entry.1 ≠ ρ.new) :
    (renamedNames ρ chosen names).lookup (ρ.name chosen x) = names.lookup x := by
  induction names with
  | nil => rfl
  | cons entry names ih =>
    obtain ⟨hentry, hnames⟩ := List.forall_mem_cons.1 hnames
    have hkey : (ρ.name chosen x == ρ.name chosen entry.1) = (x == entry.1) := by
      rw [Bool.eq_iff_iff, beq_iff_eq, beq_iff_eq]
      exact ⟨eq_of_name_eq hx hentry, congrArg _⟩
    rw [renamedNames, List.map_cons, List.lookup_cons, List.lookup_cons, hkey]
    cases x == entry.1 with
    | true => rfl
    | false => exact ih hnames

/-- A name that is not declared in a scope is not declared in the renamed one either, whatever is
written for it. -/
theorem lookup_renamedNames_eq_none {chosen' : Bool} (hx : x ≠ ρ.new)
    (hnames : ∀ entry ∈ names, entry.1 ≠ ρ.new) (h : names.lookup x = none) :
    (renamedNames ρ chosen names).lookup (ρ.name chosen' x) = none := by
  rw [List.lookup_eq_none_iff] at h ⊢
  intro entry hmem
  obtain ⟨entry, hentry, rfl⟩ := List.mem_map.1 hmem
  have hne := bne_iff_ne.1 (h entry hentry)
  exact bne_iff_ne.2 fun heq => hne (eq_of_name_eq hx (hnames entry hentry) heq)

end

/-- Open scopes of which some are chosen. -/
def renamedScopes (ρ : Renaming) (marks : List Bool) (Γ : List Names) : List Names :=
  List.zipWith (renamedNames ρ) marks Γ

/-- A use leads as far among renamed scopes, and may be read if it might before, if it is renamed
just where it leads to a chosen scope. -/
theorem renamed_use {marks : List Bool} {Γ : List Names} {x : String} {chosen : Bool}
    (hlength : Γ.length = marks.length) (hlacks : LacksNew ρ Γ) (hx : x ≠ ρ.new)
    (hchosen : ∀ hops, hops? x Γ = some hops → chosen = marks.getD hops false) :
    hops? (ρ.name chosen x) (renamedScopes ρ marks Γ) = hops? x Γ ∧
      readable (ρ.name chosen x) (renamedScopes ρ marks Γ) = readable x Γ := by
  induction Γ generalizing marks with
  | nil => cases marks <;> exact ⟨rfl, rfl⟩
  | cons names Γ ih =>
    cases marks with
    | nil => cases hlength
    | cons mark marks =>
      obtain ⟨hnames, hlacks⟩ := List.forall_mem_cons.1 hlacks
      have hcons : renamedScopes ρ (mark :: marks) (names :: Γ) =
        renamedNames ρ mark names :: renamedScopes ρ marks Γ := rfl
      rw [hcons]
      cases hlookup : names.lookup x with
      | some ready =>
        obtain rfl : chosen = mark :=
          hchosen 0 (by simp [hops?, List.findIdx?_cons, hlookup])
        have hlookup' : (renamedNames ρ chosen names).lookup (ρ.name chosen x) = some ready :=
          (lookup_renamedNames hx hnames).trans hlookup
        constructor
        · simp [hops?, List.findIdx?_cons, hlookup, hlookup']
        · simp [readable, hlookup, hlookup']
      | none =>
        have hlookup' : (renamedNames ρ mark names).lookup (ρ.name chosen x) = none :=
          lookup_renamedNames_eq_none hx hnames hlookup
        obtain ⟨hhops, hreadable⟩ := ih (Nat.succ.inj hlength) hlacks fun hops hh =>
          hchosen (hops + 1) (by simpa [hops?, List.findIdx?_cons, hlookup] using hh)
        simp only [hops?, readable] at hhops hreadable
        constructor
        · simp [hops?, List.findIdx?_cons, hlookup, hlookup', hhops]
        · simp [readable, hlookup, hlookup', hreadable]

theorem declaredIn_renamedScopes {marks : List Bool} {Γ : List Names} {x : String}
    (hlength : Γ.length = marks.length) (hlacks : LacksNew ρ Γ) (hx : x ≠ ρ.new) :
    declaredIn (ρ.name (marks.headD false) x) (renamedScopes ρ marks Γ) = declaredIn x Γ := by
  match marks, Γ, hlength with
  | [], [], _ => rfl
  | mark :: marks, names :: Γ, _ =>
    have hlookup : (renamedNames ρ mark names).lookup (ρ.name mark x) = names.lookup x :=
      lookup_renamedNames hx (List.forall_mem_cons.1 hlacks).1
    simp [declaredIn, renamedScopes, hlookup]

theorem marked_renamedScopes {marks : List Bool} {Γ : List Names} (x : String) (ready : Bool)
    (hlength : Γ.length = marks.length) :
    marked (ρ.name (marks.headD false) x) ready (renamedScopes ρ marks Γ) =
      renamedScopes ρ marks (marked x ready Γ) := by
  match marks, Γ, hlength with
  | [], [], _ => rfl
  | _ :: _, _ :: _, _ => rfl

/-- What is put into a table. -/
def Entry.binding (e : Entry) : Site × Nat := (e.site, e.hops)

/-- The table is extended by what is put into it. -/
theorem Table.install_eq_of_bindings {entries entries' : List Entry}
    (h : entries'.map Entry.binding = entries.map Entry.binding) (t : Table) :
    t.install entries' = t.install entries := by
  have hfold (entries : List Entry) : t.install entries =
      (entries.map Entry.binding).foldl (fun t binding => binding :: t) t := by
    rw [List.foldl_map]
    rfl
  rw [hfold, hfold, h]

/-- The second pass has got as far with a renamed tree as the first one with the tree, where the
chosen ones of the open scopes are marked. -/
structure Alike (ρ : Renaming) (marks : List Bool) (p p' : Progress) : Prop where
  length : p.scopes.length = marks.length
  lacksNew : LacksNew ρ p.scopes
  scopes : p'.scopes = renamedScopes ρ marks p.scopes
  entries : p'.entries.map Entry.binding = p.entries.map Entry.binding
  reports : p'.reports.length = p.reports.length

/-- Two passes stay alike along some visits and their renamed counterparts, which lead from some
open scopes to others. -/
def StayAlike (ρ : Renaming) (marks marks₁ : List Bool) (Γ Γ₁ : List Names)
    (us us' : List Visit) : Prop :=
  ∀ p p', p.scopes = Γ → Alike ρ marks p p' →
    (walk us p).scopes = Γ₁ ∧ Alike ρ marks₁ (walk us p) (walk us' p')

namespace StayAlike

variable {marks marks₁ marks₂ : List Bool} {Γ Γ₁ Γ₂ : List Names} {us us' vs vs' : List Visit}

theorem nil : StayAlike ρ marks marks Γ Γ [] [] := fun _ _ hΓ h => ⟨hΓ, h⟩

theorem append (h : StayAlike ρ marks marks₁ Γ Γ₁ us us')
    (h' : StayAlike ρ marks₁ marks₂ Γ₁ Γ₂ vs vs') :
    StayAlike ρ marks marks₂ Γ Γ₂ (us ++ vs) (us' ++ vs') := by
  intro p p' hΓ halike
  obtain ⟨hΓ₁, halike₁⟩ := h p p' hΓ halike
  rw [walk_append, walk_append]
  exact h' _ _ hΓ₁ halike₁

theorem cons {v v' : Visit} (h : StayAlike ρ marks marks₁ Γ Γ₁ [v] [v'])
    (h' : StayAlike ρ marks₁ marks₂ Γ₁ Γ₂ us us') :
    StayAlike ρ marks marks₂ Γ Γ₂ (v :: us) (v' :: us') :=
  h.append h'

theorem expression (e e' : Expr) (h : StayAlike ρ marks marks₁ Γ Γ₁ us us') :
    StayAlike ρ marks marks₁ Γ Γ₁ (.expression e :: us) (.expression e' :: us') :=
  h

theorem statement (s s' : Statement) (h : StayAlike ρ marks marks₁ Γ Γ₁ us us') :
    StayAlike ρ marks marks₁ Γ Γ₁ (.statement s :: us) (.statement s' :: us') :=
  h

theorem enter (chosen : Bool) :
    StayAlike ρ marks (chosen :: marks) Γ ([] :: Γ) [.enter] [.enter] := by
  rintro p p' rfl h
  have hlacks : LacksNew ρ ([] :: p.scopes) :=
    List.forall_mem_cons.2 ⟨List.forall_mem_nil _, h.lacksNew⟩
  refine ⟨rfl, ?_, hlacks, ?_, h.entries, h.reports⟩
  · exact congrArg (· + 1) h.length
  · simp [walk, Visit.step, h.scopes, renamedScopes, renamedNames]

theorem leave {chosen : Bool} : StayAlike ρ (chosen :: marks) marks Γ Γ.tail [.leave] [.leave] := by
  rintro p p' rfl h
  refine ⟨rfl, ?_, fun names hmem => h.lacksNew names (List.mem_of_mem_tail hmem), ?_, h.entries,
    h.reports⟩
  · simp [walk, Visit.step, h.length]
  · have hlength := h.length
    cases hscopes : p.scopes with
    | nil => rw [hscopes] at hlength; cases hlength
    | cons names Γ => simp [walk, Visit.step, h.scopes, hscopes, renamedScopes]

theorem lacksNew_marked {x : String} {ready : Bool} (h : LacksNew ρ Γ) (hx : x ≠ ρ.new) :
    LacksNew ρ (marked x ready Γ) := by
  cases Γ with
  | nil => exact h
  | cons names Γ =>
    obtain ⟨hnames, hΓ⟩ := List.forall_mem_cons.1 h
    exact List.forall_mem_cons.2 ⟨List.forall_mem_cons.2 ⟨hx, hnames⟩, hΓ⟩

theorem length_marked (x : String) (ready : Bool) (Γ : List Names) :
    (marked x ready Γ).length = Γ.length := by
  cases Γ <;> rfl

theorem settle {name : Token} (hname : name.lexeme ≠ ρ.new) :
    StayAlike ρ marks marks Γ (marked name.lexeme true Γ) [.settle name]
      [.settle (ρ.token (marks.headD false) name)] := by
  rintro p p' rfl h
  refine ⟨rfl, ?_, lacksNew_marked h.lacksNew hname, ?_, h.entries, h.reports⟩
  · exact (length_marked _ _ _).trans h.length
  · have hmarked := marked_renamedScopes (ρ := ρ) name.lexeme true h.length
    exact (congrArg _ h.scopes).trans hmarked

theorem declare {name : Token} (hname : name.lexeme ≠ ρ.new) :
    StayAlike ρ marks marks Γ (marked name.lexeme false Γ) [.declare name]
      [.declare (ρ.token (marks.headD false) name)] := by
  rintro p p' rfl h
  refine ⟨rfl, ?_, lacksNew_marked h.lacksNew hname, ?_, h.entries, ?_⟩
  · exact (length_marked _ _ _).trans h.length
  · have hmarked := marked_renamedScopes (ρ := ρ) name.lexeme false h.length
    exact (congrArg _ h.scopes).trans hmarked
  · have hdeclared : p'.declares (ρ.token (marks.headD false) name).lexeme =
        p.declares name.lexeme :=
      (congrArg _ h.scopes).trans (declaredIn_renamedScopes h.length h.lacksNew hname)
    simp only [walk, List.foldl_cons, List.foldl_nil, Visit.step, hdeclared]
    split
    · simp [h.reports]
    · exact h.reports

theorem use {t : Table} {kind : UseKind} {site : Site} {name : Token} (hname : name.lexeme ≠ ρ.new)
    (ht : t.lookup site = hops? name.lexeme Γ) :
    StayAlike ρ marks marks Γ Γ [.use kind site name]
      [.use kind site (ρ.token (leadsToChosen t marks site) name)] := by
  rintro p p' rfl h
  have hchosen (hops : Nat) (hh : hops? name.lexeme p.scopes = some hops) :
      leadsToChosen t marks site = marks.getD hops false := by
    rw [leadsToChosen, ht, hh, Option.elim_some]
  obtain ⟨hhops, hreadable⟩ := renamed_use h.length h.lacksNew hname hchosen
  refine ⟨rfl, h.length, h.lacksNew, h.scopes, ?_, ?_⟩
  · simp only [walk, List.foldl_cons, List.foldl_nil, Visit.step, Renaming.token, h.scopes, hhops]
    cases hops? name.lexeme p.scopes with
    | none => exact h.entries
    | some hops => simp [Entry.binding, h.entries]
  · simp only [walk, List.foldl_cons, List.foldl_nil, Visit.step, Renaming.token, h.scopes,
      hreadable]
    split
    · simp [h.reports]
    · exact h.reports

theorem leaveFunction (keyword : Token) (inside : Bool) :
    StayAlike ρ marks marks Γ Γ [.leaveFunction keyword inside]
      [.leaveFunction keyword inside] := by
  rintro p p' rfl h
  refine ⟨rfl, h.length, h.lacksNew, h.scopes, h.entries, ?_⟩
  cases inside with
  | true => exact h.reports
  | false => exact congrArg (· + 1) h.reports

/-- The names of a scope of parameters. -/
theorem parameters {chosen : Bool} {parameters : List Token} {names : Names}
    (h : ∀ name ∈ parameters, name.lexeme ≠ ρ.new) :
    StayAlike ρ (chosen :: marks) (chosen :: marks) (names :: Γ)
      (withParameters parameters names :: Γ) (Visit.parameters parameters)
      (Visit.parameters (parameters.map (ρ.token chosen))) := by
  induction parameters generalizing names with
  | nil => exact nil
  | cons name rest ih =>
    obtain ⟨hname, hrest⟩ := List.forall_mem_cons.1 h
    exact (declare hname).cons ((settle hname).cons (ih hrest))

/-- A function, with its body. -/
theorem function {chosen : Bool} {parameters : List Token}
    (h : ∀ name ∈ parameters, name.lexeme ≠ ρ.new)
    (hbody : StayAlike ρ (chosen :: marks) (chosen :: marks)
      (withParameters parameters [] :: Γ) Γ₁ us us') (hΓ : Γ₁.tail = Γ) :
    StayAlike ρ marks marks Γ Γ (Visit.function parameters us)
      (Visit.function (parameters.map (ρ.token chosen)) us') := by
  have hinner := ((StayAlike.parameters h).append hbody).append leave
  rw [hΓ] at hinner
  exact (enter chosen).cons hinner

end StayAlike

end Binding

open Binding

section
variable {t : Table}

mutual

theorem Expr.Renames.stayAlike {marks : List Bool} {Γ : List Names} : {e e' : Expr} →
    e.Renames ρ t marks e' → ρ.Unused e.tokens → e.Bound t Γ →
    ∀ i, StayAlike ρ marks marks Γ Γ (e.visits i) (e'.visits i)
  | .literal _, _, .literal, _, _, _ => .expression _ _ .nil
  | .grouping _, _, .grouping h, hu, hb, i => .expression _ _ (h.stayAlike hu hb i)
  | .unary _ _, _, .unary h, hu, hb, i => .expression _ _ (h.stayAlike hu.tail hb i)
  | .binary _ _ _, _, .binary hl hr, hu, hb, i =>
    .expression _ _ ((hl.stayAlike hu.left hb.1 i).append (hr.stayAlike hu.right.tail hb.2 i))
  | .logical _ _ _, _, .logical hl hr, hu, hb, i =>
    .expression _ _ ((hl.stayAlike hu.left hb.1 i).append (hr.stayAlike hu.right.tail hb.2 i))
  | .ternary _ _ _, _, .ternary hc ha hb', hu, hb, i =>
    .expression _ _ ((hc.stayAlike hu.left hb.1 i).append
      ((ha.stayAlike hu.right.left hb.2.1 i).append (hb'.stayAlike hu.right.right hb.2.2 i)))
  | .access _ name, _, .access _, hu, hb, _ =>
    .expression _ _ (.use (hu name List.mem_cons_self) hb.1)
  | .assign _ name _, _, .assign _ he, hu, hb, i =>
    .expression _ _ ((he.stayAlike hu.tail hb.1 i).append (.use (hu name List.mem_cons_self) hb.2))
  | .call _ _ _, _, .call he hes, hu, hb, i =>
    .expression _ _ ((he.stayAlike hu.left hb.1 i).append (hes.stayAlike hu.right.left hb.2 i))
  | .function _ _ body, _, .function _ hbody, hu, hb, _ =>
    .expression _ _ (.function hu.tail.left (hbody.stayAlike hu.tail.right hb.2 true)
      (tail_scopesBehind _ body))

theorem Expr.RenamesAll.stayAlike {marks : List Bool} {Γ : List Names} : {es es' : List Expr} →
    Expr.RenamesAll ρ t marks es es' → ρ.Unused (Expr.allTokens es) → Expr.AllBound t es Γ →
    ∀ i, StayAlike ρ marks marks Γ Γ (Expr.allVisits es i) (Expr.allVisits es' i)
  | [], _, .nil, _, _, _ => .nil
  | _ :: _, _, .cons he hes, hu, hb, i =>
    (he.stayAlike hu.left hb.1 i).append (hes.stayAlike hu.right hb.2 i)

theorem Statement.Renames.stayAlike {marks : List Bool} {Γ : List Names} : {s s' : Statement} →
    s.Renames ρ t marks s' → ρ.Unused s.tokens → s.Bound t Γ →
    ∀ i, StayAlike ρ marks marks Γ (s.scopesAfter Γ) (s.visits i) (s'.visits i)
  | .block ss, _, .block chosen hss, hu, hb, i => by
    have hbody := (hss.stayAlike hu hb i).append StayAlike.leave
    rw [tail_scopesBehind] at hbody
    exact .statement _ _ ((StayAlike.enter chosen).cons hbody)
  | .expression _, _, .expression h, hu, hb, i => .statement _ _ (h.stayAlike hu hb i)
  | .function name _ body, _, .function _ hname _ hbody, hu, hb, _ => by
    have hdeclare : StayAlike ρ marks marks Γ _ [.declare name] _ :=
      .declare (hu name List.mem_cons_self)
    have hsettle : StayAlike ρ marks marks (marked name.lexeme false Γ) _ [.settle name] _ :=
      .settle (hu name List.mem_cons_self)
    rw [hname] at hdeclare hsettle
    exact .statement _ _ (hdeclare.cons (hsettle.cons (.function hu.tail.left
      (hbody.stayAlike hu.tail.right hb.2.2 true) (tail_scopesBehind _ body))))
  | .ifElse _ _ none, _, .ifThen hc ha, hu, hb, i => by
    have hthen := ha.stayAlike hu.right hb.2.1 i
    rw [Statement.scopesAfter_of_not_declaration hb.2.2] at hthen
    exact .statement _ _ ((hc.stayAlike hu.left hb.1 i).append hthen)
  | .ifElse _ _ (some _), _, .ifElse hc ha hb', hu, hb, i => by
    have hthen := ha.stayAlike hu.right.left hb.2.1 i
    have helse := hb'.stayAlike hu.right.right hb.2.2.2.1 i
    rw [Statement.scopesAfter_of_not_declaration hb.2.2.1] at hthen
    rw [Statement.scopesAfter_of_not_declaration hb.2.2.2.2] at helse
    exact .statement _ _ ((hc.stayAlike hu.left hb.1 i).append (hthen.append helse))
  | .print _, _, .print h, hu, hb, i => .statement _ _ (h.stayAlike hu hb i)
  | .return keyword none, _, .returnNone, _, _, i => .statement _ _ (.leaveFunction keyword i)
  | .return keyword (some _), _, .returnSome h, hu, hb, i =>
    .statement _ _ ((StayAlike.leaveFunction keyword i).cons (h.stayAlike hu.tail hb i))
  | .var name none, _, .varNone _, hu, _, _ =>
    .statement _ _ ((StayAlike.declare (hu name List.mem_cons_self)).cons
      (.settle (hu name List.mem_cons_self)))
  | .var name (some _), _, .varSome _ he, hu, hb, i =>
    .statement _ _ ((StayAlike.declare (hu name List.mem_cons_self)).cons
      ((he.stayAlike hu.tail hb.2 i).append (.settle (hu name List.mem_cons_self))))
  | .while _ _, _, .while hc hbody, hu, hb, i => by
    have hrepeated := hbody.stayAlike hu.right hb.2.1 i
    rw [Statement.scopesAfter_of_not_declaration hb.2.2] at hrepeated
    exact .statement _ _ ((hc.stayAlike hu.left hb.1 i).append hrepeated)

theorem Statement.RenamesAll.stayAlike {marks : List Bool} {Γ : List Names} :
    {ss ss' : List Statement} → Statement.RenamesAll ρ t marks ss ss' →
    ρ.Unused (Statement.allTokens ss) → Statement.AllBound t ss Γ → ∀ i,
    StayAlike ρ marks marks Γ (scopesBehind Γ ss) (Statement.allVisits ss i)
      (Statement.allVisits ss' i)
  | [], _, .nil, _, _, _ => .nil
  | _ :: _, _, .cons hs hss, hu, hb, i =>
    (hs.stayAlike hu.left hb.1 i).append (hss.stayAlike hu.right hb.2 i)

end

mutual

theorem Expr.Renames.depth_eq {marks : List Bool} : {e e' : Expr} → e.Renames ρ t marks e' →
    e'.depth = e.depth
  | .literal _, _, .literal => rfl
  | .grouping _, _, .grouping h => by simp [Expr.depth, h.depth_eq]
  | .unary _ _, _, .unary h => by simp [Expr.depth, h.depth_eq]
  | .binary _ _ _, _, .binary hl hr => by simp [Expr.depth, hl.depth_eq, hr.depth_eq]
  | .logical _ _ _, _, .logical hl hr => by simp [Expr.depth, hl.depth_eq, hr.depth_eq]
  | .ternary _ _ _, _, .ternary hc ha hb => by
    simp [Expr.depth, hc.depth_eq, ha.depth_eq, hb.depth_eq]
  | .access _ _, _, .access _ => rfl
  | .assign _ _ _, _, .assign _ h => by simp [Expr.depth, h.depth_eq]
  | .call _ _ _, _, .call h hs => by simp [Expr.depth, h.depth_eq, hs.depths_eq]
  | .function _ _ _, _, .function _ h => by simp [Expr.depth, h.depths_eq]

theorem Expr.RenamesAll.depths_eq {marks : List Bool} : {es es' : List Expr} →
    Expr.RenamesAll ρ t marks es es' → Expr.depths es' = Expr.depths es
  | [], _, .nil => rfl
  | _ :: _, _, .cons h hs => by simp [Expr.depths, h.depth_eq, hs.depths_eq]

theorem Statement.Renames.depth_eq {marks : List Bool} : {s s' : Statement} →
    s.Renames ρ t marks s' → s'.depth = s.depth
  | .block _, _, .block _ h => by simp [Statement.depth, h.depths_eq]
  | .expression _, _, .expression h => by simp [Statement.depth, h.depth_eq]
  | .function _ _ _, _, .function _ _ _ h => by simp [Statement.depth, h.depths_eq]
  | .ifElse _ _ none, _, .ifThen hc ha => by simp [Statement.depth, hc.depth_eq, ha.depth_eq]
  | .ifElse _ _ (some _), _, .ifElse hc ha hb => by
    simp [Statement.depth, hc.depth_eq, ha.depth_eq, hb.depth_eq]
  | .print _, _, .print h => by simp [Statement.depth, h.depth_eq]
  | .return _ none, _, .returnNone => rfl
  | .return _ (some _), _, .returnSome h => by simp [Statement.depth, h.depth_eq]
  | .var _ none, _, .varNone _ => rfl
  | .var _ (some _), _, .varSome _ h => by simp [Statement.depth, h.depth_eq]
  | .while _ _, _, .while hc hb => by simp [Statement.depth, hc.depth_eq, hb.depth_eq]

theorem Statement.RenamesAll.depths_eq {marks : List Bool} : {ss ss' : List Statement} →
    Statement.RenamesAll ρ t marks ss ss' → Statement.depths ss' = Statement.depths ss
  | [], _, .nil => rfl
  | _ :: _, _, .cons h hs => by simp [Statement.depths, h.depth_eq, hs.depths_eq]

end

end

/-- A renamed program is resolved to its end if the program is, with as many reports, and it extends
every table in the same way. -/
theorem Statement.RenamesAll.resolve {t : Table} {room : Nat} {ss ss' : List Statement}
    (h : Statement.RenamesAll ρ t [] ss ss') (hu : ρ.Unused (Statement.allTokens ss))
    (hb : Statement.AllBound t ss []) (hroom : (resolve room (.program ss)).complete = true) :
    (resolve room (.program ss')).complete = true ∧
      (resolve room (.program ss')).reports.length = (resolve room (.program ss)).reports.length ∧
      ∀ t₀ : Table, t₀.install (resolve room (.program ss')).entries =
        t₀.install (resolve room (.program ss)).entries := by
  have hdepth := (resolve_complete_iff _ _).1 hroom
  have hdepth' : (Code.program ss').depth ≤ room := Nat.le_trans (Nat.le_of_eq h.depths_eq) hdepth
  have hstart : Alike ρ [] .start .start := ⟨rfl, List.forall_mem_nil _, rfl, rfl, rfl⟩
  have halike : Alike ρ [] (walk (Code.program ss).visits .start)
      (walk (Code.program ss').visits .start) :=
    (h.stayAlike hu hb false .start .start rfl hstart).2
  rw [resolve_eq_walk hdepth, resolve_eq_walk hdepth']
  refine ⟨rfl, ?_, Table.install_eq_of_bindings ?_⟩
  · simpa [Resolved.ofProgress] using halike.reports
  · simpa [Resolved.ofProgress] using congrArg List.reverse halike.entries

end Lox
