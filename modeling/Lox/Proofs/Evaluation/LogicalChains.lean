import Lox.Proofs.Evaluation.Outlasting
import Lox.Proofs.Grammar.Completeness
import Mathlib.Data.List.Induction

/-!
# Chains of logical operators

The operands between the operators of one logical level are evaluated from left to right up to the
first decisive one, and its value is the value of the whole. The reader nests such a chain to the
left, so that a value that has decided is tested again by every operator further out; since it
decides there as well, no other way of nesting the operands makes a difference.
-/
namespace Lox

open Grammar

/-- The operands and operators behind the first operand, nested to the left. -/
def Grammar.Level.chained (level : Level) (first : Expr) (more : List (Token × Expr)) : Expr :=
  more.foldl (fun left x => level.combine left x.1 x.2) first

/-- Whether an operand of this value leaves the operands behind it out of the evaluation. -/
def Grammar.Level.decisive : Level → Value → Bool
  | .or, value => value.truthy
  | _, value => !value.truthy

/-- The trees that have these operands in this order, joined by operators of one level and with
parentheses anywhere. -/
inductive Groups (level : Level) : Expr → List Expr → Expr → Prop where
  | operand (e) : Groups level e [] e
  | logical {e es left operator e' es' right} (hleft : Groups level e es left)
    (hoperator : operator.kind ∈ level.operators) (hright : Groups level e' es' right) :
    Groups level e (es ++ e' :: es') (.logical left operator right)
  | grouping {e es tree} (h : Groups level e es tree) : Groups level e es (.grouping tree)

variable {level : Level} {e e' first : Expr} {es es' : List Expr} {more : List (Token × Expr)}
  {operator : Token}

theorem Grammar.Level.chained_concat (level : Level) (first : Expr) (more : List (Token × Expr))
    (x : Token × Expr) :
    level.chained first (more ++ [x]) = level.combine (level.chained first more) x.1 x.2 :=
  List.foldl_concat _ _ _ _

theorem Grammar.Level.combine_eq_logical (h : level.isLogical = true) :
    level.combine = .logical := by
  cases level <;> first | rfl | cases h

/-- A chain is one of the groupings of its operands. -/
theorem groups_chained (hlogical : level.isLogical = true)
    (hoperators : ∀ x ∈ more, x.1.kind ∈ level.operators) :
    Groups level first (more.map (·.2)) (level.chained first more) := by
  induction more using List.reverseRecOn with
  | nil => exact .operand first
  | append_singleton more x ih =>
    obtain ⟨hmore, hx⟩ := List.forall_mem_append.1 hoperators
    rw [Level.chained_concat, List.map_append, Level.combine_eq_logical hlogical]
    exact .logical (ih hmore) (hx x (List.mem_singleton.2 rfl)) (.operand x.2)

namespace Eval

/-- The value of the first decisive operand, or of the last one if none before it is decisive. -/
def firstDecisive (level : Level) (evaluate : Expr → Run Value) : Expr → List Expr → Run Value
  | e, [] => evaluate e
  | e, next :: rest => do
    let value ← evaluate e
    if level.decisive value then pure value else firstDecisive level evaluate next rest

/-- Operands that are evaluated one after the other, none of them decisive. -/
inductive Undecided (level : Level) (evaluate : Expr → Run Value) :
    List Expr → Machine → Machine → Prop where
  | nil {m} : Undecided level evaluate [] m m
  | cons {e es value m m₁ m₂} (h : evaluate e m = .ok value m₁)
    (hvalue : level.decisive value = false) (hes : Undecided level evaluate es m₁ m₂) :
    Undecided level evaluate (e :: es) m m₂

/-- There is one operand that all comes down to: those in front of it are evaluated and do not
decide, its own end is the end of the whole, and if it has a value that does not decide, it is the
last operand. -/
def ComesDown (level : Level) (evaluate : Expr → Run Value) (operands : List Expr)
    (whole : Run Value) (m : Machine) : Prop :=
  ∃ before e after m₁, operands = before ++ e :: after ∧ Undecided level evaluate before m m₁ ∧
    whole m = evaluate e m₁ ∧
    ∀ value m₂, evaluate e m₁ = .ok value m₂ → level.decisive value = true ∨ after = []

theorem firstDecisive_comesDown (level : Level) (evaluate : Expr → Run Value) (first : Expr)
    (rest : List Expr) (m : Machine) :
    ComesDown level evaluate (first :: rest) (firstDecisive level evaluate first rest) m := by
  induction rest generalizing first m with
  | nil => exact ⟨[], first, [], m, rfl, .nil, rfl, fun _ _ _ => .inr rfl⟩
  | cons next rest ih =>
    cases hfirst : evaluate first m with
    | error f m₁ =>
      refine ⟨[], first, next :: rest, m, rfl, .nil, ?_, by simp [hfirst]⟩
      rw [firstDecisive, bind_of_error hfirst, hfirst]
    | ok value m₁ =>
      cases hvalue : level.decisive value with
      | true =>
        refine ⟨[], first, next :: rest, m, rfl, .nil, ?_, fun value' m₂ hok => .inl ?_⟩
        · rw [firstDecisive, bind_of_ok hfirst, hvalue, hfirst]
          rfl
        · cases hfirst.symm.trans hok
          exact hvalue
      | false =>
        obtain ⟨before, e, after, m₂, hsplit, hbefore, hends, hlast⟩ := ih next m₁
        refine ⟨first :: before, e, after, m₂, by rw [hsplit, List.cons_append],
          .cons hfirst hvalue hbefore, ?_, hlast⟩
        rw [firstDecisive, bind_of_ok hfirst, hvalue, ← hends]
        rfl

theorem decides_eq_decisive (hlogical : level.isLogical = true)
    (hoperator : operator.kind ∈ level.operators) : decides operator = level.decisive := by
  funext value
  cases level with
  | or | and =>
    have hkind := List.mem_singleton.1 hoperator
    simp [decides, hkind, Level.decisive]
  | _ => cases hlogical

/-- What has decided the operands in front decides those behind as well. -/
theorem firstDecisive_append (evaluate : Expr → Run Value) (e : Expr) (es : List Expr) (e' : Expr)
    (es' : List Expr) : firstDecisive level evaluate e (es ++ e' :: es') = (do
      let value ← firstDecisive level evaluate e es
      if level.decisive value then pure value else firstDecisive level evaluate e' es') := by
  induction es generalizing e with
  | nil => rfl
  | cons next rest ih =>
    rw [List.cons_append, firstDecisive, firstDecisive, bind_assoc]
    refine bind_congr fun value => ?_
    cases hvalue : level.decisive value with
    | true => simp only [if_true, pure_bind, hvalue]
    | false => simp only [Bool.false_eq_true, if_false, ih]

variable {rounds room : Nat} {left right tree tree' : Expr}

theorem evaluate_logical (hlogical : level.isLogical = true)
    (hoperator : operator.kind ∈ level.operators) (left right : Expr) :
    evaluate rounds (room + 2) (.logical left operator right) = (do
      let value ← evaluate rounds room left
      if level.decisive value then pure value else evaluate rounds room right) := by
  rw [evaluate, logical, decides_eq_decisive hlogical hoperator]

/-- Operands that have at least the room of a grouping of them make up for it. -/
theorem firstDecisive_outlasts (hlogical : level.isLogical = true) (h : Groups level e es tree)
    {act : Expr → Run Value} (hact : ∀ r ≤ room, ∀ e, (act e).Outlasts (evaluate rounds r e)) :
    (firstDecisive level act e es).Outlasts (evaluate rounds room tree) := by
  induction h generalizing room with
  | operand e => exact hact room (Nat.le_refl _) e
  | logical hleft hoperator hright ihleft ihright =>
    match room, hact with
    | 0, _ | 1, _ => exact .abort _
    | room + 2, hact =>
      have hless : ∀ r ≤ room, ∀ e, (act e).Outlasts (evaluate rounds r e) :=
        fun r hr => hact r (by omega)
      rw [firstDecisive_append, evaluate_logical hlogical hoperator]
      refine (ihleft hless).bind fun value => ?_
      split
      · exact .refl _
      · exact ihright hless
  | grouping h ih =>
    match room, hact with
    | 0, _ => exact .abort _
    | room + 1, hact => exact ih fun r hr => hact r (by omega)

/-- A grouping that has some more room than its operands makes up for them. -/
theorem exists_outlasts_firstDecisive (hlogical : level.isLogical = true)
    (h : Groups level e es tree) : ∃ extra, ∀ rounds room room', room + extra ≤ room' →
      (evaluate rounds room' tree).Outlasts (firstDecisive level (evaluate rounds room) e es) := by
  induction h with
  | operand e =>
    refine ⟨0, fun rounds room room' hroom => ?_⟩
    obtain ⟨more, rfl⟩ := Nat.exists_eq_add_of_le hroom
    exact (outlasting rounds room more).evaluate e
  | logical hleft hoperator hright ihleft ihright =>
    obtain ⟨extra, hextra⟩ := ihleft
    obtain ⟨extra', hextra'⟩ := ihright
    refine ⟨max extra extra' + 2, fun rounds room room' hroom => ?_⟩
    obtain ⟨r, rfl⟩ : ∃ r, room' = r + 2 := ⟨room' - 2, by omega⟩
    rw [firstDecisive_append, evaluate_logical hlogical hoperator]
    refine (hextra rounds room r (by omega)).bind fun value => ?_
    split
    · exact .refl _
    · exact hextra' rounds room r (by omega)
  | grouping h ih =>
    obtain ⟨extra, hextra⟩ := ih
    refine ⟨extra + 1, fun rounds room room' hroom => ?_⟩
    obtain ⟨r, rfl⟩ : ∃ r, room' = r + 1 := ⟨room' - 1, by omega⟩
    exact hextra rounds room r (by omega)

/-- A tree means no more than its operands: it comes to the first decisive one of them. -/
structure TakesDecisive (level : Level) (first : Expr) (rest : List Expr) (tree : Expr) : Prop where
  /-- The operands come down to one of them, be it by its value or by an error. -/
  operands (rounds room m) : ComesDown level (evaluate rounds room) (first :: rest)
    (firstDecisive level (evaluate rounds room) first rest) m
  /-- Unless its own nesting exhausts the stack. -/
  ends (rounds room m) : (evaluate rounds room tree).Exhausts m ∨
    evaluate rounds room tree m = firstDecisive level (evaluate rounds room) first rest m
  /-- Its nesting takes a fixed amount of stack beyond what the operands take. -/
  reached : ∃ extra, ∀ rounds room m,
    (firstDecisive level (evaluate rounds room) first rest).Exhausts m ∨
      evaluate rounds (room + extra) tree m =
        firstDecisive level (evaluate rounds room) first rest m

theorem takesDecisive_of_groups (hlogical : level.isLogical = true) (h : Groups level e es tree) :
    TakesDecisive level e es tree where
  operands _ _ _ := firstDecisive_comesDown ..
  ends rounds room m := by
    refine ((firstDecisive_outlasts hlogical h fun r hr => ?_).exhausts_or_eq m).imp_right Eq.symm
    obtain ⟨more, rfl⟩ := Nat.exists_eq_add_of_le hr
    exact (outlasting rounds r more).evaluate
  reached := by
    obtain ⟨extra, hextra⟩ := exists_outlasts_firstDecisive hlogical h
    exact ⟨extra, fun rounds room m => (hextra rounds room _ (Nat.le_refl _)).exhausts_or_eq m⟩

end Eval

namespace Grammar

/-- Operands of a level with operators of the level between them. -/
structure IsChain (level : Level) (first : Expr) (more : List (Token × Expr)) : Prop where
  operands : ∀ e ∈ first :: more.map (·.2), e.Canonical ∧ level.tightness < e.tightness
  operators : ∀ x ∈ more, x.1.kind ∈ level.operators

/-- The operands in their order, each but the first one behind its operator. -/
def chainWritten (first : Expr) (more : List (Token × Expr)) : List Terminal :=
  first.written ++ more.flatMap fun x => .kept x.1 :: x.2.written

theorem written_chained (level : Level) (first : Expr) (more : List (Token × Expr)) :
    (level.chained first more).written = chainWritten first more := by
  induction more using List.reverseRecOn with
  | nil => simp [Level.chained, chainWritten]
  | append_singleton more x ih =>
    rw [Level.chained_concat, Level.written_combine, ih]
    simp [chainWritten]

theorem need_chained {room : Nat} (h : ∀ e ∈ first :: more.map (·.2), e.need ≤ room) :
    (level.chained first more).need ≤ room := by
  induction more using List.reverseRecOn with
  | nil => exact h first (List.mem_singleton.2 rfl)
  | append_singleton more x ih =>
    rw [List.map_append, ← List.cons_append] at h
    obtain ⟨hmore, hx⟩ := List.forall_mem_append.1 h
    rw [Level.chained_concat, Level.need_combine]
    exact Nat.max_le.2 ⟨ih hmore, hx x.2 (List.mem_singleton.2 rfl)⟩

/-- A chain binds as loosely as its level, and a single operand more tightly. -/
theorem IsChain.canonical (h : IsChain level first more) :
    (level.chained first more).Canonical ∧
      level.tightness ≤ (level.chained first more).tightness := by
  induction more using List.reverseRecOn with
  | nil =>
    obtain ⟨hc, ht⟩ := h.operands first (List.mem_singleton.2 rfl)
    exact ⟨hc, Nat.le_of_lt ht⟩
  | append_singleton more x ih =>
    obtain ⟨hoperands, hoperators⟩ := h
    rw [List.map_append, ← List.cons_append] at hoperands
    obtain ⟨hmore, hx⟩ := List.forall_mem_append.1 hoperands
    obtain ⟨hkinds, hkind⟩ := List.forall_mem_append.1 hoperators
    obtain ⟨hc, ht⟩ := ih ⟨hmore, hkinds⟩
    obtain ⟨hcx, htx⟩ := hx x.2 (List.mem_singleton.2 rfl)
    have hmem := hkind x (List.mem_singleton.2 rfl)
    rw [Level.chained_concat]
    exact ⟨Level.canonical_combine hc hcx ⟨hmem, ht, htx⟩,
      Nat.le_of_eq (Level.tightness_combine hmem).symm⟩

/-- A tree with the shape of a chain is a chain, with operands of the same shapes. -/
theorem exists_chained_of_shape (hlogical : level.isLogical = true) {tree : Expr}
    (h : tree.shape = (level.chained first more).shape) : ∃ first' more',
      tree = level.chained first' more' ∧ first'.shape = first.shape ∧
        more'.map (fun x => (x.1, x.2.shape)) = more.map fun x => (x.1, x.2.shape) := by
  induction more using List.reverseRecOn generalizing tree with
  | nil => exact ⟨tree, [], rfl, h, rfl⟩
  | append_singleton more x ih =>
    rw [Level.chained_concat, Level.combine_eq_logical hlogical, Expr.shape] at h
    cases tree with
    | logical left operator right =>
      rw [Expr.shape] at h
      injection h with hleft hoperator hright
      obtain ⟨first', more', rfl, hfirst, hmore⟩ := ih hleft
      refine ⟨first', more' ++ [(operator, right)], ?_, hfirst, ?_⟩
      · rw [Level.chained_concat, Level.combine_eq_logical hlogical]
      · simp [hmore, hoperator, hright]
    | _ => simp [Expr.shape] at h

open Eval in
/-- Where the operands of a logical level stand with operators of the level between them, the reader
of expressions builds a tree of these operands whose evaluation takes the first decisive one: the
operands are evaluated in their order, up to the first one that decides or fails or else to the last
one, and the end of that one is the end of the whole. So does every other tree of the operands, and
no two of them differ, as long as the stack is not exhausted. -/
theorem chain_takesDecisive {room : Nat} {c : Cursor} {tokens rest : List Token} {t : Token}
    (hlogical : level.isLogical = true) (hchain : IsChain level first more)
    (hroom : ∀ e ∈ first :: more.map (·.2), e.need ≤ room)
    (hs : Spells (chainWritten first more) tokens) (hrest : c.rest = tokens ++ t :: rest)
    (hfollow : MayFollow 0 t.kind) :
    ∃ first' more' c', expression room c = .ok (level.chained first' more') c' ∧
      c'.rest = t :: rest ∧ first'.shape = first.shape ∧
      more'.map (fun x => (x.1, x.2.shape)) = more.map (fun x => (x.1, x.2.shape)) ∧
      TakesDecisive level first' (more'.map (·.2)) (level.chained first' more') ∧
      ∀ tree, Groups level first' (more'.map (·.2)) tree →
        TakesDecisive level first' (more'.map (·.2)) tree ∧ ∀ rounds room m,
          (evaluate rounds room tree).Exhausts m ∨
            (evaluate rounds room (level.chained first' more')).Exhausts m ∨
            evaluate rounds room tree m =
              evaluate rounds room (level.chained first' more') m := by
  have hread : ParsesAny (expression room) (level.chained first more) :=
    (understood _ hchain.canonical.1).parsesAny (need_chained hroom)
  rw [← written_chained level] at hs
  obtain ⟨tree, c', hok, hshape, harrives⟩ := (hread c tokens t rest hs hrest hfollow).exists_ok
  obtain ⟨first', more', rfl, hfirst, hmore⟩ := exists_chained_of_shape hlogical hshape
  have hoperators : ∀ x ∈ more', x.1.kind ∈ level.operators := by
    intro x hx
    have hmem : (x.1, x.2.shape) ∈ more.map fun x => (x.1, x.2.shape) :=
      hmore ▸ List.mem_map_of_mem hx
    obtain ⟨y, hy, heq⟩ := List.mem_map.1 hmem
    exact (congrArg Prod.fst heq) ▸ hchain.operators y hy
  have hgroups : Groups level first' (more'.map (·.2)) (level.chained first' more') :=
    groups_chained hlogical hoperators
  have htakes := takesDecisive_of_groups hlogical hgroups
  refine ⟨first', more', c', hok, harrives.rest, hfirst, hmore, htakes, fun tree htree => ?_⟩
  have htakes' := takesDecisive_of_groups hlogical htree
  refine ⟨htakes', fun rounds room m => ?_⟩
  refine (htakes'.ends rounds room m).imp_right fun hends' => ?_
  exact (htakes.ends rounds room m).imp_right fun hends => hends'.trans hends.symm

/-- The operands behind the first one in `x or f(y) or (z = true)`. -/
def orCallOrAssign : List (Token × Expr) :=
  let name (text : String) : Token := ⟨.identifier, text, .nil, 1⟩
  let operator : Token := ⟨.or, "or", .nil, 1⟩
  [(operator, .call (.access 1 (name "f")) ⟨.rightParen, ")", .nil, 1⟩ [.access 2 (name "y")]),
    (operator, .grouping (.assign 3 (name "z") (.literal (.bool true))))]

open Eval in
theorem chain_takesDecisive_orCallOrAssign :
    let first : Expr := .access 0 ⟨.identifier, "x", .nil, 1⟩
    let tokens := tokensOf (chainWritten first orCallOrAssign)
    let semicolon : Token := ⟨.semicolon, ";", .nil, 1⟩
    IsChain .or first orCallOrAssign ∧
      (∀ e ∈ first :: orCallOrAssign.map (·.2), e.need ≤ 60) ∧
      ∃ first' more' c', expression 60 ⟨tokens ++ [semicolon], semicolon, [], 0⟩ =
          .ok (Level.or.chained first' more') c' ∧
        more'.length = 2 ∧ c'.rest = [semicolon] ∧
        TakesDecisive .or first' (more'.map (·.2)) (Level.or.chained first' more') := by
  intro first tokens semicolon
  have hchain : IsChain .or first orCallOrAssign := by
    constructor <;>
      simp [first, orCallOrAssign, Expr.Canonical, Expr.AllCanonical, Expr.tightness,
        Level.tightness, Level.operators]
  have hroom : ∀ e ∈ first :: orCallOrAssign.map (·.2), e.need ≤ 60 := by
    simp [first, orCallOrAssign, Expr.need, Expr.needs]
  obtain ⟨first', more', c', hok, hrest, -, hmore, htakes, -⟩ :=
    chain_takesDecisive (c := ⟨tokens ++ [semicolon], semicolon, [], 0⟩) rfl hchain hroom
      (spells_tokensOf _) rfl (by decide)
  have hlength : more'.length = 2 := by
    simpa [orCallOrAssign] using congrArg List.length hmore
  exact ⟨hchain, hroom, first', more', c', hok, hlength, hrest, htakes⟩

end Grammar
end Lox
