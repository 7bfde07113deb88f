import Lox.Proofs.Grammar.Arriving

/-!
# Lists of items are read as they are written

The arguments of a call and the parameters of a function stand between parentheses, separated by
commas. A reader of such a list reads every list of items that its item reader reads, however long,
and reports each item beyond the greatest number.
-/
namespace Lox.Grammar

variable {α γ : Type} {item : Reader α} {write : α → List Terminal} {same : α → γ} {cost : α → Nat}
  {tooMany : Fault}

/-- Behind an item stands a comma or the closing parenthesis. -/
theorem head_moreWritten (xs : List α) {ts : List Token} {t : Token} (rest : List Token)
    (hs : Spells (moreWritten write xs) ts) (ht : t.kind = .rightParen) :
    ∃ u us, ts ++ t :: rest = u :: us ∧ u.kind ∈ [Token.Kind.comma, .rightParen] := by
  cases xs with
  | nil =>
    cases hs
    exact ⟨t, rest, rfl, by simp [ht]⟩
  | cons x xs =>
    cases hs with
    | cons hcomma _ => exact ⟨_, _, rfl, by simp [hcomma.kind_eq, Terminal.kind]⟩

theorem succeeds_moreItems (htoo : tooMany = .tooManyArguments ∨ tooMany = .tooManyParameters)
    (xs : List α) (hi : ∀ x ∈ xs, Parses item (write x) (· ∈ [.comma, .rightParen]) (cost x)
      fun y => same y = same x)
    {c c₁ : Cursor} {ts bound : List Token} {t : Token} {rest : List Token} {m count : Nat}
    (h : Arrives c (ts ++ t :: rest) m c₁) (hs : Spells (moreWritten write xs) ts)
    (ht : t.kind = .rightParen) (hb : (ts ++ t :: rest).length ≤ bound.length) :
    Succeeds (moreItems tooMany item bound count) c₁ fun ys c₂ => ys.map same = xs.map same ∧
      Arrives c (t :: rest)
        (m + ((xs.map cost).sum + (excessOf (count + xs.length) - excessOf count))) c₂ := by
  induction xs generalizing ts bound m count c₁ with
  | nil =>
    cases hs
    cases bound with
    | nil => simp at hb
    | cons _ bound => exact h.refuse (by simp [ht]) ⟨rfl, h.cast (by simp)⟩
  | cons x xs ih =>
    have hs' : Spells (.fixed .comma :: (write x ++ moreWritten write xs)) ts := hs
    obtain ⟨u, us, hcomma, hrest, rfl⟩ := List.forall₂_cons_left_iff.1 hs'
    obtain ⟨tx, tmore, rfl, hx, hmore⟩ := Spells.split hrest
    obtain ⟨v, vs, hv, hvk⟩ := head_moreWritten xs rest hmore ht
    cases bound with
    | nil => simp at hb
    | cons _ bound =>
    simp only [List.cons_append, List.append_assoc, List.length_cons] at h hb
    have more (n : Nat) (c₂ : Cursor) (h₂ : Arrives c (tx ++ (tmore ++ t :: rest)) n c₂) :
        Succeeds (do
          let x ← item
          let xs ← moreItems tooMany item bound (count + 1)
          pure (x :: xs)) c₂ fun ys c₂ => ys.map same = (x :: xs).map same ∧
            Arrives c (t :: rest) (n + cost x + ((xs.map cost).sum +
              (excessOf (count + 1 + xs.length) - excessOf (count + 1)))) c₂ := by
      rw [hv] at h₂
      apply h₂.step (hi x (by simp)) hx hvk
      intro y c₃ h₃ hy
      rw [← hv] at h₃
      refine (ih (fun x hx => hi x (by simp [hx])) h₃ hmore ?_).bind fun ys c₄ h₄ => ?_
      · rw [List.length_append] at hb
        omega
      · exact ⟨by simp [hy, h₄.1], h₄.2⟩
    apply h.accept (by simp [hcomma.kind_eq, Terminal.kind]) (by decide)
    intro c₂ h₂
    by_cases hmax : maxArguments ≤ count
    · simp only [hmax, if_true]
      rw [Succeeds, ends_bind, ends_current, ends_bind]
      have hcount : excessOf (count + 1) = excessOf count + 1 := by unfold excessOf; omega
      refine (more (m + 1) _ (h₂.report htoo)).imp fun ys c₃ h₃ => ⟨h₃.1, h₃.2.cast ?_⟩
      have hle : excessOf (count + 1) ≤ excessOf (count + 1 + xs.length) := by
        unfold excessOf; omega
      rw [List.map_cons, List.sum_cons, List.length_cons,
        show count + (xs.length + 1) = count + 1 + xs.length by omega]
      omega
    · simp only [hmax, if_false]
      have hcount : excessOf (count + 1) = excessOf count := by unfold excessOf; omega
      refine (more m c₂ h₂).imp fun ys c₃ h₃ => ⟨h₃.1, h₃.2.cast ?_⟩
      rw [List.map_cons, List.sum_cons, List.length_cons,
        show count + (xs.length + 1) = count + 1 + xs.length by omega, hcount]
      omega

theorem parses_items (htoo : tooMany = .tooManyArguments ∨ tooMany = .tooManyParameters)
    (xs : List α) (hi : ∀ x ∈ xs, Parses item (write x) (· ∈ [.comma, .rightParen]) (cost x)
      fun y => same y = same x)
    (hfirst : ∀ x ∈ xs, ∃ y ys, write x = y :: ys ∧ y.kind ≠ .rightParen) :
    Parses (items tooMany item) (separated (xs.map write)) (· = .rightParen)
      ((xs.map cost).sum + excessOf xs.length) fun ys => ys.map same = xs.map same := by
  intro c ts t rest hs hrest hf
  have h := Arrives.refl hrest
  cases xs with
  | nil =>
    cases hs
    apply h.check
    simp only [hf, decide_true, if_true]
    exact ⟨rfl, h.cast (by simp [excessOf])⟩
  | cons x xs =>
    obtain ⟨y, ys, hy, hk⟩ := hfirst x (by simp)
    rw [List.map_cons, separated_cons] at hs
    obtain ⟨tx, tmore, rfl, hx, hmore⟩ := Spells.split hs
    obtain ⟨v, vs, hv, hvk⟩ := head_moreWritten xs rest hmore hf
    obtain ⟨u, us, hu, -, htx⟩ := List.forall₂_cons_left_iff.1 (hy ▸ hx)
    rw [List.append_assoc, htx] at h
    apply h.check
    simp only [hu.kind_eq, hk, decide_false]
    rw [← htx, hv] at h
    apply h.step (hi x (by simp)) hx hvk
    intro z c₁ h₁ hz
    rw [← hv] at h₁
    apply h₁.ahead
    intro bound hb
    refine (succeeds_moreItems htoo xs (fun x hx => hi x (by simp [hx])) h₁ hmore hf
      (Nat.le_of_lt hb)).bind fun ys c₂ h₂ => ?_
    refine ⟨by simp [hz, h₂.1], h₂.2.cast ?_⟩
    rw [List.map_cons, List.sum_cons, List.length_cons, Nat.add_comm xs.length]
    have hone : excessOf 1 = 0 := rfl
    omega

end Lox.Grammar
