import Lox.Number.Shortest
import Mathlib.Algebra.Order.Field.Power
import Mathlib.Tactic.FieldSimp
import Mathlib.Tactic.Linarith
import Mathlib.Tactic.Positivity
import Mathlib.Tactic.Ring

/-!
# Doubles and the numbers around them

The bits of a finite double tell its sign and its magnitude, and these tell the bits. The numbers
that round to one magnitude lie between the midpoints to its neighbours, and no number lies around
two magnitudes.
-/
namespace Lox.Number

/-- The magnitudes of finite doubles: a full significand, or the least exponent. -/
structure Magnitude.Normal (m : Magnitude) : Prop where
  significand : m.significand < 2 * hidden
  least : minExponent ≤ m.exponent
  greatest : m.exponent ≤ 971
  full : m.exponent = minExponent ∨ hidden ≤ m.significand

/-- The bits of a finite double. The exponent field counts from one where the significand is full,
which the hidden bit adds. -/
def encodeBits (negative : Bool) (m : Magnitude) : Nat :=
  (if negative then Nat.pow 2 63 else 0) + m.significand +
    (m.exponent - minExponent).toNat * hidden

theorem hidden_eq : hidden = 4503599627370496 := rfl

theorem pow_sixty_three : Nat.pow 2 63 = 9223372036854775808 := rfl

theorem normal_of_decodeBits {bits : Nat} {negative : Bool} {m : Magnitude} (hbits : bits < 2 ^ 64)
    (h : decodeBits bits = .finite negative m) : m.Normal ∧ bits = encodeBits negative m := by
  unfold decodeBits at h
  simp only at h
  split at h
  · split at h <;> cases h
  split at h
  · next hfield hzero =>
    cases h
    rw [hidden_eq] at hzero
    refine ⟨⟨?_, Int.le_refl _, by simp only [minExponent]; omega, .inl rfl⟩, ?_⟩
    · simp only [hidden_eq]
      omega
    · simp only [encodeBits, decide_eq_true_eq, Int.sub_self, hidden_eq, pow_sixty_three]
      split <;> omega
  · next hfield hzero =>
    cases h
    rw [hidden_eq] at hfield hzero
    refine ⟨⟨?_, ?_, ?_, .inr ?_⟩, ?_⟩ <;> simp only [hidden_eq, minExponent]
    · omega
    · omega
    · omega
    · omega
    · simp only [encodeBits, decide_eq_true_eq, hidden_eq, pow_sixty_three, minExponent]
      split <;> omega

theorem toBits_inj {x y : Float} (h : x.toBits = y.toBits) : x = y := by
  obtain ⟨⟨bits, hvalid⟩⟩ := x
  obtain ⟨⟨bits', hvalid'⟩⟩ := y
  obtain rfl : bits = bits' := h
  rfl

/-- Sign and magnitude tell a finite double. -/
theorem decode_inj {x y : Float} {negative : Bool} {m : Magnitude}
    (hx : decode x = .finite negative m) (hy : decode y = .finite negative m) : x = y := by
  have hbits := (normal_of_decodeBits x.toBits.toNat_lt hx).2
  rw [← (normal_of_decodeBits y.toBits.toNat_lt hy).2] at hbits
  exact toBits_inj (UInt64.toNat_inj.1 hbits)

/-- A finite double has a normal magnitude. -/
theorem normal_of_decode {x : Float} {negative : Bool} {m : Magnitude}
    (h : decode x = .finite negative m) : m.Normal :=
  (normal_of_decodeBits x.toBits.toNat_lt h).1

theorem zpow_eq_div {b : ℚ} (hb : b ≠ 0) (e : Int) : b ^ e = b ^ e.toNat / b ^ (-e).toNat := by
  rw [← zpow_natCast, ← zpow_natCast, ← zpow_sub₀ hb]
  congr 1
  omega

/-- The rational number that a quotient is. -/
def Quotient.value (q : Quotient) : ℚ := q.num / q.den

theorem Quotient.den_scale_pos (n : Nat) {base : Nat} (hbase : 0 < base) (e : Int) :
    0 < (Quotient.scale n base e).den := Nat.pow_pos hbase

theorem Quotient.value_scale (n : Nat) {base : Nat} (hbase : 0 < base) (e : Int) :
    (Quotient.scale n base e).value = n * (base : ℚ) ^ e := by
  have hne : (base : ℚ) ≠ 0 := by exact_mod_cast hbase.ne'
  rw [zpow_eq_div hne, Quotient.value, Quotient.scale, Nat.pow_eq, Nat.pow_eq, Nat.cast_mul,
    Nat.cast_pow, Nat.cast_pow, mul_div_assoc]

theorem Quotient.lt_iff {a b : Quotient} (ha : 0 < a.den) (hb : 0 < b.den) :
    a.lt b = true ↔ a.value < b.value := by
  have ha' : (0 : ℚ) < a.den := by exact_mod_cast ha
  have hb' : (0 : ℚ) < b.den := by exact_mod_cast hb
  rw [Quotient.lt, decide_eq_true_eq, Quotient.value, Quotient.value, div_lt_div_iff₀ ha' hb']
  exact_mod_cast Iff.rfl

namespace Magnitude

variable {m m' : Magnitude} {x : ℚ}

/-- The number that a magnitude is. -/
def value (m : Magnitude) : ℚ := m.significand * (2 : ℚ) ^ m.exponent

/-- How far the lower midpoint is, in quarters of a unit. -/
def below (m : Magnitude) : Nat :=
  if m.significand = hidden ∧ minExponent < m.exponent then 1 else 2

/-- The midpoint to the next smaller magnitude. -/
def lower (m : Magnitude) : ℚ := ((4 * m.significand - m.below : Nat) : ℚ) * 2 ^ (m.exponent - 2)

/-- The midpoint to the next greater magnitude. -/
def upper (m : Magnitude) : ℚ := ((4 * m.significand + 2 : Nat) : ℚ) * 2 ^ (m.exponent - 2)

/-- A number between the midpoints, which only an even significand includes. -/
structure Around (m : Magnitude) (x : ℚ) : Prop where
  lower : m.lower ≤ x
  upper : x ≤ m.upper
  strict : m.significand % 2 = 1 → m.lower < x ∧ x < m.upper

section
variable {q : Quotient}

theorem value_interval_lower (m : Magnitude) : m.interval.lower.value = m.lower :=
  Quotient.value_scale _ Nat.zero_lt_two _

theorem value_interval_upper (m : Magnitude) : m.interval.upper.value = m.upper :=
  Quotient.value_scale _ Nat.zero_lt_two _

theorem lower_lt_iff (hq : 0 < q.den) : m.interval.lower.lt q = true ↔ m.lower < q.value := by
  rw [← value_interval_lower]
  exact Quotient.lt_iff (Quotient.den_scale_pos _ Nat.zero_lt_two _) hq

theorem lt_upper_iff (hq : 0 < q.den) : q.lt m.interval.upper = true ↔ q.value < m.upper := by
  rw [← value_interval_upper]
  exact Quotient.lt_iff hq (Quotient.den_scale_pos _ Nat.zero_lt_two _)

theorem lt_lower_iff (hq : 0 < q.den) : q.lt m.interval.lower = true ↔ q.value < m.lower := by
  rw [← value_interval_lower]
  exact Quotient.lt_iff hq (Quotient.den_scale_pos _ Nat.zero_lt_two _)

theorem upper_lt_iff (hq : 0 < q.den) : m.interval.upper.lt q = true ↔ m.upper < q.value := by
  rw [← value_interval_upper]
  exact Quotient.lt_iff (Quotient.den_scale_pos _ Nat.zero_lt_two _) hq

theorem around_of_contains (hq : 0 < q.den) (h : m.interval.contains q = true) :
    m.Around q.value := by
  by_cases heven : m.significand % 2 = 0
  · have hclosed : m.interval.closed = true := by simpa [interval] using heven
    rw [Interval.contains, hclosed, if_pos rfl, Bool.and_eq_true, Bool.not_eq_true',
      Bool.not_eq_true', ← Bool.not_eq_true, ← Bool.not_eq_true, lt_lower_iff hq, upper_lt_iff hq,
      not_lt, not_lt] at h
    exact ⟨h.1, h.2, fun hodd => by omega⟩
  · have hopen : m.interval.closed = false := by simpa [interval] using heven
    rw [Interval.contains, hopen, if_neg Bool.false_ne_true, Bool.and_eq_true, lower_lt_iff hq,
      lt_upper_iff hq] at h
    exact ⟨h.1.le, h.2.le, fun _ => h⟩

/-- What is strictly between the midpoints is contained. -/
theorem contains_of_lt (hq : 0 < q.den) (hlower : m.lower < q.value) (hupper : q.value < m.upper) :
    m.interval.contains q = true := by
  have hlower' := (not_congr (lt_lower_iff hq)).2 hlower.le.not_gt
  have hupper' := (not_congr (upper_lt_iff hq)).2 hupper.le.not_gt
  rw [Bool.not_eq_true] at hlower' hupper'
  rw [Interval.contains, (lower_lt_iff hq).2 hlower, (lt_upper_iff hq).2 hupper, hlower', hupper']
  simp

end

/-- The order of magnitudes. -/
def Before (m m' : Magnitude) : Prop :=
  m.exponent < m'.exponent ∨ m.exponent = m'.exponent ∧ m.significand < m'.significand

/-- Between two magnitudes lies a midpoint, which one of them excludes if it is one of both. -/
theorem Before.upper_le_lower (h : m.Before m') (hm : m.Normal) (hm' : m'.Normal) :
    m.upper ≤ m'.lower ∧
      (m.upper = m'.lower → m.significand % 2 = 1 ∨ m'.significand % 2 = 1) := by
  obtain ⟨k, hk⟩ : ∃ k : Nat, m'.exponent = m.exponent + k :=
    ⟨(m'.exponent - m.exponent).toNat, by rcases h with h | h <;> omega⟩
  have hunit : (0 : ℚ) < 2 ^ (m.exponent - 2) := by positivity
  -- In quarters of the unit of the smaller one, both midpoints are integers.
  have hlower : m'.lower =
      (((4 * m'.significand - m'.below) * 2 ^ k : Nat) : ℚ) * 2 ^ (m.exponent - 2) := by
    have hexponent : m'.exponent - 2 = (k : Int) + (m.exponent - 2) := by omega
    rw [lower, hexponent, zpow_add₀ two_ne_zero, zpow_natCast]
    push_cast
    ring
  have hsmall : m.significand < 9007199254740992 := hm.significand
  have hints : 4 * m.significand + 2 ≤ (4 * m'.significand - m'.below) * 2 ^ k ∧
      (4 * m.significand + 2 = (4 * m'.significand - m'.below) * 2 ^ k →
        m.significand % 2 = 1 ∨ m'.significand % 2 = 1) := by
    rcases h with hlt | ⟨heq, hlt⟩
    · have hpow : 2 ≤ 2 ^ k := by
        have hpos : 1 ≤ k := by omega
        calc 2 = 2 ^ 1 := rfl
          _ ≤ 2 ^ k := Nat.pow_le_pow_right Nat.zero_lt_two hpos
      have hfull : 4503599627370496 ≤ m'.significand :=
        hm'.full.resolve_left fun hleast => by have := hm.least; omega
      have hleft : 18014398509481983 ≤ 4 * m'.significand - m'.below := by
        unfold below
        split
        · omega
        · next hne =>
          have hminimal : minExponent < m'.exponent := by have := hm.least; omega
          have hne' : m'.significand ≠ 4503599627370496 := fun heq => hne ⟨heq, hminimal⟩
          omega
      have hproduct := Nat.mul_le_mul hleft hpow
      exact ⟨by omega, fun heq => .inl (by omega)⟩
    · obtain rfl : k = 0 := by omega
      rw [Nat.pow_zero, Nat.mul_one]
      unfold below
      split <;> exact ⟨by omega, fun _ => by omega⟩
  rw [hlower, upper]
  refine ⟨?_, fun heq => hints.2 ?_⟩
  · exact mul_le_mul_of_nonneg_right (by exact_mod_cast hints.1) hunit.le
  · exact_mod_cast mul_right_cancel₀ hunit.ne' heq

theorem Before.not_around (h : m.Before m') (hm : m.Normal) (hm' : m'.Normal)
    (hx : m.Around x) (hx' : m'.Around x) : False := by
  obtain ⟨hle, hodd⟩ := h.upper_le_lower hm hm'
  have heq : m.upper = m'.lower := le_antisymm hle (hx'.lower.trans hx.upper)
  rcases hodd heq with hodd | hodd
  · exact absurd (heq ▸ (hx.strict hodd).2) hx'.lower.not_gt
  · exact absurd (heq ▸ (hx'.strict hodd).1) hx.upper.not_gt

/-- No number lies around two magnitudes. -/
theorem Around.unique (hm : m.Normal) (hm' : m'.Normal) (hx : m.Around x) (hx' : m'.Around x) :
    m = m' := by
  have hnot : ¬ m.Before m' := fun h => h.not_around hm hm' hx hx'
  have hnot' : ¬ m'.Before m := fun h => h.not_around hm' hm hx' hx
  obtain ⟨significand, exponent⟩ := m
  obtain ⟨significand', exponent'⟩ := m'
  simp only [Before] at hnot hnot'
  obtain rfl : exponent = exponent' := by omega
  obtain rfl : significand = significand' := by omega
  rfl

end Magnitude

end Lox.Number
