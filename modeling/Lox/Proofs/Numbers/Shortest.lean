import Lox.Proofs.Numbers.Intervals

/-!
# The shortest decimal lies around its double

The decimal point is found such that the number is less than a power of ten and not less than a
tenth of it. So on a grid of some length the neighbours of the number have just so many digits, and
on the longest grid the nearer neighbour is closer than any midpoint. Hence there is a shortest
decimal, and it says a number that lies around the double.
-/
namespace Lox.Number

/-- How many digits a number is written with. -/
def digitCount (n : Nat) : Nat := (Nat.toDigits 10 n).length

theorem digitCount_pos (n : Nat) : 0 < digitCount n := Nat.length_toDigits_pos

theorem digitCount_eq {n k : Nat} (h : 10 ^ k ≤ n) (h' : n < 10 ^ (k + 1)) :
    digitCount n = k + 1 := by
  have hle : digitCount n ≤ k + 1 :=
    (Nat.length_toDigits_le_iff (by decide) (Nat.succ_pos k)).2 h'
  have hpos := digitCount_pos n
  have hnot : k = 0 ∨ ¬ digitCount n ≤ k := by
    rcases Nat.eq_zero_or_pos k with hk | hk
    · exact .inl hk
    · exact .inr fun hle' => absurd ((Nat.length_toDigits_le_iff (by decide) hk).1 hle') h.not_gt
  omega

theorem digitCount_mul_ten {n : Nat} (h : 0 < n) : digitCount (n * 10) = digitCount n + 1 := by
  rw [digitCount, Nat.toDigits_of_base_le (by decide) (by omega),
    Nat.mul_div_cancel n (by decide), List.length_append]
  rfl

/-- The number that a decimal says. -/
def Decimal.value (d : Decimal) : ℚ := d.digits * 10 ^ (d.point - digitCount d.digits)

theorem ten_ne_zero : (10 : ℚ) ≠ 0 := by norm_num

theorem pow_ten_mul (n : Nat) (e : Int) : (10 : ℚ) ^ n * 10 ^ e = 10 ^ (n + e) := by
  rw [zpow_add₀ ten_ne_zero, zpow_natCast]

theorem value_mul_ten {n : Nat} (h : 0 < n) (p : Int) :
    (Decimal.mk (n * 10) p).value = (Decimal.mk n p).value := by
  have hexponent : p - digitCount n = p - (digitCount n + 1 : Nat) + 1 := by
    push_cast
    ring
  rw [Decimal.value, Decimal.value, digitCount_mul_ten h, hexponent, zpow_add_one₀ ten_ne_zero]
  push_cast
  ring

theorem dropZeros_spec (fuel : Nat) {n : Nat} (h : 0 < n) (p : Int) :
    0 < dropZeros fuel n ∧ (Decimal.mk (dropZeros fuel n) p).value = (Decimal.mk n p).value := by
  induction fuel generalizing n with
  | zero => exact ⟨h, rfl⟩
  | succ fuel ih =>
    rw [dropZeros]
    split
    · next hzero =>
      obtain ⟨hpos, hvalue⟩ := ih (n := n / 10) (by omega)
      refine ⟨hpos, hvalue.trans ?_⟩
      rw [← value_mul_ten (by omega), Nat.div_mul_cancel (Nat.dvd_of_mod_eq_zero hzero.1)]
    · exact ⟨h, rfl⟩

/-- A decimal that is normalized says the same as on its grid. -/
theorem normalize_spec (n length : Nat) (p : Int) (hn : 10 ^ length ≤ n)
    (hn' : n ≤ 10 ^ (length + 1)) :
    0 < ((Decimal.mk n p).normalize (length + 1)).digits ∧
      ((Decimal.mk n p).normalize (length + 1)).value = n * 10 ^ (p - (length + 1 : Nat)) := by
  have hpos : 0 < n := Nat.lt_of_lt_of_le (Nat.pow_pos (by decide)) hn
  rw [Decimal.normalize]
  split
  · next heq =>
    refine ⟨Nat.one_pos, ?_⟩
    have hcount : digitCount 1 = 1 := rfl
    have hdigits : (n : ℚ) = 10 ^ (length + 1) := by exact_mod_cast heq
    rw [Decimal.value, hcount, hdigits, pow_ten_mul]
    norm_num
  · next hne =>
    obtain ⟨hdrop, hvalue⟩ := dropZeros_spec maxDigits hpos p
    refine ⟨hdrop, hvalue.trans ?_⟩
    rw [Decimal.value, digitCount_eq hn (Nat.lt_of_le_of_ne hn' hne)]

/-- A lower bound of the decimal points of the numbers with one binary logarithm. -/
def guessPoint (b : Int) : Int := ((b - 1) * 30103).fdiv 100000

/-- Among all binary logarithms of doubles, the guess is at most two too small. -/
theorem guessPoint_range : ∀ i : Nat, i < 2098 →
    Quotient.lt (.scale 1 2 (i - 1074)) (.scale 1 10 (guessPoint (i - 1074) - 1)) = false ∧
    Quotient.lt (.scale 1 10 (guessPoint (i - 1074) + 2)) (.scale 1 2 (i - 1074 + 1)) = false := by
  decide +kernel

namespace Quotient

theorem value_scale_one {base : Nat} (hbase : 0 < base) (e : Int) :
    (Quotient.scale 1 base e).value = (base : ℚ) ^ e := by
  rw [value_scale 1 hbase, Nat.cast_one, one_mul]

theorem lt_eq_false_iff {a b : Quotient} (ha : 0 < a.den) (hb : 0 < b.den) :
    a.lt b = false ↔ b.value ≤ a.value := by
  rw [← Bool.not_eq_true, lt_iff ha hb, not_lt]

theorem guess_bounds {b : Int} (hleast : -1074 ≤ b) (hgreatest : b ≤ 1023) :
    (10 : ℚ) ^ (guessPoint b - 1) ≤ 2 ^ b ∧ (2 : ℚ) ^ (b + 1) ≤ 10 ^ (guessPoint b + 2) := by
  obtain ⟨i, rfl⟩ : ∃ i : Nat, b = i - 1074 := ⟨(b + 1074).toNat, by omega⟩
  have hrange := guessPoint_range i (by omega)
  rw [lt_eq_false_iff (den_scale_pos _ (by decide) _) (den_scale_pos _ (by decide) _),
    lt_eq_false_iff (den_scale_pos _ (by decide) _) (den_scale_pos _ (by decide) _),
    value_scale_one (by decide), value_scale_one (by decide), value_scale_one (by decide),
    value_scale_one (by decide)] at hrange
  exact_mod_cast hrange

theorem log2_mul_two_pow {n : Nat} (hn : 0 < n) (k : Nat) : (n * 2 ^ k).log2 = n.log2 + k := by
  have hpow : 0 < 2 ^ k := Nat.two_pow_pos k
  rw [Nat.log2_eq_iff (Nat.mul_pos hn hpow).ne', Nat.add_right_comm, Nat.pow_add, Nat.pow_add]
  exact ⟨Nat.mul_le_mul_right _ (Nat.log2_self_le hn.ne'),
    Nat.mul_lt_mul_of_pos_right Nat.lt_log2_self hpow⟩

theorem log2_scale {n : Nat} (hn : 0 < n) (e : Int) :
    ((scale n 2 e).num.log2 : Int) - (scale n 2 e).den.log2 = n.log2 + e := by
  rw [scale, Nat.pow_eq, Nat.pow_eq, log2_mul_two_pow hn, Nat.log2_two_pow]
  omega

theorem value_log2_bounds {n : Nat} (hn : 0 < n) (e : Int) :
    (2 : ℚ) ^ (n.log2 + e) ≤ (scale n 2 e).value ∧
      (scale n 2 e).value < 2 ^ (n.log2 + e + 1) := by
  have hunit : (0 : ℚ) < 2 ^ e := by positivity
  have hle : ((2 ^ n.log2 : Nat) : ℚ) ≤ n := by exact_mod_cast Nat.log2_self_le hn.ne'
  have hlt : (n : ℚ) < ((2 ^ (n.log2 + 1) : Nat) : ℚ) := by exact_mod_cast Nat.lt_log2_self
  rw [Nat.cast_pow, ← zpow_natCast] at hle hlt
  rw [value_scale n Nat.zero_lt_two, Int.add_right_comm, zpow_add₀ two_ne_zero,
    zpow_add₀ two_ne_zero]
  exact ⟨mul_le_mul_of_nonneg_right hle hunit.le,
    mul_lt_mul_of_pos_right (by exact_mod_cast hlt) hunit⟩

theorem decimalPoint_eq (x : Quotient) :
    x.decimalPoint =
      let guess := guessPoint (x.num.log2 - x.den.log2)
      ([guess, guess + 1, guess + 2].find? fun k => x.lt (.scale 1 10 k)).getD (guess + 3) := rfl

/-- The number is less than ten to its decimal point, and not less than a tenth of that. -/
theorem decimalPoint_spec {n : Nat} {e : Int} (hn : 0 < n) (hleast : -1074 ≤ n.log2 + e)
    (hgreatest : n.log2 + e ≤ 1023) :
    (10 : ℚ) ^ ((scale n 2 e).decimalPoint - 1) ≤ (scale n 2 e).value ∧
      (scale n 2 e).value < 10 ^ (scale n 2 e).decimalPoint := by
  obtain ⟨hlower, hupper⟩ := guess_bounds hleast hgreatest
  obtain ⟨hlower', hupper'⟩ := value_log2_bounds hn e
  have hlog := log2_scale hn e
  have hden := den_scale_pos n Nat.zero_lt_two e
  have hlt (k : Int) : (scale n 2 e).lt (scale 1 10 k) = true ↔ (scale n 2 e).value < 10 ^ k := by
    rw [lt_iff hden (den_scale_pos _ (by decide) _), value_scale_one (by decide)]
    norm_cast
  generalize scale n 2 e = x at *
  rw [decimalPoint_eq, hlog]
  simp only
  have hlast := (hlt _).2 (hupper'.trans_le hupper)
  generalize guessPoint (n.log2 + e) = guess at *
  rw [List.find?_cons]
  split
  · next hfirst => exact ⟨hlower.trans hlower', (hlt _).1 hfirst⟩
  · next hfirst =>
    rw [List.find?_cons]
    rw [← Bool.not_eq_true, hlt, not_lt] at hfirst
    split
    · next hsecond => exact ⟨by simpa using hfirst, (hlt _).1 hsecond⟩
    · next hsecond =>
      rw [← Bool.not_eq_true, hlt, not_lt] at hsecond
      rw [List.find?_cons, hlast]
      have hexponent : guess + 2 - 1 = guess + 1 := by ring
      exact ⟨by simpa [hexponent] using hsecond, (hlt _).1 hlast⟩

end Quotient

namespace Quotient

/-- A quotient in units of a power of ten. -/
def inUnits (x : Quotient) (unit : Int) : Quotient :=
  ⟨x.num * Nat.pow 10 (-unit).toNat, x.den * Nat.pow 10 unit.toNat⟩

def floor (x : Quotient) : Nat := x.num / x.den

/-- The nearest natural number, of two equally near ones the even one. -/
def round (x : Quotient) : Nat :=
  if 2 * (x.num % x.den) < x.den then x.floor
  else if x.den < 2 * (x.num % x.den) then x.floor + 1
  else x.floor + x.floor % 2

/-- The other of the two natural numbers next to it. -/
def far (x : Quotient) : Nat := 2 * x.floor + 1 - x.round

variable {x : Quotient}

theorem den_inUnits_pos (hx : 0 < x.den) (unit : Int) : 0 < (x.inUnits unit).den :=
  Nat.mul_pos hx (Nat.pow_pos (by decide))

theorem value_inUnits (x : Quotient) (unit : Int) :
    (x.inUnits unit).value * 10 ^ unit = x.value := by
  rw [zpow_eq_div ten_ne_zero, value, value, inUnits, Nat.pow_eq, Nat.pow_eq]
  push_cast
  field_simp

/-- The floor of a quotient and what is left of it. -/
theorem value_eq (hx : 0 < x.den) :
    x.value = x.floor + ((x.num % x.den : Nat) : ℚ) / x.den := by
  have hx' : (x.den : ℚ) ≠ 0 := by exact_mod_cast hx.ne'
  have hdivision : (x.num : ℚ) = x.den * x.floor + (x.num % x.den : Nat) := by
    exact_mod_cast (Nat.div_add_mod x.num x.den).symm
  rw [value, eq_comm, hdivision]
  field_simp

theorem round_cases (x : Quotient) : x.round = x.floor ∨ x.round = x.floor + 1 := by
  unfold round
  split
  · exact .inl rfl
  · split
    · exact .inr rfl
    · omega

theorem far_cases (x : Quotient) : x.far = x.floor ∨ x.far = x.floor + 1 := by
  have := x.round_cases
  unfold far
  omega

theorem abs_round_sub_le (hx : 0 < x.den) : |(x.round : ℚ) - x.value| ≤ 1 / 2 := by
  have hx' : (0 : ℚ) < x.den := by exact_mod_cast hx
  have hlt : ((x.num % x.den : Nat) : ℚ) / x.den < 1 :=
    (div_lt_one hx').2 (by exact_mod_cast Nat.mod_lt _ hx)
  have hnonneg : 0 ≤ ((x.num % x.den : Nat) : ℚ) / x.den := by positivity
  have hhalf : 2 * (x.num % x.den) ≤ x.den →
      ((x.num % x.den : Nat) : ℚ) / x.den ≤ 1 / 2 := fun hle => by
    rw [div_le_iff₀ hx']
    have : (2 : ℚ) * (x.num % x.den : Nat) ≤ x.den := by exact_mod_cast hle
    linarith
  have hhalf' : x.den ≤ 2 * (x.num % x.den) →
      1 / 2 ≤ ((x.num % x.den : Nat) : ℚ) / x.den := fun hle => by
    rw [le_div_iff₀ hx']
    have : (x.den : ℚ) ≤ 2 * (x.num % x.den : Nat) := by exact_mod_cast hle
    linarith
  rw [value_eq hx, abs_le]
  generalize ((x.num % x.den : Nat) : ℚ) / x.den = rest at *
  unfold round
  split
  · next hdown => constructor <;> linarith [hhalf hdown.le]
  · next hnot =>
    split
    · next hup =>
      push_cast
      constructor <;> linarith [hhalf' hup.le]
    · next hnot' =>
      have hle := hhalf (by omega)
      have hle' := hhalf' (by omega)
      rcases Nat.mod_two_eq_zero_or_one x.floor with heven | hodd
      · rw [heven, Nat.add_zero]
        constructor <;> linarith
      · rw [hodd]
        push_cast
        constructor <;> linarith

variable {i : Interval} {point : Int} {length : Nat} {d : Decimal}

theorem onGrid?_eq (x : Quotient) (i : Interval) (point : Int) (length : Nat) :
    x.onGrid? i point length =
      let near := (x.inUnits (point - length)).round
      let far := (x.inUnits (point - length)).far
      if (0 < near && i.contains (.scale near 10 (point - length))) = true then some ⟨near, point⟩
      else if (0 < far && i.contains (.scale far 10 (point - length))) = true then some ⟨far, point⟩
      else none := rfl

/-- A decimal on a grid is a neighbour of the number there, and lies in the interval. -/
theorem onGrid?_spec (h : x.onGrid? i point length = some d) :
    d.point = point ∧ i.contains (.scale d.digits 10 (point - length)) = true ∧
      (d.digits = (x.inUnits (point - length)).floor ∨
        d.digits = (x.inUnits (point - length)).floor + 1) := by
  rw [onGrid?_eq] at h
  simp only at h
  split at h
  · next hnear =>
    cases h
    exact ⟨rfl, (Bool.and_eq_true_iff.1 hnear).2, round_cases _⟩
  · split at h
    · next hfar =>
      cases h
      exact ⟨rfl, (Bool.and_eq_true_iff.1 hfar).2, far_cases _⟩
    · cases h

theorem isSome_onGrid? (hpos : 0 < (x.inUnits (point - length)).round)
    (h : i.contains (.scale (x.inUnits (point - length)).round 10 (point - length)) = true) :
    (x.onGrid? i point length).isSome = true := by
  rw [onGrid?_eq]
  simp only
  rw [if_pos (Bool.and_eq_true_iff.2 ⟨decide_eq_true hpos, h⟩)]
  rfl

/-- On a grid of some length the floor of the number has just so many digits. -/
theorem floor_bounds (length : Nat) (hx : 0 < x.den) (hlower : (10 : ℚ) ^ (point - 1) ≤ x.value)
    (hupper : x.value < 10 ^ point) :
    10 ^ length ≤ (x.inUnits (point - (length + 1 : Nat))).floor ∧
      (x.inUnits (point - (length + 1 : Nat))).floor < 10 ^ (length + 1) := by
  have hfirst : (10 : ℚ) ^ (point - 1) = 10 ^ length * 10 ^ (point - (length + 1 : Nat)) := by
    rw [pow_ten_mul]
    congr 1
    push_cast
    ring
  have hlast : (10 : ℚ) ^ point = 10 ^ (length + 1) * 10 ^ (point - (length + 1 : Nat)) := by
    rw [pow_ten_mul, add_sub_cancel]
  have hunit : (0 : ℚ) < 10 ^ (point - (length + 1 : Nat)) := by positivity
  rw [hfirst, ← x.value_inUnits (point - (length + 1 : Nat)), mul_le_mul_iff_left₀ hunit] at hlower
  rw [hlast, ← x.value_inUnits (point - (length + 1 : Nat)), mul_lt_mul_iff_left₀ hunit] at hupper
  have hden := den_inUnits_pos hx (point - (length + 1 : Nat))
  generalize x.inUnits (point - (length + 1 : Nat)) = y at *
  have hden' : (0 : ℚ) < y.den := by exact_mod_cast hden
  rw [value, le_div_iff₀ hden'] at hlower
  rw [value, div_lt_iff₀ hden'] at hupper
  rw [floor, Nat.le_div_iff_mul_le hden, Nat.div_lt_iff_lt_mul hden]
  exact ⟨by exact_mod_cast hlower, by exact_mod_cast hupper⟩

/-- On a grid the nearest decimal is at most half a unit away. -/
theorem abs_round_inUnits_sub_le (hx : 0 < x.den) (unit : Int) :
    |(scale (x.inUnits unit).round 10 unit).value - x.value| ≤ 1 / 2 * 10 ^ unit := by
  have hunit : (0 : ℚ) < 10 ^ unit := by positivity
  have hround := abs_round_sub_le (den_inUnits_pos hx unit)
  rw [value_scale _ (by decide), ← x.value_inUnits unit, Nat.cast_ofNat, ← sub_mul, abs_mul,
    abs_of_pos hunit]
  exact mul_le_mul_of_nonneg_right hround hunit.le

end Quotient

namespace Magnitude

variable {m : Magnitude}

theorem pow_quarter (e : Int) : (2 : ℚ) ^ e = 4 * 2 ^ (e - 2) := by
  have hexponent : (2 : ℚ) ^ e = 2 ^ (e - 2 + 2) := by rw [Int.sub_add_cancel]
  rw [hexponent, zpow_add₀ two_ne_zero, mul_comm]
  norm_num

/-- What is nearer than any midpoint is contained. -/
theorem contains_of_near {q : Quotient} (hq : 0 < q.den) (hpos : 0 < m.significand)
    (h : |q.value - m.value| < m.below * 2 ^ (m.exponent - 2)) : m.interval.contains q = true := by
  have hbelow : m.below ≤ 2 := by
    unfold below
    split <;> decide
  have hunit : (0 : ℚ) < 2 ^ (m.exponent - 2) := by positivity
  have hle : (m.below : ℚ) * 2 ^ (m.exponent - 2) ≤ 2 * 2 ^ (m.exponent - 2) :=
    mul_le_mul_of_nonneg_right (by exact_mod_cast hbelow) hunit.le
  obtain ⟨hlower, hupper⟩ := abs_lt.1 h
  rw [value, pow_quarter m.exponent] at hlower hupper
  refine contains_of_lt hq ?_ ?_
  · rw [lower, Nat.cast_sub (by omega)]
    push_cast
    linarith
  · rw [upper]
    push_cast
    linarith

/-- Half a unit in the seventeenth digit is less than the distance to a midpoint. -/
theorem half_unit_lt (hm : m.Normal) {unit : ℚ} (h : 10 ^ 16 * unit ≤ m.value) :
    1 / 2 * unit < m.below * 2 ^ (m.exponent - 2) := by
  have hunit : (0 : ℚ) < 2 ^ (m.exponent - 2) := by positivity
  rw [value, pow_quarter m.exponent] at h
  unfold below
  split
  · next hdense =>
    rw [hdense.1, hidden_eq] at h
    push_cast at h ⊢
    linarith
  · have hsignificand : (m.significand : ℚ) < 9007199254740992 := by
      exact_mod_cast hm.significand
    have := mul_lt_mul_of_pos_right hsignificand hunit
    push_cast
    linarith

theorem log2_bounds (hm : m.Normal) (hpos : 0 < m.significand) :
    -1074 ≤ (m.significand.log2 + m.exponent : Int) ∧ m.significand.log2 + m.exponent ≤ 1023 := by
  have hlog : m.significand.log2 < 53 := (Nat.log2_lt hpos.ne').2 hm.significand
  have hleast : -1074 ≤ m.exponent := hm.least
  have hgreatest := hm.greatest
  omega

/-- Seventeen digits always suffice. -/
theorem isSome_onGrid?_maxDigits (hm : m.Normal) (hpos : 0 < m.significand) {x : Quotient}
    {point : Int} (hx : 0 < x.den) (hvalue : x.value = m.value)
    (hlower : (10 : ℚ) ^ (point - 1) ≤ x.value) (hupper : x.value < 10 ^ point) :
    (x.onGrid? m.interval point maxDigits).isSome = true := by
  have hfloor := Quotient.floor_bounds 16 hx hlower hupper
  have hround := (x.inUnits (point - (16 + 1 : Nat))).round_cases
  change (x.onGrid? m.interval point (16 + 1)).isSome = true
  refine Quotient.isSome_onGrid? (by omega) (contains_of_near ?_ hpos ?_)
  · exact Quotient.den_scale_pos _ (by decide) _
  · have hunit : (10 : ℚ) ^ 16 * 10 ^ (point - (16 + 1 : Nat)) = 10 ^ (point - 1) := by
      rw [pow_ten_mul]
      congr 1
      push_cast
      ring
    rw [← hvalue]
    refine (x.abs_round_inUnits_sub_le hx _).trans_lt (half_unit_lt hm ?_)
    rw [hunit, ← hvalue]
    exact hlower

theorem shortest_eq (m : Magnitude) :
    m.shortest =
      let x := Quotient.scale m.significand 2 m.exponent
      ((List.range' 1 maxDigits).findSome? fun n =>
        (x.onGrid? m.interval x.decimalPoint n).map (·.normalize n)).getD ⟨0, 0⟩ := rfl

/-- There is a shortest decimal, and it says a number around the magnitude. -/
theorem shortest_spec (hm : m.Normal) (hpos : 0 < m.significand) :
    0 < m.shortest.digits ∧ m.Around m.shortest.value := by
  obtain ⟨hleast, hgreatest⟩ := log2_bounds hm hpos
  obtain ⟨hlower, hupper⟩ := Quotient.decimalPoint_spec hpos hleast hgreatest
  have hx := Quotient.den_scale_pos m.significand Nat.zero_lt_two m.exponent
  have hvalue : (Quotient.scale m.significand 2 m.exponent).value = m.value :=
    Quotient.value_scale _ Nat.zero_lt_two _
  rw [shortest_eq]
  simp only
  generalize Quotient.scale m.significand 2 m.exponent = x at *
  have hsome : ((List.range' 1 maxDigits).findSome? fun n =>
      (x.onGrid? m.interval x.decimalPoint n).map (·.normalize n)).isSome = true := by
    rw [List.findSome?_isSome_iff]
    refine ⟨maxDigits, by decide, ?_⟩
    rw [Option.isSome_map]
    exact isSome_onGrid?_maxDigits hm hpos hx hvalue hlower hupper
  obtain ⟨d, hd⟩ := Option.isSome_iff_exists.1 hsome
  rw [hd]
  obtain ⟨n, hn, hd⟩ := List.exists_of_findSome?_eq_some hd
  obtain ⟨grid, hgrid, rfl⟩ := Option.map_eq_some_iff.1 hd
  obtain ⟨length, rfl⟩ : ∃ length, n = length + 1 :=
    ⟨n - 1, by have := (List.mem_range'_1.1 hn).1; omega⟩
  obtain ⟨hpoint, hcontains, hdigits⟩ := Quotient.onGrid?_spec hgrid
  have hfloor := Quotient.floor_bounds length hx hlower hupper
  obtain ⟨hpos', hnormal⟩ := normalize_spec grid.digits length grid.point (by omega)
    (by omega)
  refine ⟨hpos', ?_⟩
  have haround := around_of_contains (Quotient.den_scale_pos _ (by decide) _) hcontains
  rw [Quotient.value_scale _ (by decide)] at haround
  change m.Around (Decimal.normalize _ ⟨grid.digits, grid.point⟩).value
  rw [hnormal, hpoint]
  exact_mod_cast haround

end Magnitude

end Lox.Number
