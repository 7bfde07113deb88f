import Lox.Proofs.Numbers.Shortest
import Lox.Proofs.Scanning.Lexemes

/-!
# The text of a number tells the number

A number is written as digits with an optional point and an optional exponent. Read back, these say
a number around the double that was written, so that two finite doubles have one text only if they
are one.
-/
namespace Lox.Number

open Token (takeWhile_all dropWhile_all)

variable {cs tail : List Char} {e : Int} {q q' : ℚ}

theorem natOfDigits_append (cs cs' : List Char) :
    natOfDigits (cs ++ cs') = 10 ^ cs'.length * natOfDigits cs + natOfDigits cs' :=
  (Nat.ofDigitChars_append 0).trans Nat.ofDigitChars_eq_ofDigitChars_zero

theorem natOfDigits_zeros (n : Nat) : natOfDigits (List.replicate n '0') = 0 :=
  Nat.ofDigitChars_replicate_zero

theorem natOfDigits_toDigits (n : Nat) : natOfDigits (Nat.toDigits 10 n) = n :=
  Nat.ofDigitChars_toDigits (by decide) (by decide)

structure Digits (cs : List Char) : Prop where
  ne_nil : cs ≠ []
  digit : ∀ c ∈ cs, isDigit c = true

theorem digits_toDigits (n : Nat) : Digits (Nat.toDigits 10 n) :=
  ⟨Nat.toDigits_ne_nil, fun _ hc => Nat.isDigit_of_mem_toDigits (by decide) (by decide) hc⟩

theorem isDigit_of_mem_zeros {n : Nat} {c : Char} (hc : c ∈ List.replicate n '0') :
    isDigit c = true := by
  rw [List.eq_of_mem_replicate hc]
  rfl

theorem Digits.zeros_append (h : Digits cs) (n : Nat) : Digits (List.replicate n '0' ++ cs) :=
  ⟨by simp [h.ne_nil], fun _ hc =>
    (List.mem_append.1 hc).elim isDigit_of_mem_zeros (h.digit _)⟩

theorem Digits.append_zeros (h : Digits cs) (n : Nat) : Digits (cs ++ List.replicate n '0') :=
  ⟨by simp [h.ne_nil], fun _ hc =>
    (List.mem_append.1 hc).elim (h.digit _) isDigit_of_mem_zeros⟩

theorem Digits.take (h : Digits cs) {n : Nat} (hn : 0 < n) : Digits (cs.take n) :=
  ⟨by simp [h.ne_nil, hn.ne'], fun _ hc => h.digit _ (List.mem_of_mem_take hc)⟩

theorem Digits.drop (h : Digits cs) {n : Nat} (hn : n < cs.length) : Digits (cs.drop n) :=
  ⟨by simpa using hn, fun _ hc => h.digit _ (List.mem_of_mem_drop hc)⟩

inductive Exponent : List Char → Int → Prop
  | none : Exponent [] 0
  | plus {cs : List Char} (h : Digits cs) : Exponent ('e' :: '+' :: cs) (natOfDigits cs)
  | minus {cs : List Char} (h : Digits cs) : Exponent ('e' :: '-' :: cs) (-natOfDigits cs)

/-- Digits with an optional point and an optional exponent, and the number that they say. -/
inductive Says : List Char → ℚ → Prop
  | whole {whole tail : List Char} {e : Int} (hw : Digits whole) (he : Exponent tail e) :
      Says (whole ++ tail) (natOfDigits whole * 10 ^ e)
  | fraction {whole fraction tail : List Char} {e : Int} (hw : Digits whole)
      (hf : Digits fraction) (he : Exponent tail e) :
      Says (whole ++ '.' :: (fraction ++ tail))
        (natOfDigits (whole ++ fraction) * 10 ^ (e - fraction.length))

/-- The exponent that a text ends with. -/
def readExponent (tail : List Char) : Int := (exponent? tail.tail).getD 0

/-- The number that a text says, where it says one. -/
def reading (cs : List Char) : ℚ :=
  match cs.dropWhile isDigit with
  | '.' :: after =>
    natOfDigits (cs.takeWhile isDigit ++ after.takeWhile isDigit) *
      10 ^ (readExponent (after.dropWhile isDigit) - (after.takeWhile isDigit).length)
  | tail => natOfDigits (cs.takeWhile isDigit) * 10 ^ readExponent tail

theorem Exponent.stops (h : Exponent tail e) : tail.head?.any isDigit = false := by
  cases h <;> rfl

theorem Exponent.eq_read (h : Exponent tail e) : readExponent tail = e := by
  have hdigits {cs : List Char} (h : Digits cs) : (cs.isEmpty || !cs.all isDigit) = false := by
    simpa using ⟨h.ne_nil, h.digit⟩
  cases h with
  | none => rfl
  | plus h | minus h =>
    simp only [readExponent, List.tail_cons, exponent?, splitSign, hdigits h]
    rfl

theorem Says.eq_reading (h : Says cs q) : q = reading cs := by
  cases h with
  | @whole whole tail e hw he =>
    rw [reading, dropWhile_all hw.digit he.stops, takeWhile_all hw.digit he.stops]
    split
    · cases he
    · rw [he.eq_read]
  | fraction hw hf he =>
    rw [reading, dropWhile_all hw.digit rfl, takeWhile_all hw.digit rfl]
    simp only
    rw [dropWhile_all hf.digit he.stops, takeWhile_all hf.digit he.stops, he.eq_read]

theorem Says.unique (h : Says cs q) (h' : Says cs q') : q = q' :=
  h.eq_reading.trans h'.eq_reading.symm

/-- What numbers are written with. -/
def isNumeral (c : Char) : Bool := isDigit c || c = '.' || c = 'e' || c = '+' || c = '-'

theorem isNumeral_of_isDigit {c : Char} (h : isDigit c = true) : isNumeral c = true := by
  simp [isNumeral, h]

theorem Exponent.isNumeral (h : Exponent tail e) : ∀ c ∈ tail, isNumeral c = true := by
  cases h with
  | none => simp
  | plus h | minus h =>
    simp only [List.forall_mem_cons]
    exact ⟨rfl, rfl, fun c hc => isNumeral_of_isDigit (h.digit c hc)⟩

theorem Says.isNumeral (h : Says cs q) : ∀ c ∈ cs, isNumeral c = true := by
  cases h with
  | whole hw he =>
    rw [List.forall_mem_append]
    exact ⟨fun c hc => isNumeral_of_isDigit (hw.digit c hc), he.isNumeral⟩
  | fraction hw hf he =>
    rw [List.forall_mem_append, List.forall_mem_cons, List.forall_mem_append]
    exact ⟨fun c hc => isNumeral_of_isDigit (hw.digit c hc), rfl,
      fun c hc => isNumeral_of_isDigit (hf.digit c hc), he.isNumeral⟩

theorem Says.head (h : Says cs q) : ∃ c rest, cs = c :: rest ∧ isDigit c = true := by
  have hfirst {whole rest : List Char} (hw : Digits whole) :
      ∃ c rest', whole ++ rest = c :: rest' ∧ isDigit c = true := by
    obtain ⟨c, whole, rfl⟩ := List.exists_cons_of_ne_nil hw.ne_nil
    exact ⟨c, whole ++ rest, rfl, hw.digit c List.mem_cons_self⟩
  cases h with
  | whole hw he => exact hfirst hw
  | fraction hw hf he => exact hfirst hw

theorem toList_toString (n : Nat) : (toString n).toList = Nat.toDigits 10 n := by
  rw [show toString n = n.repr from rfl, Nat.repr_eq_ofList_toDigits, String.toList_ofList]

theorem length_toString (n : Nat) : (toString n).length = digitCount n := by
  rw [← String.length_toList, toList_toString, digitCount]

theorem toList_zeros (n : Nat) : (zeros n).toList = List.replicate n '0' := String.toList_ofList

/-- Digits with a point among them. -/
theorem says_split {digits n : Nat} (hn : 0 < n) (hlength : n < digitCount digits)
    (he : Exponent tail e) :
    Says ((Nat.toDigits 10 digits).take n ++ '.' :: ((Nat.toDigits 10 digits).drop n ++ tail))
      (digits * 10 ^ (e - (digitCount digits - n : Nat))) := by
  have hdigits := digits_toDigits digits
  have htext := Says.fraction (hdigits.take hn) (hdigits.drop hlength) he
  rwa [List.take_append_drop, natOfDigits_toDigits, List.length_drop] at htext

theorem says_fixed (d : Decimal) : Says (plain.fixed d).toList d.value := by
  have hdigits := digits_toDigits d.digits
  have hzero : Digits ['0'] := digits_toDigits 0
  unfold Spelling.fixed
  simp only [length_toString]
  split
  · next hpoint =>
    have htext := Says.fraction hzero (hdigits.zeros_append (-d.point).toNat) .none
    have hexponent : (0 : Int) - ((-d.point).toNat + digitCount d.digits : Nat) =
        d.point - digitCount d.digits := by omega
    rw [natOfDigits_append, natOfDigits_append, natOfDigits_zeros, natOfDigits_toDigits,
      List.length_append, List.length_replicate, ← digitCount, hexponent] at htext
    simpa [toList_toString, toList_zeros, Decimal.value, natOfDigits, digitValue] using htext
  · next hpoint =>
    split
    · next hlength =>
      have htext := Says.fraction
        (hdigits.append_zeros (d.point.toNat - digitCount d.digits)) hzero .none
      have hvalue : d.value = ((10 ^ 1 * (10 ^ (d.point.toNat - digitCount d.digits) * d.digits) :
          Nat) : ℚ) * 10 ^ (0 - (1 : Nat) : Int) := by
        have hexponent : d.point - digitCount d.digits =
            (d.point.toNat - digitCount d.digits : Nat) := by omega
        rw [Decimal.value, hexponent, zpow_natCast]
        push_cast
        field_simp
      rw [natOfDigits_append, natOfDigits_append, natOfDigits_zeros, natOfDigits_toDigits,
        List.length_replicate] at htext
      simpa [toList_toString, toList_zeros, hvalue, plain, natOfDigits, digitValue] using htext
    · next hlength =>
      have htext := says_split (by omega) (not_le.1 hlength) Exponent.none
      have hexponent : (0 : Int) - (digitCount d.digits - d.point.toNat : Nat) =
          d.point - digitCount d.digits := by omega
      rw [hexponent] at htext
      simpa [toList_toString, Decimal.value] using htext

theorem exponent_text (width : Nat) (e : Int) :
    Exponent ('e' :: ((if e < 0 then "-" else "+").toList ++
      (padLeft width (toString e.natAbs)).toList)) e := by
  have hdigits := (digits_toDigits e.natAbs).zeros_append (width - digitCount e.natAbs)
  have hvalue : natOfDigits (List.replicate (width - digitCount e.natAbs) '0' ++
      Nat.toDigits 10 e.natAbs) = e.natAbs := by
    rw [natOfDigits_append, natOfDigits_zeros, natOfDigits_toDigits, Nat.mul_zero, Nat.zero_add]
  rw [padLeft, length_toString, String.toList_append, toList_zeros, toList_toString]
  split
  · have hexponent := Exponent.minus hdigits
    rw [hvalue] at hexponent
    have he : -(e.natAbs : Int) = e := by omega
    rwa [he] at hexponent
  · have hexponent := Exponent.plus hdigits
    rw [hvalue] at hexponent
    have he : (e.natAbs : Int) = e := by omega
    rwa [he] at hexponent

theorem says_scientific (d : Decimal) : Says (plain.scientific d).toList d.value := by
  have hexponent := exponent_text plain.exponentWidth (d.point - 1)
  unfold Spelling.scientific
  simp only [length_toString]
  split
  · next hlength =>
    have hone : digitCount d.digits = 1 := by
      have := digitCount_pos d.digits
      omega
    have htext := Says.whole (digits_toDigits d.digits) hexponent
    rw [natOfDigits_toDigits] at htext
    simpa [toList_toString, Decimal.value, hone] using htext
  · next hlength =>
    have htext := says_split Nat.one_pos (not_le.1 hlength) hexponent
    have he : d.point - 1 - (digitCount d.digits - 1 : Nat) =
        d.point - digitCount d.digits := by omega
    rw [he] at htext
    simpa [toList_toString, Decimal.value] using htext

theorem says_zero : Says ("0" ++ plain.whole).toList 0 := by
  have hzero : Digits ['0'] := digits_toDigits 0
  have htext := Says.fraction hzero hzero .none
  simpa [plain, natOfDigits, digitValue] using htext

theorem says_write {m : Magnitude} (hm : m.Normal) :
    ∃ q, Says (plain.write m).toList q ∧ (m.significand = 0 ↔ q = 0) ∧
      (0 < m.significand → m.Around q) := by
  unfold Spelling.write
  split
  · next hzero => exact ⟨0, says_zero, by simp [hzero], by simp [hzero]⟩
  · next hne =>
    obtain ⟨hpos, haround⟩ := m.shortest_spec hm (Nat.pos_of_ne_zero hne)
    have hvalue : m.shortest.value ≠ 0 := by
      have : (0 : ℚ) < m.shortest.digits := by exact_mod_cast hpos
      rw [Decimal.value]
      positivity
    refine ⟨m.shortest.value, ?_, by simp [hne, hvalue], fun _ => haround⟩
    simp only
    split
    · exact says_fixed _
    · exact says_scientific _

/-- A finite double: one that is a number. -/
def IsFinite (x : Float) : Prop := ∃ negative m, decode x = .finite negative m

theorem literal_eq {x : Float} {negative : Bool} {m : Magnitude}
    (h : decode x = .finite negative m) : literal x = signed negative (plain.write m) := by
  rw [literal, h]

/-- The text of a finite double begins with a digit, after a sign if it is negative. -/
theorem head_literal {x : Float} (hx : IsFinite x) :
    ∃ c rest, (literal x).toList = c :: rest ∧ (isDigit c = true ∨ c = '-') := by
  obtain ⟨negative, m, hx⟩ := hx
  obtain ⟨q, htext, -⟩ := says_write (normal_of_decode hx)
  rw [literal_eq hx]
  cases negative with
  | false =>
    obtain ⟨c, rest, heq, hdigit⟩ := htext.head
    exact ⟨c, rest, heq, .inl hdigit⟩
  | true => exact ⟨'-', (plain.write m).toList, String.toList_append, .inr rfl⟩

theorem isNumeral_literal {x : Float} (hx : IsFinite x) :
    ∀ c ∈ (literal x).toList, isNumeral c = true := by
  obtain ⟨negative, m, hx⟩ := hx
  obtain ⟨q, htext, -⟩ := says_write (normal_of_decode hx)
  rw [literal_eq hx]
  cases negative with
  | false => exact htext.isNumeral
  | true =>
    rw [signed, if_pos rfl, String.toList_append, List.forall_mem_append]
    exact ⟨List.forall_mem_singleton.2 rfl, htext.isNumeral⟩

/-- One text is of one magnitude. -/
theorem write_inj {m m' : Magnitude} (hm : m.Normal) (hm' : m'.Normal)
    (h : plain.write m = plain.write m') : m = m' := by
  obtain ⟨q, htext, hzero, haround⟩ := says_write hm
  obtain ⟨q', htext', hzero', haround'⟩ := says_write hm'
  obtain rfl : q = q' := htext.unique (h ▸ htext')
  rcases Nat.eq_zero_or_pos m.significand with hnone | hpos
  · have hnone' := hzero'.2 (hzero.1 hnone)
    have hleast : m.exponent = minExponent := hm.full.resolve_right (by simp [hnone, hidden_eq])
    have hleast' : m'.exponent = minExponent := hm'.full.resolve_right (by simp [hnone', hidden_eq])
    obtain ⟨significand, exponent⟩ := m
    obtain ⟨significand', exponent'⟩ := m'
    simp_all
  · have hpos' : 0 < m'.significand :=
      Nat.pos_of_ne_zero fun hnone' => hpos.ne' (hzero.2 (hzero'.1 hnone'))
    exact (haround hpos).unique hm hm' (haround' hpos')

/-- A sign and a text that begins with a digit are told from each other. -/
theorem signed_inj {negative negative' : Bool} {text text' : String}
    (htext : Says text.toList q) (htext' : Says text'.toList q')
    (h : signed negative text = signed negative' text') : negative = negative' ∧ text = text' := by
  have hne {text text' : String} {q : ℚ} (htext : Says text.toList q) : text ≠ "-" ++ text' := by
    rintro rfl
    obtain ⟨c, rest, heq, hdigit⟩ := htext.head
    rw [String.toList_append] at heq
    cases heq
    cases hdigit
  cases negative <;> cases negative'
  · exact ⟨rfl, h⟩
  · exact absurd h (hne htext)
  · exact absurd h.symm (hne htext')
  · exact ⟨rfl, String.append_right_inj _ |>.1 h⟩

/-- The text of a finite double tells the double. -/
theorem literal_inj {x y : Float} (hx : IsFinite x) (hy : IsFinite y) (h : literal x = literal y) :
    x = y := by
  obtain ⟨negative, m, hx⟩ := hx
  obtain ⟨negative', m', hy⟩ := hy
  rw [literal_eq hx, literal_eq hy] at h
  obtain ⟨q, htext, -⟩ := says_write (normal_of_decode hx)
  obtain ⟨q', htext', -⟩ := says_write (normal_of_decode hy)
  obtain ⟨rfl, hwrite⟩ := signed_inj htext htext' h
  obtain rfl := write_inj (normal_of_decode hx) (normal_of_decode hy) hwrite
  exact decode_inj hx hy

end Lox.Number
