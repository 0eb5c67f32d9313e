import Midend.Double
import Midend.Proofs.Decimal.Writing

/-! # Written doubles

The text of a double gives its bits back, unless it is the text of all NaNs.
-/

namespace Midend.Double

open Decimal

variable {d e : Double}

/-! ## Fields -/

theorem biased_eq (d : Double) : d.biased = d.bits.toNat / 2 ^ 52 % 2 ^ 11 := by
  rw [biased, UInt64.toNat_and, UInt64.toNat_shiftRight, Nat.shiftRight_eq_div_pow]
  exact Nat.and_two_pow_sub_one_eq_mod _ 11

theorem fraction_eq (d : Double) : d.fraction = d.bits.toNat % 2 ^ 52 := by
  rw [fraction, UInt64.toNat_and]
  exact Nat.and_two_pow_sub_one_eq_mod _ 52

theorem negative_iff (d : Double) : d.negative = true ↔ d.bits.toNat / 2 ^ 63 = 1 := by
  rw [negative, beq_iff_eq, ← UInt64.toNat_inj, UInt64.toNat_shiftRight, Nat.shiftRight_eq_div_pow]
  rfl

theorem biased_lt (d : Double) : d.biased < 2 ^ 11 := by
  rw [biased_eq]
  exact Nat.mod_lt _ (by decide)

theorem fraction_lt (d : Double) : d.fraction < 2 ^ 52 := by
  rw [fraction_eq]
  exact Nat.mod_lt _ (by decide)

theorem eq_of_fields (hnegative : d.negative = e.negative) (hbiased : d.biased = e.biased)
    (hfraction : d.fraction = e.fraction) : d = e := by
  have hsign : d.bits.toNat / 2 ^ 63 = 1 ↔ e.bits.toNat / 2 ^ 63 = 1 := by
    rw [← negative_iff, ← negative_iff, hnegative]
  rw [biased_eq, biased_eq] at hbiased
  rw [fraction_eq, fraction_eq] at hfraction
  have hd := d.bits.toNat_lt
  have he := e.bits.toNat_lt
  have hbits : d.bits = e.bits := UInt64.toNat_inj.mp (by omega)
  cases d
  cases e
  exact congrArg Double.mk hbits

/-! ## Magnitudes -/

theorem normal_magnitude (hfinite : d.biased ≠ 0x7ff) (hpos : d.magnitude.mantissa ≠ 0) : d.magnitude.Normal := by
  have hbiased := d.biased_lt
  have hfraction := d.fraction_lt
  unfold magnitude at *
  split at *
  case isTrue => constructor <;> simp_all <;> omega
  case isFalse hnormal =>
    constructor <;> simp_all [hiddenBit] <;> omega

theorem fields_of_magnitude_eq (h : d.magnitude = e.magnitude) : d.biased = e.biased ∧ d.fraction = e.fraction := by
  have hd := d.fraction_lt
  have he := e.fraction_lt
  unfold magnitude hiddenBit at h
  split at h <;> split at h <;> simp only [Binary.mk.injEq] at h <;> omega

/-! ## Texts -/

def body (d : Double) : String :=
  if d.isInfinite then "inf"
  else if d.magnitude.mantissa = 0 then "0.0"
  else style.write d.magnitude.shortest.significant.1 d.magnitude.shortest.significant.2

/-- The decimal that is written for a finite double, without its sign. -/
def decimal (d : Double) : ℚ := if d.magnitude.mantissa = 0 then 0 else d.magnitude.shortest.toRat

theorem text_of_isNaN (h : d.isNaN = true) : d.text = "NaN" := if_pos h

theorem text_of_not_isNaN (h : d.isNaN = false) :
    d.text.toList = (if d.negative then ['-'] else []) ++ d.body.toList := by
  unfold text body
  simp only [h, Bool.false_eq_true, if_false]
  split
  · split <;> simp
  · split <;> split <;> simp

theorem isInfinite_iff : d.isInfinite = true ↔ d.biased = 0x7ff ∧ d.fraction = 0 := by simp [isInfinite]

theorem finite_of_not (hnan : d.isNaN = false) (hinf : d.isInfinite = false) : d.biased ≠ 0x7ff := by
  intro h
  by_cases hzero : d.fraction = 0
  · simp [isInfinite, h, hzero] at hinf
  · simp [isNaN, h, hzero] at hnan

theorem decimal_pos (hfinite : d.biased ≠ 0x7ff) (hpos : d.magnitude.mantissa ≠ 0) : 0 < d.decimal := by
  have hnormal := normal_magnitude hfinite hpos
  rw [decimal, if_neg hpos]
  exact Binary.takes_pos hnormal (Binary.takes_shortest hnormal)

theorem body_of_finite (hfinite : d.biased ≠ 0x7ff) :
    Spells d.body.toList d.decimal ∧ ∃ c rest, d.body.toList = c :: rest ∧ c.isDigit = true := by
  have hinf : d.isInfinite = false := by simp [isInfinite, hfinite]
  unfold body
  rw [hinf, if_neg (by decide)]
  split
  case isTrue hzero =>
    have hspells : Spells ("0.0".toList) 0 := by
      have hzeros : Decimal.fraction (['0'] ++ ['0']) * 10 ^ ['0'].length = 0 := by
        rw [Decimal.fraction, show Nat.ofDigitChars 10 (['0'] ++ ['0']) 0 = 0 from rfl]
        simp
      exact spells_point (isDigit_of_mem_zeros (n := 1)) (isDigit_of_mem_zeros (n := 1)) hzeros
    rw [decimal, if_pos hzero]
    exact ⟨hspells, '0', _, rfl, rfl⟩
  case isFalse hpos =>
    have hdecimal := decimal_pos hfinite hpos
    rw [decimal, if_neg hpos] at hdecimal ⊢
    have hdigits := isDigit_of_mem_significant d.magnitude.shortest
    have hne := significant_ne_nil hdecimal
    exact ⟨fraction_significant d.magnitude.shortest ▸ spells_write style hdigits hne, head_write style hdigits hne⟩

theorem mantissa_eq_zero_iff : d.magnitude.mantissa = 0 ↔ d.biased = 0 ∧ d.fraction = 0 := by
  unfold magnitude hiddenBit
  split <;> simp [*]

theorem fields_of_decimal_eq (hd : d.biased ≠ 0x7ff) (he : e.biased ≠ 0x7ff) (h : d.decimal = e.decimal) :
    d.biased = e.biased ∧ d.fraction = e.fraction := by
  by_cases hzero : d.magnitude.mantissa = 0
  · by_cases hzero' : e.magnitude.mantissa = 0
    · rw [mantissa_eq_zero_iff] at hzero hzero'
      exact ⟨hzero.1.trans hzero'.1.symm, hzero.2.trans hzero'.2.symm⟩
    · have hpos := decimal_pos he hzero'
      rw [← h, decimal, if_pos hzero] at hpos
      exact absurd hpos (lt_irrefl _)
  · by_cases hzero' : e.magnitude.mantissa = 0
    · have hpos := decimal_pos hd hzero
      rw [h, decimal, if_pos hzero'] at hpos
      exact absurd hpos (lt_irrefl _)
    · rw [decimal, if_neg hzero, decimal, if_neg hzero'] at h
      exact fields_of_magnitude_eq (Binary.eq_of_shortest_eq (normal_magnitude hd hzero) (normal_magnitude he hzero') h)

theorem body_ne_of_infinite (hd : d.isInfinite = true) (he : e.biased ≠ 0x7ff) : d.body ≠ e.body := by
  intro h
  obtain ⟨-, c, rest, hbody, hdigit⟩ := body_of_finite he
  have hinf : d.body = "inf" := by rw [body, if_pos hd]
  rw [← h, hinf] at hbody
  obtain rfl : 'i' = c := (List.cons.inj (show 'i' :: ['n', 'f'] = c :: rest from hbody)).1
  exact absurd hdigit (by decide)

theorem fields_of_body_eq (hd : d.isNaN = false) (he : e.isNaN = false) (h : d.body = e.body) :
    d.biased = e.biased ∧ d.fraction = e.fraction := by
  cases hinf : d.isInfinite with
  | true =>
    cases hinf' : e.isInfinite with
    | true =>
      rw [isInfinite_iff] at hinf hinf'
      exact ⟨hinf.1.trans hinf'.1.symm, hinf.2.trans hinf'.2.symm⟩
    | false => exact absurd h (body_ne_of_infinite hinf (finite_of_not he hinf'))
  | false =>
    cases hinf' : e.isInfinite with
    | true => exact absurd h.symm (body_ne_of_infinite hinf' (finite_of_not hd hinf))
    | false =>
      have hfinite := finite_of_not hd hinf
      have hfinite' := finite_of_not he hinf'
      exact fields_of_decimal_eq hfinite hfinite' ((h ▸ (body_of_finite hfinite).1).unique (body_of_finite hfinite').1)

theorem head_body (hd : d.isNaN = false) : d.body.toList.head? ≠ some '-' ∧ d.body.toList.head? ≠ some 'N' := by
  cases hinf : d.isInfinite with
  | true =>
    rw [body, if_pos hinf]
    exact ⟨by decide, by decide⟩
  | false =>
    obtain ⟨-, c, rest, hbody, hdigit⟩ := body_of_finite (finite_of_not hd hinf)
    rw [hbody, List.head?_cons]
    constructor <;>
    · rintro ⟨rfl⟩
      exact absurd hdigit (by decide)

theorem text_ne_of_isNaN (hd : d.isNaN = true) (he : e.isNaN = false) : d.text ≠ e.text := by
  intro h
  have htext := congrArg List.head? (text_of_not_isNaN he)
  rw [← h, text_of_isNaN hd] at htext
  cases hnegative : e.negative <;> rw [hnegative] at htext
  · exact (head_body he).2 htext.symm
  · exact absurd (Option.some.inj htext) (by decide)

theorem signed_inj {a b : Bool} {as bs : List Char} (has : as.head? ≠ some '-') (hbs : bs.head? ≠ some '-')
    (h : (if a then ['-'] else []) ++ as = (if b then ['-'] else []) ++ bs) : a = b ∧ as = bs := by
  cases a <;> cases b
  · exact ⟨rfl, h⟩
  · exact absurd (by rw [show as = '-' :: bs from h]; rfl) has
  · exact absurd (by rw [show bs = '-' :: as from h.symm]; rfl) hbs
  · exact ⟨rfl, (List.cons.inj h).2⟩

/-- Doubles are written alike if they are the same or if both are NaNs. -/
theorem text_eq_iff : d.text = e.text ↔ d = e ∨ (d.isNaN = true ∧ e.isNaN = true) := by
  constructor
  · intro h
    cases hd : d.isNaN <;> cases he : e.isNaN
    · left
      have htext := congrArg String.toList h
      rw [text_of_not_isNaN hd, text_of_not_isNaN he] at htext
      obtain ⟨hnegative, hbody⟩ := signed_inj (head_body hd).1 (head_body he).1 htext
      obtain ⟨hbiased, hfraction⟩ := fields_of_body_eq hd he (String.toList_inj.mp hbody)
      exact eq_of_fields hnegative hbiased hfraction
    · exact absurd h.symm (text_ne_of_isNaN he hd)
    · exact absurd h (text_ne_of_isNaN hd he)
    · exact .inr ⟨rfl, rfl⟩
  · rintro (rfl | ⟨hd, he⟩)
    · rfl
    · rw [text_of_isNaN hd, text_of_isNaN he]

end Midend.Double
