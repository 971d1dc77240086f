import Mathlib.Data.List.TakeWhile
import Mathlib.Data.Nat.Digits.Defs
import Mathlib.Data.Rat.Cast.Order
import Mathlib.Tactic.FieldSimp
import Mathlib.Tactic.Positivity
import Mathlib.Tactic.Ring
import SsaCompiler.Proofs.Printing.Escapes

/-!
Float constants in IR text can be read back. A finite number is written as a decimal numeral that is
read as the same number, bit for bit, and any other one as its bit pattern. What a decimal is read as
depends on its value alone, so neither the place of its point nor zeros at its end matter.
-/
namespace SsaCompiler

open Number (digitsValue)

namespace Decimal

section Nearest

variable {num den num' den' c m : Nat} {d d' : Decimal}

theorem roundHalfEven_mul (num den : Nat) (hc : 0 < c) :
    roundHalfEven (c * num) (c * den) = roundHalfEven num den := by
  unfold roundHalfEven
  simp only [Nat.mul_div_mul_left _ _ hc, Nat.mul_mod_mul_left, Nat.mul_left_comm 2 c,
    Nat.mul_lt_mul_left hc]

theorem magnitudeOfRatio_mul (num den : Nat) (hc : 0 < c) :
    magnitudeOfRatio (c * num) (c * den) = magnitudeOfRatio num den := by
  unfold magnitudeOfRatio
  simp only [Nat.shiftLeft_eq, Nat.mul_assoc, Nat.mul_div_mul_left _ _ hc, roundHalfEven_mul _ _ hc]

/-- Equal ratios are rounded in the same way. -/
theorem magnitudeOfRatio_congr (hden : 0 < den) (hden' : 0 < den')
    (h : num * den' = num' * den) : magnitudeOfRatio num den = magnitudeOfRatio num' den' := by
  rw [← magnitudeOfRatio_mul num den hden', ← magnitudeOfRatio_mul num' den' hden, mul_comm den' num,
    h, mul_comm num', mul_comm den']

theorem magnitudeOfRatio_large (hden : 0 < den) (h : 10 ^ 400 * den ≤ num) :
    magnitudeOfRatio num den = Double.infinityMagnitude := by
  have hq : 2 ^ 2099 ≤ num <<< 1074 / den := by
    rw [Nat.le_div_iff_mul_le hden, Nat.shiftLeft_eq]
    calc 2 ^ 2099 * den ≤ 10 ^ 400 * 2 ^ 1074 * den := Nat.mul_le_mul_right _ (by decide +kernel)
      _ = 10 ^ 400 * den * 2 ^ 1074 := Nat.mul_right_comm ..
      _ ≤ num * 2 ^ 1074 := Nat.mul_le_mul_right _ h
  have hcut := (Nat.le_log2 ((Nat.two_pow_pos _).trans_le hq).ne').mpr hq
  unfold magnitudeOfRatio Double.infinityMagnitude
  simp only [Nat.shiftLeft_eq _ 52]
  omega

theorem magnitudeOfRatio_small (h : num * 10 ^ 400 < den) : magnitudeOfRatio num den = 0 := by
  have hn : 2 * num <<< 1074 < den := by
    rw [Nat.shiftLeft_eq]
    calc 2 * (num * 2 ^ 1074) = num * (2 * 2 ^ 1074) := Nat.mul_left_comm ..
      _ ≤ num * 10 ^ 400 := Nat.mul_le_mul_left _ (by decide +kernel)
      _ < den := h
  have hlt : num <<< 1074 < den := by omega
  unfold magnitudeOfRatio roundHalfEven
  simp [Nat.div_eq_of_lt hlt, Nat.mod_eq_of_lt hlt, hn]

/-- The outer cases of `magnitude` do not change what is computed. -/
theorem magnitude_eq (d : Decimal) : d.magnitude =
    magnitudeOfRatio (d.digits * 10 ^ d.exponent.toNat) (10 ^ (-d.exponent).toNat) := by
  have hpos : 0 < 10 ^ (-d.exponent).toNat := by positivity
  unfold magnitude
  split_ifs with hzero hlarge hsmall
  · rw [hzero, Nat.zero_mul, magnitudeOfRatio_small (by rwa [Nat.zero_mul])]
  · refine (magnitudeOfRatio_large hpos ?_).symm
    have hden : 10 ^ (-d.exponent).toNat = 1 := by
      rw [show (-d.exponent).toNat = 0 by omega, pow_zero]
    calc 10 ^ 400 * 10 ^ (-d.exponent).toNat ≤ 10 ^ d.exponent.toNat := by
          have hle : 400 ≤ d.exponent.toNat := by omega
          generalize 400 = k at hle ⊢
          simp only [hden, mul_one]
          exact Nat.pow_le_pow_right (by decide) hle
      _ ≤ d.digits * 10 ^ d.exponent.toNat :=
          Nat.le_mul_of_pos_left _ (Nat.pos_of_ne_zero hzero)
  · refine (magnitudeOfRatio_small ?_).symm
    rw [show d.exponent.toNat = 0 by omega, pow_zero, mul_one]
    calc d.digits * 10 ^ 400 < 2 ^ (d.digits.log2 + 1) * 10 ^ 400 :=
          Nat.mul_lt_mul_of_pos_right Nat.lt_log2_self (by positivity)
      _ ≤ 10 ^ (d.digits.log2 + 1) * 10 ^ 400 :=
          Nat.mul_le_mul_right _ (Nat.pow_le_pow_left (by decide) _)
      _ ≤ 10 ^ (-d.exponent).toNat := by
          rw [← pow_add]
          exact Nat.pow_le_pow_right (by decide) (by omega)
  · obtain ⟨n, e | e⟩ := d
    · simp
    · simp [Int.neg_negSucc]

def value (d : Decimal) : ℚ := d.digits * 10 ^ d.exponent

/-- Decimals of the same value are read as the same number. -/
theorem magnitude_congr (h : d.value = d'.value) : d.magnitude = d'.magnitude := by
  have hratio : ∀ d : Decimal, d.value =
      (d.digits * 10 ^ d.exponent.toNat : ℕ) / (10 ^ (-d.exponent).toNat : ℕ) := by
    rintro ⟨n, e | e⟩
    · simp [value]
    · simp [value, div_eq_mul_inv, zpow_negSucc]
  rw [magnitude_eq, magnitude_eq]
  refine magnitudeOfRatio_congr (by positivity) (by positivity) ?_
  rw [hratio, hratio, div_eq_div_iff (by positivity) (by positivity)] at h
  exact_mod_cast h

theorem roundHalfEven_mul_self (n : Nat) (hc : 0 < c) : roundHalfEven (n * c) c = n := by
  have h := roundHalfEven_mul n 1 hc
  simpa [roundHalfEven, Nat.mul_comm, Nat.mod_one] using h

/-- A number is cut at its own exponent. -/
theorem log2_mantissa (m : Nat) :
    (mantissa m * 2 ^ binaryExponent m).log2 - 52 = binaryExponent m := by
  unfold mantissa binaryExponent
  rw [Nat.shiftRight_eq_div_pow]
  split_ifs with hsmall
  · rw [show m / 2 ^ 52 - 1 = 0 by omega, pow_zero, mul_one]
    by_cases hzero : m = 0
    · simp [hzero]
    · have hlog : m.log2 < 52 := (Nat.log2_lt hzero).mpr hsmall
      omega
  · generalize m / 2 ^ 52 - 1 = e
    have hlow : 2 ^ (52 + e) ≤ (m % 1 <<< 52 + 1 <<< 52) * 2 ^ e := by
      rw [pow_add]
      exact Nat.mul_le_mul_right _ (Nat.le_add_left _ _)
    have hhigh : (m % 1 <<< 52 + 1 <<< 52) * 2 ^ e < 2 ^ (53 + e) := by
      rw [pow_add]
      exact Nat.mul_lt_mul_of_pos_right (Nat.add_lt_add_right (Nat.mod_lt m (by decide)) _)
        (Nat.two_pow_pos e)
    have hne := (Nat.two_pow_pos _).trans_le hlow |>.ne'
    have := (Nat.le_log2 hne).mpr hlow
    have := (Nat.log2_lt hne).mpr hhigh
    omega

/-- The exact value of a finite number is read as this number. -/
theorem magnitudeOfRatio_exact (h : m < Double.infinityMagnitude) :
    magnitudeOfRatio (mantissa m * 2 ^ binaryExponent m) (2 ^ 1074) = m := by
  have hparts : binaryExponent m * 2 ^ 52 + mantissa m = m := by
    unfold mantissa binaryExponent
    rw [Nat.shiftRight_eq_div_pow, Nat.shiftLeft_eq, one_mul]
    split_ifs with hsmall <;> omega
  have hpos := Nat.two_pow_pos (binaryExponent m)
  unfold magnitudeOfRatio
  generalize 1074 = k
  simp only [Nat.shiftLeft_eq, Nat.mul_div_cancel _ (Nat.two_pow_pos k), log2_mantissa]
  rw [Nat.mul_assoc, Nat.mul_comm (2 ^ k), roundHalfEven_mul_self _ (by positivity), hparts]
  exact min_eq_left h.le

theorem magnitude_fives (n k : Nat) :
    magnitude ⟨n * Nat.pow 5 k, -k⟩ = magnitudeOfRatio n (2 ^ k) := by
  rw [magnitude_eq]
  refine magnitudeOfRatio_congr (by positivity) (by positivity) ?_
  simp [mul_assoc, ← mul_pow]

theorem magnitude_atPlace {place : Int} (h : atPlace m num den place = some d) :
    d.magnitude = m := by
  unfold atPlace at h
  dsimp only at h
  split_ifs at h <;> cases h
  all_goals simp_all

/-- The shortest decimal of a finite number is read as this number. -/
theorem magnitude_shortest (h : m < Double.infinityMagnitude) : (shortest m).magnitude = m := by
  unfold shortest
  dsimp only
  cases hfound : (List.range 17).findSome? _ with
  | some d =>
    obtain ⟨_, _, hplace⟩ := List.exists_of_findSome?_eq_some hfound
    exact magnitude_atPlace hplace
  | none =>
    rw [Option.getD_none, Nat.shiftLeft_eq]
    have hfives := magnitude_fives (mantissa m * 2 ^ binaryExponent m) 1074
    exact hfives.trans (magnitudeOfRatio_exact h)

end Nearest

/-- A numeral has digits, and it may have a point with digits behind it and an exponent. -/
structure Numeral where
  whole : List Char
  fraction : Option (List Char)
  exponent : Option Int
  whole_ne : whole ≠ []
  fraction_ne : fraction ≠ some []
  isDigit : ∀ c ∈ whole ++ fraction.getD [], c.isDigit = true

namespace Numeral

def exponentText (n : Numeral) : List Char := n.exponent.elim [] fun e => 'e' :: (toString e).toList

def text (n : Numeral) : List Char := n.whole ++ (n.fraction.elim [] ('.' :: ·) ++ n.exponentText)

def decimal (n : Numeral) : Decimal :=
  ⟨digitsValue (n.whole ++ n.fraction.getD []), n.exponent.getD 0 - (n.fraction.getD []).length⟩

def signText (negative : Bool) : List Char := if negative then ['-'] else []

theorem toList_toString (e : Int) :
    (toString e).toList = signText (e < 0) ++ Nat.toDigits 10 e.natAbs := by
  cases e with
  | ofNat n => exact Text.toList_toString n
  | negSucc n =>
    rw [show toString (Int.negSucc n) = "-" ++ toString (n + 1) from rfl, String.toList_append,
      Text.toList_toString]
    simp [signText]

theorem readExponent?_toString (e : Int) :
    Number.readExponent? ('e' :: (toString e).toList) = some e := by
  have hplain (n : Nat) : Number.splitSign (Nat.toDigits 10 n) = (false, Nat.toDigits 10 n) :=
    Number.splitSign_of_number fun c hc => .inr (Number.isDigit_toDigits n c hc)
  rw [toList_toString]
  by_cases he : e < 0
  · simp [Number.readExponent?, signText, he, Number.splitSign, Number.readNat?_toDigits,
      abs_of_neg he]
  · simp [Number.readExponent?, signText, he, hplain, Number.readNat?_toDigits]
    omega

theorem readExponent?_exponentText (n : Numeral) :
    Number.readExponent? n.exponentText = some (n.exponent.getD 0) := by
  unfold exponentText
  cases n.exponent with
  | none => rfl
  | some e => exact readExponent?_toString e

/-- An exponent starts with its letter. -/
theorem exponentText_cases (n : Numeral) : n.exponentText = [] ∨ ∃ cs, n.exponentText = 'e' :: cs := by
  unfold exponentText
  cases n.exponent with
  | none => exact .inl rfl
  | some e => exact .inr ⟨_, rfl⟩

theorem readDecimal?_text (n : Numeral) : Number.readDecimal? n.text = some n.decimal := by
  have hread := n.readExponent?_exponentText
  have hcases := n.exponentText_cases
  unfold text decimal
  generalize n.exponentText = cs at hread hcases ⊢
  obtain ⟨whole, fraction, exponent, hwhole, hfraction, hdigit⟩ := n
  have hw : ∀ c ∈ whole, c.isDigit = true := fun c hc => hdigit c (List.mem_append_left _ hc)
  unfold Number.readDecimal?
  dsimp only
  rw [List.takeWhile_append_of_pos hw, List.dropWhile_append_of_pos hw]
  cases fraction with
  | none => rcases hcases with rfl | ⟨cs, rfl⟩ <;> simp [hwhole, hread]
  | some f =>
    have hf : ∀ c ∈ f, c.isDigit = true := fun c hc => hdigit c (List.mem_append_right _ hc)
    rcases hcases with rfl | ⟨cs, rfl⟩ <;>
      simp [hwhole, List.takeWhile_append_of_pos hf, List.dropWhile_append_of_pos hf,
        List.takeWhile_eq_self_iff.mpr hf, List.dropWhile_eq_nil_iff.mpr hf, hread]

/-- A numeral is read as the number nearest to its value. -/
theorem readFloat?_text (n : Numeral) (negative : Bool) :
    Number.readFloat? (signText negative ++ n.text) =
      some (.ofMagnitude negative n.decimal.magnitude) := by
  have hsign : Number.splitSign (signText negative ++ n.text) = (negative, n.text) := by
    cases negative with
    | true => rfl
    | false =>
      obtain ⟨c, cs, hcs⟩ := List.exists_cons_of_ne_nil n.whole_ne
      have hc : c.isDigit = true := n.isDigit c (by simp [hcs])
      have hne : c ≠ '-' ∧ c ≠ '+' := by constructor <;> rintro rfl <;> cases hc
      simp [signText, text, hcs, Number.splitSign, hne]
  unfold Number.readFloat?
  rw [hsign]
  dsimp only
  rw [readDecimal?_text]

theorem text_ne_hexadecimal (n : Numeral) (cs : List Char) : n.text ≠ '0' :: 'x' :: cs := by
  intro h
  rcases hw : n.whole with _ | ⟨c, _ | ⟨c', ws⟩⟩
  · exact n.whole_ne hw
  · have hcases := n.exponentText_cases
    cases hf : n.fraction with
    | none => rcases hcases with he | ⟨es, he⟩ <;> simp [text, hw, hf, he] at h
    | some f => simp [text, hw, hf] at h
  · have hdigit : c'.isDigit = true := n.isDigit c' (by simp [hw])
    simp only [text, hw, List.cons_append, List.cons.injEq] at h
    rw [h.2.1] at hdigit
    cases hdigit

/-- A zero behind a point in the place of a fraction that is left out. -/
def withPoint (n : Numeral) : Numeral where
  whole := n.whole
  fraction := some (n.fraction.getD ['0'])
  exponent := n.exponent
  whole_ne := n.whole_ne
  fraction_ne := by
    have hne := n.fraction_ne
    cases hn : n.fraction <;> simp_all
  isDigit c hc := by
    have hdigit := n.isDigit c
    cases hn : n.fraction with
    | none =>
      rcases List.mem_append.mp hc with hc | hc
      · exact hdigit (List.mem_append_left _ hc)
      · rw [hn] at hc
        rw [List.mem_singleton.mp hc]
        rfl
    | some f => exact hdigit (by simpa [hn] using hc)

theorem not_mem_exponentText (n : Numeral) : '.' ∉ n.exponentText := by
  unfold exponentText
  cases n.exponent with
  | none => simp
  | some e =>
    rw [Option.elim_some, toList_toString, List.mem_cons, List.mem_append]
    rintro (hc | hc | hc)
    · exact absurd hc (by decide)
    · unfold signText at hc
      split at hc <;> simp at hc
    · exact absurd (Number.isDigit_toDigits _ _ hc) (by decide)

/-- The cases that a text is split into, by its point and by the letter of its exponent, are those of
the numeral. -/
theorem pointed_text (n : Numeral) (negative : Bool) :
    Ir.pointed (signText negative ++ n.text) = signText negative ++ n.withPoint.text := by
  cases hn : n.fraction with
  | some f =>
    have hsame : n.withPoint.text = n.text := by simp [text, withPoint, exponentText, hn]
    rw [hsame, Ir.pointed, if_pos (by simp [text, hn])]
  | none =>
    have htext : n.text = n.whole ++ n.exponentText := by simp [text, hn]
    have hfront : ∀ c ∈ signText negative ++ n.whole, c ≠ '.' ∧ c ≠ 'e' := by
      intro c hc
      rcases List.mem_append.mp hc with hc | hc
      · cases negative with
        | true => simp [List.mem_singleton.mp hc]
        | false => cases hc
      · have hdigit := n.isDigit c (List.mem_append_left _ hc)
        constructor <;> rintro rfl <;> cases hdigit
    have hnone : '.' ∉ signText negative ++ n.text := by
      rw [htext, ← List.append_assoc, List.mem_append]
      rintro (hc | hc)
      · exact (hfront _ hc).1 rfl
      · exact n.not_mem_exponentText hc
    have hpos : ∀ c ∈ signText negative ++ n.whole, decide (c ≠ 'e') = true :=
      fun c hc => decide_eq_true (hfront c hc).2
    have hpointed : n.withPoint.text = n.whole ++ '.' :: '0' :: n.exponentText := by
      simp [text, withPoint, exponentText, hn]
    rw [Ir.pointed, if_neg hnone, htext, hpointed, ← List.append_assoc, ← List.append_assoc,
      List.takeWhile_append_of_pos hpos, List.dropWhile_append_of_pos hpos]
    rcases n.exponentText_cases with he | ⟨cs, he⟩ <;> simp [he]

end Numeral

section Layout

variable {ds : List Char}

theorem digitsValue_append (ds es : List Char) :
    digitsValue (ds ++ es) = digitsValue ds * 10 ^ es.length + digitsValue es := by
  have hfold : ∀ n, es.foldl (fun n d => 10 * n + (d.toNat - '0'.toNat)) n =
      n * 10 ^ es.length + digitsValue es := by
    unfold digitsValue
    induction es with
    | nil => simp
    | cons d es ih =>
      intro n
      rw [List.foldl_cons, List.foldl_cons, ih, ih (10 * 0 + _), List.length_cons, pow_succ]
      ring
  rw [digitsValue, List.foldl_append, hfold]
  rfl

theorem digitsValue_zeros (k : Nat) : digitsValue (List.replicate k '0') = 0 := by
  induction k with
  | zero => rfl
  | succ k ih =>
    rw [List.replicate_succ, ← List.singleton_append, digitsValue_append, ih]
    simp [digitsValue]

/-- The zero that is put behind a point does not change the value. -/
theorem Numeral.value_withPoint (n : Numeral) : n.withPoint.decimal.value = n.decimal.value := by
  cases hn : n.fraction with
  | some f => simp [decimal, withPoint, hn]
  | none =>
    have hten : (10 : ℚ) ≠ 0 := by norm_num
    have hzero : digitsValue ['0'] = 0 := rfl
    simp [value, decimal, withPoint, hn, digitsValue_append, hzero, zpow_sub₀ hten]
    field_simp

/-- A text is read as the same number with and without its point. -/
theorem Numeral.readFloat?_pointed (n : Numeral) (negative : Bool) :
    Number.readFloat? (Ir.pointed (signText negative ++ n.text)) =
      Number.readFloat? (signText negative ++ n.text) := by
  rw [pointed_text, readFloat?_text, readFloat?_text, magnitude_congr n.value_withPoint]

/-- Zeros on both sides of digits do not change their value, if the exponent makes up for those
behind them. -/
theorem exists_numeral (hds : ∀ c ∈ ds, c.isDigit = true) {cs : List Char} {place : Int}
    (whole : List Char) (fraction : Option (List Char)) (exponent : Option Int) (j k : Nat)
    (hwhole : whole ≠ []) (hfraction : fraction ≠ some [])
    (htext : cs = whole ++ (fraction.elim [] ('.' :: ·) ++
      exponent.elim [] fun e => 'e' :: (toString e).toList))
    (hdigits : whole ++ fraction.getD [] = List.replicate j '0' ++ (ds ++ List.replicate k '0'))
    (hplace : exponent.getD 0 - (fraction.getD []).length + k = place) :
    ∃ n : Numeral, cs = n.text ∧ n.decimal.value = digitsValue ds * 10 ^ place := by
  have hzero : ∀ i, ∀ c ∈ List.replicate i '0', c.isDigit = true :=
    fun i c hc => List.eq_of_mem_replicate hc ▸ rfl
  refine ⟨⟨whole, fraction, exponent, hwhole, hfraction, ?_⟩, htext, ?_⟩
  · rw [hdigits]
    grind
  · have hten : (10 : ℚ) ≠ 0 := by norm_num
    simp [value, Numeral.decimal, hdigits, digitsValue_append, digitsValue_zeros, ← hplace,
      zpow_add₀ hten]
    ring

/-- A layout is a numeral in which the first digit stands for `10 ^ e`. -/
theorem exists_numeral_layout (style : NumeralStyle) (hds : ∀ c ∈ ds, c.isDigit = true) (hne : ds ≠ [])
    (e : Int) : ∃ n : Numeral, style.layout ds e = n.text ∧
      n.decimal.value = digitsValue ds * 10 ^ (e + 1 - ds.length) := by
  have hlen := List.length_pos_of_ne_nil hne
  unfold NumeralStyle.layout
  split
  · cases e with
    | ofNat e =>
      dsimp only [positional]
      split_ifs with hshort
      · refine exists_numeral hds (ds ++ List.replicate (e + 1 - ds.length) '0') (some ['0']) none 0
          (e + 1 - ds.length + 1) ?_ ?_ ?_ ?_ ?_
        all_goals simp [hne, List.take_of_length_le hshort, List.replicate_succ']
        omega
      · refine exists_numeral hds (ds.take (e + 1)) (some (ds.drop (e + 1))) none 0 0 ?_ ?_ ?_ ?_ ?_
        all_goals simp [hne, show e + 1 - ds.length = 0 by omega]
        all_goals omega
    | negSucc e =>
      refine exists_numeral hds ['0'] (some (List.replicate e '0' ++ ds)) none (e + 1) 0 ?_ ?_ ?_ ?_ ?_
      all_goals simp [hne, List.replicate_succ]
      omega
  · cases ds with
    | nil => exact absurd rfl hne
    | cons d rest =>
      cases rest with
      | nil =>
        refine exists_numeral hds [d] none (some e) 0 0 ?_ ?_ ?_ ?_ ?_
        all_goals simp
      | cons d' rest =>
        refine exists_numeral hds [d] (some (d' :: rest)) (some e) 0 0 ?_ ?_ ?_ ?_ ?_
        all_goals simp

theorem exists_trimZeros (ds : List Char) : ∃ k, ds = trimZeros ds ++ List.replicate k '0' := by
  refine ⟨(ds.reverse.takeWhile (· = '0')).length, ?_⟩
  have hzeros : ds.reverse.takeWhile (· = '0') =
      List.replicate (ds.reverse.takeWhile (· = '0')).length '0' :=
    List.eq_replicate_of_mem fun c hc => by simpa using List.mem_takeWhile_imp hc
  rw [trimZeros, ← List.reverse_replicate, ← hzeros, ← List.reverse_append,
    List.takeWhile_append_dropWhile, List.reverse_reverse]

/-- The text of a finite number is a numeral that is read as this number. -/
theorem exists_numeral_text {x : Double} (hx : x.isFinite = true) : ∃ n : Numeral,
    (text x).toList = Numeral.signText x.isNegative ++ n.text ∧ n.decimal.magnitude = x.magnitude := by
  have hfinite : x.magnitude < Double.infinityMagnitude := of_decide_eq_true hx
  have hnumber : x.isNaN = false := decide_eq_false hfinite.not_gt
  rw [text, hnumber, hx, if_neg (by simp), if_pos rfl, String.toList_ofList]
  unfold NumeralStyle.finite
  dsimp only
  by_cases hzero : x.magnitude = 0
  · rw [if_pos hzero, hzero]
    exact ⟨⟨['0'], some ['0'], none, by simp, by simp, by simp⟩, rfl, if_pos rfl⟩
  · rw [if_neg hzero]
    have hread := magnitude_shortest hfinite
    have hdigits : (shortest x.magnitude).digits ≠ 0 := fun h => hzero (hread.symm.trans (if_pos h))
    generalize shortest x.magnitude = d at hread hdigits ⊢
    have hvalue := Number.digitsValue_toDigits d.digits
    have hdigit := Number.isDigit_toDigits d.digits
    obtain ⟨k, hk⟩ := exists_trimZeros (Nat.toDigits 10 d.digits)
    generalize Nat.toDigits 10 d.digits = ds at hvalue hdigit hk ⊢
    generalize trimZeros ds = ts at hk ⊢
    subst hk
    rw [digitsValue_append, digitsValue_zeros, List.length_replicate, add_zero] at hvalue
    have hne : ts ≠ [] := by
      rintro rfl
      exact hdigits (hvalue.symm.trans (Nat.zero_mul _))
    obtain ⟨n, htext, hn⟩ := exists_numeral_layout plainStyle
      (fun c hc => hdigit c (List.mem_append_left _ hc)) hne
      (d.exponent + (ts ++ List.replicate k '0').length - 1)
    refine ⟨n, by rw [htext, Numeral.signText], (magnitude_congr ?_).trans hread⟩
    have hplace : d.exponent + (ts ++ List.replicate k '0').length - 1 + 1 - ts.length =
        d.exponent + k := by
      simp
      omega
    rw [hn, hplace, value, ← hvalue, zpow_add₀ (by norm_num), zpow_natCast]
    push_cast
    ring

end Layout

end Decimal

namespace Ir

/-- Digits shifted out of a number make up what is shifted out of it. -/
theorem ofDigits_shiftRight (n k : Nat) :
    Nat.ofDigits 16 ((List.range k).map fun i => n >>> (4 * i) % 16) = n % 16 ^ k := by
  induction k with
  | zero => simp [Nat.mod_one]
  | succ k ih =>
    rw [List.range_succ, List.map_append, Nat.ofDigits_append, ih, List.length_map, List.length_range,
      pow_succ, Nat.mod_mul]
    simp [Nat.shiftRight_eq_div_pow, pow_mul]

/-- The digits of a bit pattern, the highest one first. -/
def nibbles (x : Double) : List Nat :=
  (List.range 16).map fun i => x.bits.toNat >>> (4 * (15 - i)) % 16

theorem bitPattern_eq (x : Double) : bitPattern x = (nibbles x).map Text.hexDigit := by
  simp [bitPattern, nibbles, Function.comp_def]

theorem ofDigits_nibbles (x : Double) : Nat.ofDigits 16 (nibbles x).reverse = x.bits.toNat := by
  have hlt := x.bits.toNat_lt
  have hreverse : (nibbles x).reverse = (List.range 16).map fun i => x.bits.toNat >>> (4 * i) % 16 :=
    rfl
  rw [hreverse, ofDigits_shiftRight, Nat.mod_eq_of_lt (by omega)]

/-- Bit patterns tell numbers apart. -/
theorem bitPattern_injective : Function.Injective bitPattern := by
  intro x y h
  have hread : ∀ x, (bitPattern x).map Text.hexValue? = (nibbles x).map some := by
    intro x
    rw [bitPattern_eq, List.map_map]
    refine List.map_congr_left fun d hd => Text.hexValue?_hexDigit d ?_
    obtain ⟨_, _, rfl⟩ := List.mem_map.mp hd
    exact Nat.mod_lt _ (by decide)
  have hmap : (nibbles x).map some = (nibbles y).map some := by rw [← hread, ← hread, h]
  have hbits : x.bits.toNat = y.bits.toNat := by
    rw [← ofDigits_nibbles, ← ofDigits_nibbles,
      List.map_injective_iff.mpr (Option.some_injective _) hmap]
  exact congrArg Double.mk (UInt64.toNat_inj.mp hbits)

theorem ofMagnitude_self (x : Double) : Double.ofMagnitude x.isNegative x.magnitude = x := by
  obtain ⟨bits⟩ := x
  have hlt := bits.toNat_lt
  have hsum : bits.toNat % 2 ^ 63 + (if 2 ^ 63 ≤ bits.toNat then 2 ^ 63 else 0) = bits.toNat := by
    split <;> omega
  simp only [Double.ofMagnitude, Double.magnitude, Double.isNegative, decide_eq_true_eq,
    Nat.shiftLeft_eq, one_mul]
  rw [hsum, UInt64.ofNat_toNat]

theorem exists_numeral_floatLiteral {x : Double} (hx : x.isFinite = true) :
    ∃ n : Decimal.Numeral, n.fraction.isSome ∧
      (floatLiteral x).toList = Decimal.Numeral.signText x.isNegative ++ n.text ∧
      Number.readFloat? (floatLiteral x).toList = some x := by
  obtain ⟨n, htext, hmagnitude⟩ := Decimal.exists_numeral_text hx
  have hlist : (floatLiteral x).toList =
      pointed (Decimal.Numeral.signText x.isNegative ++ n.text) := by
    rw [floatLiteral, if_pos hx, String.toList_ofList, htext]
  refine ⟨n.withPoint, rfl, hlist.trans (n.pointed_text _), ?_⟩
  rw [hlist, n.readFloat?_pointed, n.readFloat?_text, hmagnitude, ofMagnitude_self]

theorem toList_floatLiteral {x : Double} (hx : x.isFinite = false) :
    (floatLiteral x).toList = '0' :: 'x' :: bitPattern x := by
  simp [floatLiteral, hx]

theorem floatLiteral_ne {x y : Double} (hx : x.isFinite = true) (hy : y.isFinite = false) :
    floatLiteral x ≠ floatLiteral y := by
  intro h
  obtain ⟨n, _, htext, _⟩ := exists_numeral_floatLiteral hx
  rw [h, toList_floatLiteral hy, Decimal.Numeral.signText] at htext
  split at htext
  · cases htext
  · exact n.text_ne_hexadecimal _ htext.symm

/-- Float constants are exact. Putting a point into a numeral, with or without an exponent, gives a numeral
with a point that is read as the same number. So finite numbers are numerals with a point that are read as
these numbers. Others are the hexadecimal digits of their bits, and no two numbers have the same text. -/
theorem floatLiteral_exact (x : Double) :
    (∀ (n : Decimal.Numeral) (negative : Bool), ∃ n' : Decimal.Numeral, n'.fraction.isSome ∧
      pointed (Decimal.Numeral.signText negative ++ n.text) =
        Decimal.Numeral.signText negative ++ n'.text ∧
      Number.readFloat? (pointed (Decimal.Numeral.signText negative ++ n.text)) =
        Number.readFloat? (Decimal.Numeral.signText negative ++ n.text)) ∧
    (x.isFinite = true → ∃ n : Decimal.Numeral, n.fraction.isSome ∧
      (floatLiteral x).toList = Decimal.Numeral.signText x.isNegative ++ n.text ∧
      Number.readFloat? (floatLiteral x).toList = some x) ∧
    (x.isFinite = false → ∃ ds : List Nat, ds.length = 16 ∧
      (floatLiteral x).toList = '0' :: 'x' :: ds.map Text.hexDigit ∧
      Nat.ofDigits 16 ds.reverse = x.bits.toNat) ∧
    ∀ y, floatLiteral x = floatLiteral y → x = y := by
  refine ⟨fun n negative => ⟨n.withPoint, rfl, n.pointed_text negative, n.readFloat?_pointed negative⟩,
    exists_numeral_floatLiteral, fun hx => ⟨nibbles x, rfl, ?_, ofDigits_nibbles x⟩, ?_⟩
  · rw [toList_floatLiteral hx, bitPattern_eq]
  intro y h
  cases hx : x.isFinite <;> cases hy : y.isFinite
  · refine bitPattern_injective ?_
    have hlist := congrArg String.toList h
    rw [toList_floatLiteral hx, toList_floatLiteral hy] at hlist
    simpa using hlist
  · exact absurd h.symm (floatLiteral_ne hy hx)
  · exact absurd h (floatLiteral_ne hx hy)
  · obtain ⟨_, _, _, hx⟩ := exists_numeral_floatLiteral hx
    obtain ⟨_, _, _, hy⟩ := exists_numeral_floatLiteral hy
    rw [h] at hx
    exact Option.some.inj (hx.symm.trans hy)

end Ir

end SsaCompiler
