import Mathlib.Tactic.Ring
import ParamSchema.Number.Binary

/-!
# Rounding to the grid

What rounding to a `BinaryFormat` keeps.

* `roundTo_congr`         only the quotient counts, not how it is written;
* `ofDecimal_eq_roundTo`  the bounds on the size of a decimal cut off nothing: reading a decimal is
                          one rounding of its quotient;
* `indexOf_units`         a point of the grid is its own nearest point;
* `units_indexOf`         a number with few enough binary digits is on the grid;
* `narrow_narrow`         a number of the 32-bit grid survives the way through it.
-/

namespace ParamSchema

/-! ## quotients -/

theorem roundQuotient_mul_right (a b : Nat) {c : Nat} (hc : 0 < c) :
    roundQuotient (a * c) (b * c) = roundQuotient a b := by
  have hq : a * c / (b * c) = a / b := Nat.mul_div_mul_right a b hc
  have hr : a * c % (b * c) = a % b * c := Nat.mul_mod_mul_right c a b
  have hlt : 2 * (a % b * c) < b * c ↔ 2 * (a % b) < b := by
    rw [← Nat.mul_assoc]
    exact Nat.mul_lt_mul_right hc
  have hgt : b * c < 2 * (a % b * c) ↔ b < 2 * (a % b) := by
    rw [← Nat.mul_assoc]
    exact Nat.mul_lt_mul_right hc
  simp only [roundQuotient, hq, hr, hlt, hgt]

theorem roundQuotient_mul_self (a : Nat) {b : Nat} (hb : 0 < b) : roundQuotient (a * b) b = a := by
  have h := roundQuotient_mul_right a 1 hb
  rwa [Nat.one_mul, roundQuotient_one] at h

/-- what is less than half rounds to nothing -/
theorem roundQuotient_eq_zero {a b : Nat} (h : 2 * a < b) : roundQuotient a b = 0 := by
  have hlt : a < b := by omega
  simp only [roundQuotient, Nat.div_eq_of_lt hlt, Nat.mod_eq_of_lt hlt, if_pos h]

namespace BinaryFormat

variable (f : BinaryFormat)

theorem indexOf_mul_right (a b : Nat) {c : Nat} (hc : 0 < c) :
    f.indexOf (a * c) (b * c) = f.indexOf a b := by
  have hq : a * c / (b * c) = a / b := Nat.mul_div_mul_right a b hc
  have hb : ∀ s, b * c * Nat.pow 2 s = b * Nat.pow 2 s * c := fun s => Nat.mul_right_comm b c _
  simp only [indexOf, hq, hb, roundQuotient_mul_right _ _ hc]

theorem roundTo_mul_right (a b : Nat) {c : Nat} (hc : 0 < c) :
    f.roundTo (a * c) (b * c) = f.roundTo a b := by
  rw [roundTo, Nat.mul_right_comm, indexOf_mul_right f _ _ hc, ← roundTo]

/-- equal quotients round to the same index -/
theorem roundTo_congr {a b c d : Nat} (hb : 0 < b) (hd : 0 < d) (h : a * d = c * b) :
    f.roundTo a b = f.roundTo c d := by
  calc f.roundTo a b = f.roundTo (a * d) (b * d) := (roundTo_mul_right f a b hd).symm
    _ = f.roundTo (c * b) (d * b) := by rw [h, Nat.mul_comm b d]
    _ = f.roundTo c d := roundTo_mul_right f c d hb

/-- below the second binade an index is a number of units -/
theorem indexOf_of_div_lt {a b : Nat} (h : a / b < 2 ^ (f.fraction + 1)) :
    f.indexOf a b = min f.top (roundQuotient a b) := by
  have hs : (a / b).log2 - f.fraction = 0 := by
    rcases Nat.eq_zero_or_pos (a / b) with h0 | hpos
    · rw [h0, Nat.log2_zero, Nat.zero_sub]
    · have hlt := (Nat.log2_lt (Nat.ne_of_gt hpos)).2 h
      omega
  simp only [indexOf, hs, Nat.pow_eq, Nat.pow_zero, Nat.zero_mul, Nat.zero_add, Nat.mul_one]

theorem indexOf_eq_zero {a b : Nat} (h : 2 * a < b) : f.indexOf a b = 0 := by
  have hdiv : a / b = 0 := Nat.div_eq_of_lt (by omega)
  have hlt : a / b < 2 ^ (f.fraction + 1) := by
    rw [hdiv]
    exact Nat.two_pow_pos _
  rw [indexOf_of_div_lt f hlt, roundQuotient_eq_zero h, Nat.min_zero]

/-- what is beyond the last binade has the first index off the grid -/
theorem indexOf_eq_top {a : Nat} (hf : 2 ^ f.fraction ∣ f.top)
    (h : 2 ^ (f.top / 2 ^ f.fraction + f.fraction) ≤ a) : f.indexOf a 1 = f.top := by
  have hpos : a ≠ 0 := Nat.ne_of_gt (Nat.lt_of_lt_of_le (Nat.two_pow_pos _) h)
  have hlog := (Nat.le_log2 hpos).2 h
  have hbinades : f.top / 2 ^ f.fraction ≤ a.log2 - f.fraction := by omega
  have htop : f.top ≤ (a.log2 - f.fraction) * 2 ^ f.fraction := by
    calc f.top = f.top / 2 ^ f.fraction * 2 ^ f.fraction := (Nat.div_mul_cancel hf).symm
      _ ≤ (a.log2 - f.fraction) * 2 ^ f.fraction := Nat.mul_le_mul_right _ hbinades
  simp only [indexOf, Nat.div_one, Nat.pow_eq]
  omega

/-! ## decimals -/

theorem two_pow_le_ten_pow (n : Nat) : 2 ^ (3 * n) ≤ 10 ^ n := by
  rw [Nat.pow_mul]
  exact Nat.pow_le_pow_left (by decide) n

/-- Reading a decimal is one rounding: the bounds on its size decide only what rounding decides in
the same way. -/
theorem ofDecimal_eq_roundTo (hf : 2 ^ f.fraction ∣ f.top) (d : Decimal) :
    f.ofDecimal d
      = f.roundTo (d.digits * 10 ^ d.exponent.toNat) (10 ^ (-d.exponent).toNat) := by
  unfold ofDecimal
  simp only [Nat.pow_eq]
  split
  · rename_i hzero
    have hsmall : 2 * (d.digits * 10 ^ d.exponent.toNat * 2 ^ f.scale)
        < 10 ^ (-d.exponent).toNat := by
      rw [hzero, Nat.zero_mul, Nat.zero_mul, Nat.mul_zero]
      exact Nat.pow_pos (by decide)
    exact (indexOf_eq_zero f hsmall).symm
  · rename_i hne
    have hlow := Nat.log2_self_le hne
    split
    · rename_i hexp
      have hone : 10 ^ (-d.exponent).toNat = 1 := by
        have hzero : (-d.exponent).toNat = 0 := by omega
        rw [hzero, Nat.pow_zero]
      rw [hone]
      split
      · rename_i hlarge
        have hsize : 2 ^ (f.top / 2 ^ f.fraction + f.fraction)
            ≤ d.digits * 10 ^ d.exponent.toNat * 2 ^ f.scale := by
          calc 2 ^ (f.top / 2 ^ f.fraction + f.fraction)
              ≤ 2 ^ (d.digits.log2 + 3 * d.exponent.toNat + f.scale) :=
                Nat.pow_le_pow_right (by decide) hlarge
            _ = 2 ^ d.digits.log2 * 2 ^ (3 * d.exponent.toNat) * 2 ^ f.scale := by
                rw [Nat.pow_add, Nat.pow_add]
            _ ≤ d.digits * 10 ^ d.exponent.toNat * 2 ^ f.scale :=
                Nat.mul_le_mul_right _ (Nat.mul_le_mul hlow (two_pow_le_ten_pow _))
        exact (indexOf_eq_top f hf hsize).symm
      · rfl
    · rename_i hexp
      have hzero : d.exponent.toNat = 0 := by omega
      rw [hzero, Nat.pow_zero, Nat.mul_one]
      split
      · rename_i hsmall
        have hhigh : d.digits < 2 ^ (d.digits.log2 + 1) := Nat.lt_log2_self
        have hsize : 2 * (d.digits * 2 ^ f.scale) < 10 ^ (-d.exponent).toNat := by
          calc 2 * (d.digits * 2 ^ f.scale)
              < 2 * (2 ^ (d.digits.log2 + 1) * 2 ^ f.scale) :=
                Nat.mul_lt_mul_of_pos_left
                  (Nat.mul_lt_mul_of_pos_right hhigh (Nat.two_pow_pos _)) (by decide)
            _ = 2 ^ (d.digits.log2 + f.scale + 2) := by ring
            _ ≤ 2 ^ (3 * (-d.exponent).toNat) := Nat.pow_le_pow_right (by decide) (by omega)
            _ ≤ 10 ^ (-d.exponent).toNat := two_pow_le_ten_pow _
        exact (indexOf_eq_zero f hsize).symm
      · rfl

/-- zeros at the end of the digits are as good as a larger exponent -/
theorem ofDecimal_mul_pow (hf : 2 ^ f.fraction ∣ f.top) (n : Nat) (e : Int) (k : Nat) :
    f.ofDecimal ⟨n * 10 ^ k, e⟩ = f.ofDecimal ⟨n, e + k⟩ := by
  rw [ofDecimal_eq_roundTo f hf, ofDecimal_eq_roundTo f hf]
  refine roundTo_congr f (Nat.pow_pos (by decide)) (Nat.pow_pos (by decide)) ?_
  show n * 10 ^ k * 10 ^ e.toNat * 10 ^ (-(e + k)).toNat
    = n * 10 ^ (e + k).toNat * 10 ^ (-e).toNat
  have hexp : k + e.toNat + (-(e + k)).toNat = (e + k).toNat + (-e).toNat := by omega
  rw [Nat.mul_assoc, Nat.mul_assoc, Nat.mul_assoc, ← Nat.pow_add, ← Nat.pow_add, ← Nat.pow_add,
    ← hexp, Nat.add_assoc]

/-- a number of units as a decimal: `2 ^ -1` is `5 * 10 ^ -1` -/
theorem ofDecimal_units (hf : 2 ^ f.fraction ∣ f.top) (u : Nat) :
    f.ofDecimal ⟨u * Nat.pow 5 f.scale, -(f.scale : Int)⟩ = f.indexOf u 1 := by
  have hpos : (-(f.scale : Int)).toNat = 0 := by omega
  have hneg : (- -(f.scale : Int)).toNat = f.scale := by omega
  have hten : u * 5 ^ f.scale * 10 ^ 0 * 2 ^ f.scale = u * 10 ^ f.scale := by
    have hbase : (10 : Nat) = 5 * 2 := rfl
    rw [Nat.pow_zero, Nat.mul_one, hbase, Nat.mul_pow, Nat.mul_assoc]
  have h := indexOf_mul_right f u 1 (Nat.pow_pos (n := f.scale) (by decide : 0 < 10))
  rw [Nat.one_mul] at h
  rw [ofDecimal_eq_roundTo f hf, roundTo]
  simp only [hpos, hneg, Nat.pow_eq]
  rw [hten]
  exact h

/-! ## points of the grid -/

theorem lt_shift_add_two_mul (i : Nat) : i < (f.shift i + 2) * 2 ^ f.fraction := by
  have hlt : i < (i / 2 ^ f.fraction + 1) * 2 ^ f.fraction :=
    Nat.lt_mul_of_div_lt (Nat.lt_succ_self _) (Nat.two_pow_pos _)
  have hle : i / 2 ^ f.fraction + 1 ≤ f.shift i + 2 := by
    simp only [shift, Nat.pow_eq]
    omega
  exact Nat.lt_of_lt_of_le hlt (Nat.mul_le_mul_right _ hle)

/-- a significand has one binary digit more than it stores -/
theorem significand_lt (i : Nat) :
    i - f.shift i * Nat.pow 2 f.fraction < 2 ^ (f.fraction + 1) := by
  have h := lt_shift_add_two_mul f i
  rw [Nat.add_mul] at h
  simp only [Nat.pow_eq]
  rw [Nat.pow_succ]
  have hpos := Nat.two_pow_pos f.fraction
  omega

theorem units_of_lt {i : Nat} (h : i < 2 ^ (f.fraction + 1)) : f.units i = i := by
  have hshift : f.shift i = 0 := by
    have hdiv : i / 2 ^ f.fraction < 2 := by
      rw [Nat.div_lt_iff_lt_mul (Nat.two_pow_pos _), Nat.mul_comm, ← Nat.pow_succ]
      exact h
    simp only [shift, Nat.pow_eq]
    omega
  simp only [units, hshift, Nat.pow_eq, Nat.zero_mul, Nat.sub_zero, Nat.pow_zero, Nat.mul_one]

theorem units_mul_add {n : Nat} (t : Nat) (hlow : 2 ^ f.fraction ≤ n)
    (hhigh : n < 2 ^ (f.fraction + 1)) : f.units (t * 2 ^ f.fraction + n) = n * 2 ^ t := by
  have hone : n / 2 ^ f.fraction = 1 := by
    rw [Nat.pow_succ] at hhigh
    exact Nat.div_eq_of_lt_le (by omega) (by omega)
  have hshift : f.shift (t * 2 ^ f.fraction + n) = t := by
    simp only [shift, Nat.pow_eq]
    rw [Nat.mul_comm, Nat.mul_add_div (Nat.two_pow_pos _), hone, Nat.add_sub_cancel]
  simp only [units, hshift, Nat.pow_eq, Nat.add_sub_cancel_left]

theorem indexOf_mul_pow {n : Nat} (t : Nat) (hlow : 2 ^ f.fraction ≤ n)
    (hhigh : n < 2 ^ (f.fraction + 1)) :
    f.indexOf (n * 2 ^ t) 1 = min f.top (t * 2 ^ f.fraction + n) := by
  have hpos : n * 2 ^ t ≠ 0 :=
    Nat.ne_of_gt (Nat.mul_pos (Nat.lt_of_lt_of_le (Nat.two_pow_pos _) hlow) (Nat.two_pow_pos _))
  have hlog : (n * 2 ^ t).log2 = f.fraction + t := by
    refine (Nat.log2_eq_iff hpos).2 ⟨?_, ?_⟩
    · rw [Nat.pow_add]
      exact Nat.mul_le_mul_right _ hlow
    · rw [Nat.add_right_comm, Nat.pow_add]
      exact Nat.mul_lt_mul_of_pos_right hhigh (Nat.two_pow_pos _)
  simp only [indexOf, Nat.div_one, hlog, Nat.add_sub_cancel_left, Nat.pow_eq, Nat.one_mul,
    roundQuotient_mul_self n (Nat.two_pow_pos t)]

/-- a point of the grid is its own nearest point -/
theorem indexOf_units {i : Nat} (h : i ≤ f.top) : f.indexOf (f.units i) 1 = i := by
  rcases Nat.lt_or_ge i (2 ^ (f.fraction + 1)) with hsmall | hlarge
  · have hdiv : f.units i / 1 < 2 ^ (f.fraction + 1) := by
      rw [Nat.div_one, units_of_lt f hsmall]
      exact hsmall
    rw [indexOf_of_div_lt f hdiv, roundQuotient_one, units_of_lt f hsmall, Nat.min_eq_right h]
  · have hsplit : f.shift i * 2 ^ f.fraction + 2 ^ f.fraction ≤ i := by
      have hdiv := Nat.div_mul_le_self i (2 ^ f.fraction)
      have htwo : 2 ≤ i / 2 ^ f.fraction := by
        rw [Nat.le_div_iff_mul_le (Nat.two_pow_pos _), Nat.mul_comm, ← Nat.pow_succ]
        exact hlarge
      have hshift : f.shift i + 1 = i / 2 ^ f.fraction := by
        simp only [shift, Nat.pow_eq]
        omega
      rw [← Nat.succ_mul, Nat.succ_eq_add_one, hshift]
      exact hdiv
    have hle : f.shift i * 2 ^ f.fraction ≤ i := Nat.le_trans (Nat.le_add_right _ _) hsplit
    have hlow : 2 ^ f.fraction ≤ i - f.shift i * 2 ^ f.fraction :=
      Nat.le_sub_of_add_le (by rwa [Nat.add_comm])
    unfold units
    simp only [Nat.pow_eq]
    rw [indexOf_mul_pow f _ hlow (significand_lt f i), Nat.add_sub_cancel' hle,
      Nat.min_eq_right h]

/-- a number with few enough binary digits is a point of the grid, if it is not too large -/
theorem units_indexOf {n : Nat} (k : Nat) (hn : n < 2 ^ (f.fraction + 1))
    (hk : (k + 2) * 2 ^ f.fraction ≤ f.top) :
    f.indexOf (n * 2 ^ k) 1 < f.top ∧ f.units (f.indexOf (n * 2 ^ k) 1) = n * 2 ^ k := by
  induction k generalizing n with
  | zero =>
    have htop : n < f.top := by
      rw [Nat.pow_succ] at hn
      omega
    have hindex : f.indexOf n 1 = n := by
      have h := indexOf_units f (Nat.le_of_lt htop)
      rwa [units_of_lt f hn] at h
    rw [Nat.pow_zero, Nat.mul_one, hindex]
    exact ⟨htop, units_of_lt f hn⟩
  | succ k ih =>
    rcases Nat.lt_or_ge n (2 ^ f.fraction) with hsmall | hlarge
    · have hdouble : n * 2 ^ (k + 1) = 2 * n * 2 ^ k := by ring
      rw [hdouble]
      refine ih ?_ ?_
      · rw [Nat.pow_succ]
        omega
      · rw [Nat.add_right_comm, Nat.succ_mul] at hk
        omega
    · have htop : (k + 1) * 2 ^ f.fraction + n < f.top := by
        rw [Nat.add_mul] at hk
        rw [Nat.pow_succ] at hn
        omega
      rw [indexOf_mul_pow f (k + 1) hlarge hn, Nat.min_eq_right (Nat.le_of_lt htop)]
      exact ⟨htop, units_mul_add f (k + 1) hlarge hn⟩

/-! ## from one grid to a finer one -/

variable {f} {g : BinaryFormat} {j : Nat}

theorem roundTo_units (hscale : g.scale = f.scale + j) (i : Nat) :
    g.roundTo (f.units i) (Nat.pow 2 f.scale) = g.indexOf (f.units i * 2 ^ j) 1 := by
  have hunits : f.units i * Nat.pow 2 g.scale = f.units i * 2 ^ j * 2 ^ f.scale := by
    rw [hscale, Nat.pow_eq, Nat.pow_add]
    ring
  have h := indexOf_mul_right g (f.units i * 2 ^ j) 1 (Nat.two_pow_pos f.scale)
  rw [Nat.one_mul] at h
  rw [roundTo, hunits]
  exact h

theorem roundTo_mul_pow (hscale : g.scale = f.scale + j) (u : Nat) :
    f.roundTo (u * 2 ^ j) (Nat.pow 2 g.scale) = f.indexOf u 1 := by
  have hunits : u * 2 ^ j * Nat.pow 2 f.scale = u * 2 ^ g.scale := by
    rw [hscale, Nat.pow_eq, Nat.pow_add]
    ring
  have h := indexOf_mul_right f u 1 (Nat.two_pow_pos g.scale)
  rw [Nat.one_mul] at h
  rw [roundTo, hunits]
  exact h

/-- a point that the finer grid has too is found again -/
theorem roundTo_units_back (hscale : g.scale = f.scale + j) {i k : Nat} (h : i ≤ f.top)
    (hk : g.units k = f.units i * 2 ^ j) : f.roundTo (g.units k) (Nat.pow 2 g.scale) = i := by
  rw [hk, roundTo_mul_pow hscale, indexOf_units f h]

theorem shift_le_of_le_top {i : Nat} (h : i ≤ single.top) : single.shift i ≤ 254 := by
  have hdiv : i / Nat.pow 2 23 ≤ 255 := by
    have htop : single.top = 255 * Nat.pow 2 23 := rfl
    rw [htop] at h
    exact Nat.div_le_of_le_mul (by rwa [Nat.mul_comm])
  have hshift : single.shift i = i / Nat.pow 2 23 - 1 := rfl
  omega

/-- the points of the 32-bit grid are points of the 64-bit grid -/
theorem units_double_of_single {i : Nat} (h : i ≤ single.top) :
    double.indexOf (single.units i * 2 ^ 925) 1 < double.top
      ∧ double.units (double.indexOf (single.units i * 2 ^ 925) 1) = single.units i * 2 ^ 925 := by
  have hshift := shift_le_of_le_top h
  have hwidth : i - single.shift i * Nat.pow 2 single.fraction < 2 ^ (double.fraction + 1) :=
    Nat.lt_of_lt_of_le (significand_lt single i) (Nat.pow_le_pow_right (by decide) (by decide))
  have hsize : (single.shift i + 925 + 2) * 2 ^ double.fraction ≤ double.top := by
    have htop : double.top = 2047 * 2 ^ double.fraction := rfl
    rw [htop]
    exact Nat.mul_le_mul_right _ (by omega)
  have hunits : single.units i * 2 ^ 925
      = (i - single.shift i * Nat.pow 2 single.fraction) * 2 ^ (single.shift i + 925) := by
    simp only [units, Nat.pow_eq]
    rw [Nat.pow_add, Nat.mul_assoc]
  rw [hunits]
  exact units_indexOf double _ hwidth hsize

end BinaryFormat

/-! ## narrowing -/

namespace Binary64

open BinaryFormat

/-- **What was narrowed once is not changed by narrowing.** -/
theorem narrow_narrow (x : Binary64) : x.narrow.narrow = x.narrow := by
  have hscale : double.scale = single.scale + 925 := rfl
  cases x with
  | nan => rfl
  | signed s m =>
    by_cases hinf : m.isInfinite = true
    · simp only [narrow, hinf, if_true]
    · have hle : single.roundTo m.units Magnitude.unitsPerOne ≤ single.top := indexOf_le_top _ _ _
      by_cases htop : single.roundTo m.units Magnitude.unitsPerOne = single.top
      · have honce : narrow (signed s m) = infinity s := by
          simp only [narrow, if_neg hinf, if_pos htop]
        rw [honce]
        rfl
      · generalize hi : single.roundTo m.units Magnitude.unitsPerOne = i at hle htop
        obtain ⟨hfinite, hunits⟩ := units_double_of_single hle
        have hindex : (Magnitude.ofQuotient (single.units i) (Nat.pow 2 single.scale)).index
            = double.indexOf (single.units i * 2 ^ 925) 1 := roundTo_units hscale i
        have honce : narrow (signed s m)
            = signed s (.ofQuotient (single.units i) (Nat.pow 2 single.scale)) := by
          simp only [narrow, if_neg hinf, hi, if_neg htop]
        have hback : single.roundTo
            (Magnitude.ofQuotient (single.units i) (Nat.pow 2 single.scale)).units
              Magnitude.unitsPerOne = i := by
          delta Magnitude.unitsPerOne
          rw [Magnitude.units, hindex, roundTo_units_back hscale hle hunits]
        have hstill : ¬ (Magnitude.ofQuotient (single.units i)
            (Nat.pow 2 single.scale)).isInfinite = true := by
          rw [Magnitude.isInfinite, hindex, beq_iff_eq]
          exact Nat.ne_of_lt hfinite
        rw [honce]
        simp only [narrow, if_neg hstill, hback, if_neg htop]

end Binary64
end ParamSchema
