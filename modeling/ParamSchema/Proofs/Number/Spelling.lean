import Mathlib.Algebra.Order.Field.Basic
import Mathlib.Data.Rat.Cast.Order
import Mathlib.Tactic.FieldSimp
import Mathlib.Tactic.Positivity
import ParamSchema.Proofs.Number.ReadBack

/-!
# Decimal literals and their exact values

What a decimal literal spells, said without a reader: a significand of digits with an optional point
(`Decimal.Significand`), then an optional power of ten (`Decimal.Scale`).  Reading accepts exactly
these (`Decimal.read?_eq_some_iff`).

Decimals and floats have rational values.  A decimal whose value is on the 64-bit grid is read as
that very number (`ofDecimal_of_value_eq`), and so is every whole number of at most 53 bits
(`exists_value_eq_of_lt`).  A decimal is never rounded below a power of two
(`two_pow_le_of_ofDecimal`).
-/

namespace ParamSchema

/-! ## spellings -/

/-- decimal digits, perhaps none -/
def IsDigits (cs : List Char) : Prop := ∀ c ∈ cs, c.isDigit = true

namespace Decimal

/-- digits with an optional point, at least one digit on either side of it -/
inductive Significand : List Char → List Char → List Char → Prop
  | whole {ds : List Char} : ds ≠ [] → IsDigits ds → Significand ds ds []
  | point {ds fs : List Char} :
      ds ≠ [] ∨ fs ≠ [] → IsDigits ds → IsDigits fs → Significand (ds ++ '.' :: fs) ds fs

/-- digits with an optional sign -/
inductive Exponent : List Char → Int → Prop
  | bare {ds : List Char} : ds ≠ [] → IsDigits ds → Exponent ds (ofDigits ds)
  | plus {ds : List Char} : ds ≠ [] → IsDigits ds → Exponent ('+' :: ds) (ofDigits ds)
  | minus {ds : List Char} : ds ≠ [] → IsDigits ds → Exponent ('-' :: ds) (-(ofDigits ds))

/-- the power of ten after a significand, if there is one -/
inductive Scale : List Char → Int → Prop
  | one : Scale [] 0
  | power {c : Char} {cs : List Char} {e : Int} :
      c = 'e' ∨ c = 'E' → Exponent cs e → Scale (c :: cs) e

/-- the text of an unsigned decimal -/
inductive Spells : List Char → Decimal → Prop
  | mk {cs ds fs scale : List Char} {e : Int} :
      Significand cs ds fs → Scale scale e → Spells (cs ++ scale) (ofParts ds fs e)

/-! ## reading -/

theorem isDigits_takeWhile (cs : List Char) : IsDigits (cs.takeWhile Char.isDigit) := by
  exact List.all_eq_true.1 List.all_takeWhile

theorem digits_eq_ok {ds : List Char} :
    (!ds.isEmpty && ds.all Char.isDigit) = true ↔ ds ≠ [] ∧ IsDigits ds := by
  simp [IsDigits]

theorem readExponent?_eq_some_iff {cs : List Char} {e : Int} :
    readExponent? cs = some e ↔ Exponent cs e := by
  constructor
  · intro h
    unfold readExponent? at h
    split at h <;> split at h
    · rename_i ds hds
      obtain ⟨hne, hds⟩ := digits_eq_ok.1 hds
      obtain rfl := Option.some.inj h
      exact .minus hne hds
    · cases h
    · rename_i ds hds
      obtain ⟨hne, hds⟩ := digits_eq_ok.1 hds
      obtain rfl := Option.some.inj h
      exact .plus hne hds
    · cases h
    · rename_i hds
      obtain ⟨hne, hds⟩ := digits_eq_ok.1 hds
      obtain rfl := Option.some.inj h
      exact .bare hne hds
    · cases h
  · intro h
    cases h with
    | bare hne hds => exact readExponent?_digits hds hne
    | plus hne hds => rw [readExponent?, if_pos (digits_eq_ok.2 ⟨hne, hds⟩)]
    | minus hne hds => rw [readExponent?, if_pos (digits_eq_ok.2 ⟨hne, hds⟩)]

theorem readScale?_eq_some_iff {cs : List Char} {e : Int} :
    readScale? cs = some e ↔ Scale cs e := by
  cases cs with
  | nil =>
    rw [readScale?, Option.some.injEq]
    constructor
    · intro h
      subst h
      exact .one
    · intro h
      cases h
      rfl
  | cons c cs =>
    rw [readScale?]
    constructor
    · intro h
      split at h
      · rename_i hc
        exact .power (by simpa using hc) (readExponent?_eq_some_iff.1 h)
      · cases h
    · intro h
      cases h with
      | power hc he => rw [if_pos (by simpa using hc), readExponent?_eq_some_iff.2 he]

/-- a power of ten does not go on with digits, nor with a point -/
theorem Scale.ends {cs : List Char} {e : Int} (h : Scale cs e) :
    EndsDigits cs ∧ cs.head? ≠ some '.' := by
  cases h with
  | one => exact ⟨nofun, nofun⟩
  | power hc _ =>
    refine ⟨?_, ?_⟩
    · intro c hc'
      obtain rfl := Option.some.inj hc'
      rcases hc with rfl | rfl <;> rfl
    · intro hdot
      obtain rfl := Option.some.inj hdot
      rcases hc with hc | hc <;> cases hc

theorem isEmpty_and_isEmpty (as bs : List Char) :
    (as.isEmpty && bs.isEmpty) = false ↔ as ≠ [] ∨ bs ≠ [] := by
  cases as <;> cases bs <;> simp

theorem read?_of_spells {cs : List Char} {d : Decimal} (h : Spells cs d) : read? cs = some d := by
  cases h with
  | mk hcs hscale =>
    have hread := readScale?_eq_some_iff.2 hscale
    obtain ⟨hends, hdot⟩ := hscale.ends
    cases hcs with
    | whole hne hds => rw [read?_whole hds hne hends hdot, hread, Option.map_some]
    | point hne hds hfs =>
      have hpoint : ∀ tail, EndsDigits ('.' :: tail) := by
        intro tail c hc
        obtain rfl := Option.some.inj hc
        rfl
      have hsome := (isEmpty_and_isEmpty _ _).2 hne
      rw [List.append_assoc, List.cons_append]
      simp only [read?, takeWhile_isDigit_append hds (hpoint _),
        dropWhile_isDigit_append hds (hpoint _), takeWhile_isDigit_append hfs hends,
        dropWhile_isDigit_append hfs hends, hsome, hread]
      rfl

theorem spells_of_read? {cs : List Char} {d : Decimal} (h : read? cs = some d) : Spells cs d := by
  have hsplit : cs = cs.takeWhile Char.isDigit ++ cs.dropWhile Char.isDigit :=
    List.takeWhile_append_dropWhile.symm
  have hds := isDigits_takeWhile cs
  unfold read? at h
  generalize cs.takeWhile Char.isDigit = ds at *
  generalize cs.dropWhile Char.isDigit = rest at *
  subst hsplit
  simp only at h
  split at h
  · rename_i tail
    split at h
    · cases h
    · rename_i hsome
      obtain ⟨e, he, rfl⟩ := Option.map_eq_some_iff.1 h
      have hne := (isEmpty_and_isEmpty _ _).1 (Bool.eq_false_iff.2 hsome)
      have hall :=
        Spells.mk (.point hne hds (isDigits_takeWhile tail)) (readScale?_eq_some_iff.1 he)
      rwa [List.append_assoc, List.cons_append, List.takeWhile_append_dropWhile] at hall
  · split at h
    · cases h
    · rename_i hsome
      obtain ⟨e, he, rfl⟩ := Option.map_eq_some_iff.1 h
      have hne : ds ≠ [] := by
        rintro rfl
        simp at hsome
      exact .mk (.whole hne hds) (readScale?_eq_some_iff.1 he)

/-- reading takes the decimal literals, and nothing else -/
theorem read?_eq_some_iff {cs : List Char} {d : Decimal} : read? cs = some d ↔ Spells cs d :=
  ⟨spells_of_read?, read?_of_spells⟩

/-! ## values -/

/-- the rational number `digits * 10 ^ exponent` -/
def value (d : Decimal) : ℚ := d.digits * 10 ^ d.exponent

theorem value_nonneg (d : Decimal) : 0 ≤ d.value :=
  mul_nonneg (Nat.cast_nonneg _) (zpow_nonneg (by norm_num) _)

theorem value_eq_div (d : Decimal) :
    d.value = ((d.digits * 10 ^ d.exponent.toNat : Nat) : ℚ)
      / ((10 ^ (-d.exponent).toNat : Nat) : ℚ) := by
  have hten : (10 : ℚ) ≠ 0 := by norm_num
  have hexp : d.exponent = (d.exponent.toNat : Int) - ((-d.exponent).toNat : Int) := by omega
  have hpow : (10 : ℚ) ^ d.exponent
      = 10 ^ d.exponent.toNat / 10 ^ (-d.exponent).toNat := by
    conv_lhs => rw [hexp]
    rw [zpow_sub₀ hten, zpow_natCast, zpow_natCast]
  rw [value, hpow]
  push_cast
  rw [mul_div_assoc]

end Decimal

/-! ## the values of floats -/

namespace Magnitude

/-- the value of a finite magnitude -/
def value (m : Magnitude) : ℚ := m.units / unitsPerOne

theorem value_nonneg (m : Magnitude) : 0 ≤ m.value :=
  div_nonneg (Nat.cast_nonneg _) (Nat.cast_nonneg _)

theorem unitsPerOne_eq : unitsPerOne = 2 ^ BinaryFormat.double.scale := by
  delta unitsPerOne
  rw [Nat.pow_eq]

theorem unitsPerOne_pos : 0 < unitsPerOne := unitsPerOne_eq ▸ Nat.two_pow_pos _

theorem unitsPerOne_ne_zero : (unitsPerOne : ℚ) ≠ 0 :=
  Nat.cast_ne_zero.2 (Nat.ne_of_gt unitsPerOne_pos)

/-- a quotient is rounded to the number that it is, if it is one -/
theorem roundTo_of_value_eq {a b : Nat} (hb : 0 < b) {m : Magnitude} (h : (a : ℚ) / b = m.value) :
    BinaryFormat.double.roundTo a b = m.index := by
  have hpos := unitsPerOne_pos
  have hcross : a * unitsPerOne = m.units * b := by
    have hb : (b : ℚ) ≠ 0 := Nat.cast_ne_zero.2 (Nat.ne_of_gt hb)
    rw [value, div_eq_div_iff hb unitsPerOne_ne_zero] at h
    exact_mod_cast h
  have hunits : BinaryFormat.double.roundTo m.units unitsPerOne
      = BinaryFormat.double.indexOf m.units 1 := by
    rw [BinaryFormat.roundTo, Nat.pow_eq, ← unitsPerOne_eq]
    have hall := BinaryFormat.indexOf_mul_right BinaryFormat.double m.units 1 hpos
    rwa [Nat.one_mul] at hall
  rw [BinaryFormat.roundTo_congr _ hb hpos hcross, hunits]
  exact BinaryFormat.indexOf_units _ m.index_le

/-- every whole number of at most 53 bits is a magnitude -/
theorem exists_value_eq_of_lt {n : Nat} (h : n < 2 ^ 53) :
    ∃ m : Magnitude, m.isInfinite = false ∧ m.value = n := by
  have hsize : (BinaryFormat.double.scale + 2) * 2 ^ BinaryFormat.double.fraction
      ≤ BinaryFormat.double.top := by
    have htop : BinaryFormat.double.top = 2047 * 2 ^ BinaryFormat.double.fraction := rfl
    rw [htop]
    exact Nat.mul_le_mul_right _ (by decide)
  obtain ⟨hlt, hunits⟩ := BinaryFormat.units_indexOf BinaryFormat.double
    BinaryFormat.double.scale h hsize
  refine ⟨⟨_, Nat.le_of_lt hlt⟩, ?_, ?_⟩
  · rw [isInfinite, beq_eq_false_iff_ne]
    exact Nat.ne_of_lt hlt
  · rw [value, units, hunits, ← unitsPerOne_eq, Nat.cast_mul,
      mul_div_cancel_right₀ _ unitsPerOne_ne_zero]

end Magnitude

namespace Binary64

/-- the number with a sign -/
def withSign (negative : Bool) (q : ℚ) : ℚ := if negative then -q else q

/-- the value of a finite float -/
def value? : Binary64 → Option ℚ
  | .nan => none
  | .signed s m => if m.isInfinite then none else some (withSign s m.value)

/-- a decimal is read as the float that it is, if it is one -/
theorem ofDecimal_of_value_eq (negative : Bool) {d : Decimal} {m : Magnitude}
    (h : d.value = m.value) : ofDecimal negative d = .signed negative m := by
  rw [Decimal.value_eq_div] at h
  have hround := Magnitude.roundTo_of_value_eq (Nat.pow_pos (by decide)) h
  have hindex : BinaryFormat.double.ofDecimal d = m.index := by
    rw [BinaryFormat.ofDecimal_eq_roundTo _ double_fraction_dvd_top, hround]
  rw [ofDecimal, hindex, ofIndex_index]

/-- a quotient is a whole number just in case nothing remains -/
theorem natCast_div_eq_iff {a b : Nat} (hb : 0 < b) {i : Int} :
    (a : ℚ) / b = i ↔ a % b = 0 ∧ ((a / b : Nat) : Int) = i := by
  have hne : (b : ℚ) ≠ 0 := Nat.cast_ne_zero.2 (Nat.ne_of_gt hb)
  rw [div_eq_iff hne]
  constructor
  · intro h
    have ha : (a : Int) = i * b := by exact_mod_cast h
    have hi : 0 ≤ i := by
      by_contra hneg
      have hlt : i * (b : Int) < 0 := Int.mul_neg_of_neg_of_pos (by omega) (by omega)
      omega
    obtain ⟨n, rfl⟩ := Int.eq_ofNat_of_zero_le hi
    have hab : a = n * b := by exact_mod_cast ha
    rw [hab]
    exact ⟨Nat.mul_mod_left _ _, by rw [Nat.mul_div_cancel _ hb]⟩
  · rintro ⟨hmod, rfl⟩
    have ha : a = a / b * b := (Nat.div_mul_cancel (Nat.dvd_of_mod_eq_zero hmod)).symm
    exact_mod_cast ha

theorem withSign_eq_intCast_iff {negative : Bool} {q : ℚ} {i : Int} :
    withSign negative q = i ↔ q = ((if negative then -i else i : Int) : ℚ) := by
  cases negative with
  | false => rfl
  | true =>
    rw [withSign, if_pos rfl, if_pos rfl, Int.cast_neg]
    exact neg_eq_iff_eq_neg

theorem eq_natAbs_of_withSign {negative : Bool} {q : ℚ} {i : Int} (hq : 0 ≤ q)
    (h : withSign negative q = i) : q = i.natAbs := by
  have hvalue := withSign_eq_intCast_iff.1 h
  rw [hvalue] at hq ⊢
  have hint : 0 ≤ if negative then -i else i := Int.cast_nonneg_iff.1 hq
  have habs : (if negative then -i else i) = (i.natAbs : Int) := by
    cases negative
    · exact (Int.natAbs_of_nonneg hint).symm
    · rw [← Int.natAbs_neg]
      exact (Int.natAbs_of_nonneg hint).symm
  rw [habs, Int.cast_natCast]

/-- the integer that a float is, is its value -/
theorem toInt?_eq_some_iff {x : Binary64} {i : Int} :
    x.toInt? = some i ↔ x.value? = some (i : ℚ) := by
  cases x with
  | nan => simp [toInt?, value?]
  | signed s m =>
    rw [toInt?, value?]
    cases m.isInfinite with
    | true => simp
    | false =>
      have hvalue : withSign s m.value = i ↔ _ :=
        withSign_eq_intCast_iff.trans (natCast_div_eq_iff Magnitude.unitsPerOne_pos)
      rw [Bool.false_or, if_neg Bool.false_ne_true, Option.some.injEq, hvalue]
      generalize Magnitude.unitsPerOne = one
      generalize m.units = u
      by_cases hmod : u % one = 0
      · have hne : ¬(u % one != 0) = true := by simp [hmod]
        rw [if_neg hne, Option.some.injEq]
        cases s with
        | false => simp [hmod]
        | true => simp only [if_true, hmod, true_and]; omega
      · have hne : (u % one != 0) = true := by simpa using hmod
        rw [if_pos hne]
        simp [hmod]

end Binary64
/-! ## powers of two -/

namespace BinaryFormat

variable (f : BinaryFormat)

/-- the index of what is not below a power of two is not below that of the power -/
theorem le_indexOf {a b k : Nat} (hb : 0 < b) (h : 2 ^ (f.fraction + k) * b ≤ a) :
    min f.top ((k + 1) * 2 ^ f.fraction) ≤ f.indexOf a b := by
  have hquot : 2 ^ (f.fraction + k) ≤ a / b := (Nat.le_div_iff_mul_le hb).2 h
  have hne : a / b ≠ 0 := Nat.ne_of_gt (Nat.lt_of_lt_of_le (Nat.two_pow_pos _) hquot)
  have hlog : f.fraction + k ≤ (a / b).log2 := (Nat.le_log2 hne).2 hquot
  have hself : 2 ^ (a / b).log2 ≤ a / b := Nat.log2_self_le hne
  simp only [indexOf, Nat.pow_eq]
  generalize hs : (a / b).log2 - f.fraction = s
  have hround : 2 ^ f.fraction ≤ roundQuotient a (b * 2 ^ s) := by
    have hdiv : 2 ^ f.fraction ≤ a / (b * 2 ^ s) := by
      rw [← Nat.div_div_eq_div_mul, Nat.le_div_iff_mul_le (Nat.two_pow_pos s), ← Nat.pow_add]
      have hexp : f.fraction + s = (a / b).log2 := by omega
      rwa [hexp]
    simp only [roundQuotient]
    split <;> (try split) <;> omega
  have hshift : k * 2 ^ f.fraction ≤ s * 2 ^ f.fraction := Nat.mul_le_mul_right _ (by omega)
  rw [Nat.succ_mul]
  omega

theorem two_pow_le_units {i k : Nat} (h : (k + 1) * 2 ^ f.fraction ≤ i) :
    2 ^ (f.fraction + k) ≤ f.units i := by
  have hbinade : k + 1 ≤ i / 2 ^ f.fraction := (Nat.le_div_iff_mul_le (Nat.two_pow_pos _)).2 h
  have hdiv := Nat.div_mul_le_self i (2 ^ f.fraction)
  simp only [units, shift, Nat.pow_eq]
  generalize hs : i / 2 ^ f.fraction - 1 = s
  have hsum : (s + 1) * 2 ^ f.fraction ≤ i := by
    have hsucc : s + 1 = i / 2 ^ f.fraction := by omega
    rwa [hsucc]
  rw [Nat.succ_mul] at hsum
  rw [Nat.pow_add]
  exact Nat.mul_le_mul (by omega) (Nat.pow_le_pow_right (by decide) (by omega))

end BinaryFormat

namespace Magnitude

theorem two_pow_le_value {m : Magnitude} {k : Nat} (h : (k + 1023) * 2 ^ 52 ≤ m.index) :
    (2 : ℚ) ^ k ≤ m.value := by
  have hunits : 2 ^ (52 + (k + 1022)) ≤ m.units :=
    BinaryFormat.two_pow_le_units BinaryFormat.double h
  have hexp : 2 ^ (52 + (k + 1022)) = 2 ^ k * unitsPerOne := by
    have hsum : 52 + (k + 1022) = k + BinaryFormat.double.scale := by
      have hscale : BinaryFormat.double.scale = 1074 := rfl
      omega
    rw [hsum, unitsPerOne_eq, Nat.pow_add]
  have hpos : (0 : ℚ) < unitsPerOne := Nat.cast_pos.2 unitsPerOne_pos
  rw [hexp] at hunits
  rw [value, le_div_iff₀ hpos]
  exact_mod_cast hunits

end Magnitude


/-- a decimal is not rounded below a power of two -/
theorem Binary64.two_pow_le_of_ofDecimal (negative : Bool) {d : Decimal} {m : Magnitude} {k : Nat}
    (hm : ofDecimal negative d = .signed negative m) (hk : k ≤ 1023) (h : (2 : ℚ) ^ k ≤ d.value) :
    (2 : ℚ) ^ k ≤ m.value := by
  apply Magnitude.two_pow_le_value
  have hindex : m = .ofIndex (BinaryFormat.double.ofDecimal d) := by
    cases hm
    rfl
  have hb : 0 < 10 ^ (-d.exponent).toNat := Nat.pow_pos (by decide)
  rw [hindex, BinaryFormat.ofDecimal_eq_roundTo _ double_fraction_dvd_top]
  rw [Decimal.value_eq_div] at h
  generalize d.digits * 10 ^ d.exponent.toNat = a at h
  generalize 10 ^ (-d.exponent).toNat = b at h hb
  have hquot : 2 ^ k * b ≤ a := by
    rw [le_div_iff₀ (Nat.cast_pos.2 hb)] at h
    exact_mod_cast h
  have hunits : 2 ^ (BinaryFormat.double.fraction + (k + 1022)) * b
      ≤ a * 2 ^ BinaryFormat.double.scale := by
    have hsum : BinaryFormat.double.fraction + (k + 1022) = k + BinaryFormat.double.scale := by
      have hscale : BinaryFormat.double.scale = 1074 := rfl
      have hfraction : BinaryFormat.double.fraction = 52 := rfl
      omega
    calc 2 ^ (BinaryFormat.double.fraction + (k + 1022)) * b
        = 2 ^ k * b * 2 ^ BinaryFormat.double.scale := by rw [hsum, Nat.pow_add, Nat.mul_right_comm]
      _ ≤ a * 2 ^ BinaryFormat.double.scale := Nat.mul_le_mul_right _ hquot
  have hround := BinaryFormat.le_indexOf _ hb hunits
  have htop : (k + 1023) * 2 ^ 52 ≤ BinaryFormat.double.top :=
    Nat.mul_le_mul_right (2 ^ 52) (by omega : k + 1023 ≤ 2047)
  have hcap : min BinaryFormat.double.top ((k + 1022 + 1) * 2 ^ BinaryFormat.double.fraction)
      = (k + 1023) * 2 ^ 52 := Nat.min_eq_right htop
  rw [hcap] at hround
  show _ ≤ min BinaryFormat.double.top _
  rw [BinaryFormat.roundTo, Nat.pow_eq]
  generalize BinaryFormat.double.scale = scale at hround ⊢
  exact Nat.le_min.2 ⟨htop, hround⟩

end ParamSchema
