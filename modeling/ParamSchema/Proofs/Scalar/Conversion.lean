import ParamSchema.Bound.ReadType
import ParamSchema.Proofs.Number.Spelling
import ParamSchema.Proofs.Scalar.Literal

/-!
# Reading a scalar as another type, and decoding its literal

A bound scalar can be taken for one of another type (`Scalar.readAs?`), and so can its literal
(`ScalarType.decode`).  Both ways round a number once for each grid they put it on, so they agree;
but only the decoder looks for a finite number that the 32-bit grid makes infinite.

* `narrow_isInfinite_iff`    when narrowing leaves the finite numbers;
* `decodeFloat_literal`      the literal of a number reads as the float that the number is cast to;
* `Scalar.BeyondSingle`      the floats on which the two ways part;
* `decode_literal_iff`       they agree on all other scalars, for every type;
* `value_and_decode`         so does what a bound table yields.
-/

namespace ParamSchema

/-! ## numbers below a power of two -/

namespace BinaryFormat

variable (f : BinaryFormat)

theorem indexOf_le_of_lt {a b k : Nat} (h : a < 2 ^ (f.fraction + 1 + k) * b) :
    f.indexOf a b ≤ (k + 2) * 2 ^ f.fraction := by
  have hquot : a / b < 2 ^ (f.fraction + 1 + k) := Nat.div_lt_of_lt_mul (by rwa [Nat.mul_comm])
  simp only [indexOf, Nat.pow_eq]
  generalize hs : (a / b).log2 - f.fraction = s
  have hsk : s ≤ k := by
    rcases Nat.eq_zero_or_pos (a / b) with hzero | hpos
    · rw [hzero, Nat.log2_zero] at hs
      omega
    · have hlog := (Nat.log2_lt (Nat.ne_of_gt hpos)).2 hquot
      omega
  have hdigits : a / (b * 2 ^ s) < 2 ^ (f.fraction + 1) := by
    rw [← Nat.div_div_eq_div_mul]
    refine Nat.div_lt_of_lt_mul ?_
    rw [← Nat.pow_add]
    refine Nat.lt_of_lt_of_le Nat.lt_log2_self (Nat.pow_le_pow_right (by decide) ?_)
    omega
  have hround : roundQuotient a (b * 2 ^ s) ≤ 2 ^ (f.fraction + 1) := by
    simp only [roundQuotient]
    split <;> (try split) <;> omega
  have hshift : s * 2 ^ f.fraction ≤ k * 2 ^ f.fraction := Nat.mul_le_mul_right _ hsk
  rw [Nat.pow_succ] at hround
  rw [Nat.add_mul]
  omega

theorem units_le_two_pow {i k : Nat} (h : i ≤ (k + 2) * 2 ^ f.fraction) :
    f.units i ≤ 2 ^ (f.fraction + 1 + k) := by
  have hpos := Nat.two_pow_pos f.fraction
  rcases Nat.lt_or_ge i ((k + 2) * 2 ^ f.fraction) with hlt | hge
  · have hshift : f.shift i ≤ k := by
      have hdiv := (Nat.div_lt_iff_lt_mul hpos).2 hlt
      simp only [shift, Nat.pow_eq]
      omega
    have hwidth := Nat.le_of_lt (significand_lt f i)
    rw [units, Nat.pow_add]
    exact Nat.mul_le_mul hwidth (Nat.pow_le_pow_right (by decide) hshift)
  · -- the least number of the next binade
    have htop : i = (k + 1) * 2 ^ f.fraction + 2 ^ f.fraction := by
      rw [← Nat.succ_mul]
      exact Nat.le_antisymm h hge
    have hhigh : 2 ^ f.fraction < 2 ^ (f.fraction + 1) :=
      Nat.pow_lt_pow_right (by decide) (Nat.lt_succ_self _)
    rw [htop, units_mul_add f (k + 1) (Nat.le_refl _) hhigh, ← Nat.pow_add]
    exact Nat.pow_le_pow_right (by decide) (by omega)

/-- rounding does not leave the binades of a number, but for the least number of the next -/
theorem roundTo_le_of_lt {a b j k : Nat} (hk : j + f.scale = f.fraction + 1 + k)
    (h : a < 2 ^ j * b) : f.roundTo a b ≤ (k + 2) * 2 ^ f.fraction := by
  rw [roundTo, Nat.pow_eq]
  refine indexOf_le_of_lt f ?_
  calc a * 2 ^ f.scale < 2 ^ j * b * 2 ^ f.scale := Nat.mul_lt_mul_of_pos_right h (Nat.two_pow_pos _)
    _ = 2 ^ (j + f.scale) * b := by rw [Nat.pow_add, Nat.mul_right_comm]
    _ = 2 ^ (f.fraction + 1 + k) * b := by rw [hk]

end BinaryFormat

namespace Binary64

open BinaryFormat

theorem narrow_isInfinite_iff {negative : Bool} {m : Magnitude} (h : ¬ m.isInfinite = true) :
    (signed negative m).narrow.isInfinite = true
      ↔ single.roundTo m.units Magnitude.unitsPerOne = single.top := by
  constructor
  · intro hnarrow
    by_contra htop
    have hle : single.roundTo m.units Magnitude.unitsPerOne ≤ single.top := indexOf_le_top _ _ _
    generalize hi : single.roundTo m.units Magnitude.unitsPerOne = i at hle htop
    have hscale : double.scale = single.scale + 925 := rfl
    have hindex : (Magnitude.ofQuotient (single.units i) (Nat.pow 2 single.scale)).index
        = double.indexOf (single.units i * 2 ^ 925) 1 := roundTo_units hscale i
    obtain ⟨hfinite, _⟩ := units_double_of_single hle
    simp only [narrow, if_neg h, hi, if_neg htop] at hnarrow
    rw [isInfinite, Magnitude.isInfinite, hindex, beq_iff_eq] at hnarrow
    exact absurd hnarrow (Nat.ne_of_lt hfinite)
  · intro htop
    rw [narrow, if_neg h, if_pos htop]
    rfl

/-- whole numbers of 64 bits are far inside the 32-bit grid -/
theorem not_isInfinite_narrow_of_lt (negative : Bool) {n : Nat} (h : n < 2 ^ 64) :
    ¬ (signed negative (.ofQuotient n 1)).narrow.isInfinite = true := by
  have hindex : (Magnitude.ofQuotient n 1).index ≤ (1085 + 2) * 2 ^ double.fraction :=
    roundTo_le_of_lt double (j := 64) rfl (by rwa [Nat.mul_one])
  generalize Magnitude.ofQuotient n 1 = m at hindex
  have hfinite : ¬ m.isInfinite = true := by
    rw [Magnitude.isInfinite, beq_iff_eq]
    intro htop
    rw [htop] at hindex
    exact absurd hindex (by decide)
  have hunits : m.units < 2 ^ 65 * Magnitude.unitsPerOne := by
    have hexp : double.fraction + 1 + 1085 = 64 + double.scale := rfl
    calc m.units ≤ 2 ^ (double.fraction + 1 + 1085) := units_le_two_pow double hindex
      _ = 2 ^ 64 * Magnitude.unitsPerOne := by rw [hexp, Nat.pow_add, Magnitude.unitsPerOne_eq]
      _ < 2 ^ 65 * Magnitude.unitsPerOne :=
        Nat.mul_lt_mul_of_pos_right (by decide) Magnitude.unitsPerOne_pos
  have hsingle : single.roundTo m.units Magnitude.unitsPerOne ≤ (190 + 2) * 2 ^ single.fraction :=
    roundTo_le_of_lt single (j := 65) rfl hunits
  rw [narrow_isInfinite_iff hfinite]
  intro htop
  rw [htop] at hsingle
  exact absurd hsingle (by decide)

/-! ## the texts of whole numbers -/

theorem readMagnitude?_toDigits (negative : Bool) (n : Nat) :
    readMagnitude? negative (Nat.toDigits 10 n) = some (.signed negative (.ofQuotient n 1)) := by
  have hdigits : ∀ c ∈ Nat.toDigits 10 n, c.isDigit = true :=
    fun c hc => isDigit_of_mem_toDigits hc
  have hread := Decimal.read?_whole hdigits Nat.toDigits_ne_nil endsDigits_nil nofun
  have hparts : Decimal.ofParts (Nat.toDigits 10 n) [] 0 = ⟨n, 0⟩ := by
    rw [Decimal.ofParts, List.append_nil, Decimal.ofDigits_toDigits]
    rfl
  have hround : double.ofDecimal ⟨n, 0⟩ = (Magnitude.ofQuotient n 1).index := by
    rw [ofDecimal_eq_roundTo double double_fraction_dvd_top]
    show double.roundTo (n * 10 ^ 0) (10 ^ 0) = double.roundTo n 1
    rw [Nat.pow_zero, Nat.mul_one]
  rw [List.append_nil, Decimal.readScale?, Option.map_some, hparts] at hread
  rw [readMagnitude?, hread]
  show some (ofDecimal negative ⟨n, 0⟩) = _
  rw [ofDecimal, hround, ofIndex_index]

theorem read?_toDigits (n : Nat) : read? (Nat.toDigits 10 n) = some (.ofNat n) := by
  have hdigits : ∀ c ∈ Nat.toDigits 10 n, c.isDigit = true :=
    fun c hc => isDigit_of_mem_toDigits hc
  rw [read?]
  · exact readMagnitude?_toDigits false n
  · intro ds hds
    rw [hds] at hdigits
    exact absurd (hdigits '-' List.mem_cons_self) (by decide)
  · intro ds hds
    rw [hds] at hdigits
    exact absurd (hdigits '+' List.mem_cons_self) (by decide)

theorem read?_toString_int (i : Int) : read? (toString i).toList = some (.ofInt i) := by
  rw [toList_toString_int, ofInt]
  by_cases hneg : i < 0
  · rw [if_pos hneg, decide_eq_true hneg, List.singleton_append, read?]
    exact readMagnitude?_toDigits true i.natAbs
  · rw [if_neg hneg, decide_eq_false hneg, List.nil_append]
    exact read?_toDigits i.natAbs

end Binary64

/-! ## decoding the literal of a scalar -/

namespace Scalar

variable {s v : Scalar} {t : ScalarType}

theorem ne_string_of_float? {x : Binary64} (hs : s.float? = some x) :
    ∀ text, s ≠ .string text := by
  rintro text rfl
  cases hs

theorem ne_string_of_whole? {i : Int} (hs : s.whole? = some i) : ∀ text, s ≠ .string text := by
  rintro text rfl
  cases hs

theorem decode_literal_eq_decodeChars (hs : ∀ text, s ≠ .string text) (t : ScalarType) :
    t.decode s.literal = t.decodeChars s.literal.toList := by
  rw [ScalarType.decode, trimChars_of_isWord (isWord_literal hs)]

/-- the text of a number reads as the float that the number is cast to -/
theorem decodeFloat_literal {x : Binary64} (hs : s.float? = some x) :
    decodeFloat s.literal.toList = .ok x := by
  have hword : IsWord s.literal.toList := isWord_literal (ne_string_of_float? hs)
  have hread : Binary64.read? s.literal.toList = some x := by
    cases s with
    | float y =>
      obtain rfl := Option.some.inj hs
      exact Binary64.read?_literal y
    | int i =>
      obtain rfl := Option.some.inj hs
      exact Binary64.read?_toString_int i
    | uint n =>
      obtain rfl := Option.some.inj hs
      rw [literal, toList_toString_nat]
      exact Binary64.read?_toDigits n
    | bool b => cases hs
    | string text => cases hs
  rw [decodeFloat, quoteOf?_of_isWord hword, hread]
  rfl

theorem decodeInteger_literal {i : Int} (hs : s.whole? = some i)
    (hi : i.natAbs < Nat.pow 2 127) : decodeInteger s.literal.toList = .ok i := by
  cases s with
  | int j =>
    obtain rfl := Option.some.inj hs
    exact decodeInteger_toString hi
  | uint n =>
    obtain rfl := Option.some.inj hs
    exact decodeInteger_toString (i := (n : Int)) hi
  | bool b => cases hs
  | float x => cases hs
  | string text => cases hs

/-- the whole numbers of all types have 64 bits -/
theorem natAbs_lt_of_holds {i : Int} (hs : s.whole? = some i) (h : t.Holds s) :
    i.natAbs < 2 ^ 64 := by
  cases s with
  | int j =>
    obtain rfl := Option.some.inj hs
    cases t with
    | signed w =>
      have hpow : Nat.pow 2 (w.bits - 1) ≤ Nat.pow 2 63 := by cases w <;> decide
      have hbig : Nat.pow 2 63 < 2 ^ 64 := by decide
      have hj : w.holdsSigned j = true := h
      simp only [Width.holdsSigned, Bool.and_eq_true, decide_eq_true_eq] at hj
      omega
    | _ => cases h
  | uint n =>
    obtain rfl := Option.some.inj hs
    cases t with
    | unsigned w =>
      have hpow : Nat.pow 2 w.bits ≤ Nat.pow 2 64 := by cases w <;> decide
      have hbig : Nat.pow 2 64 = 2 ^ 64 := Nat.pow_eq
      have hn : w.holdsUnsigned n = true := h
      simp only [Width.holdsUnsigned, Bool.and_eq_true, decide_eq_true_eq] at hn
      omega
    | _ => cases h
  | bool b => cases hs
  | float x => cases hs
  | string text => cases hs

theorem natAbs_lt_of_ofSigned? {w : Width} {i : Int} (h : ofSigned? w i = some v) :
    i.natAbs < Nat.pow 2 127 := by
  unfold ofSigned? at h
  split at h
  · rename_i hholds
    exact natAbs_lt_of_holdsSigned hholds
  · cases h

theorem natAbs_lt_of_ofUnsigned? {w : Width} {i : Int} (h : ofUnsigned? w i = some v) :
    i.natAbs < Nat.pow 2 127 := by
  unfold ofUnsigned? at h
  split at h
  · rename_i hholds
    have hpos : 0 ≤ i := by
      simp only [Width.holdsUnsigned, Bool.and_eq_true, decide_eq_true_eq] at hholds
      exact hholds.1
    have habs : (i.natAbs : Int) = i := Int.natAbs_of_nonneg hpos
    exact lt_of_holdsUnsigned (habs ▸ hholds)
  · cases h

/-- a finite float that is infinite on the 32-bit grid -/
def BeyondSingle (s : Scalar) : Prop :=
  ∃ x, s = .float x ∧ x.isFinite = true ∧ x.narrow.isInfinite = true

/-- whole numbers of 64 bits do not leave the 32-bit grid -/
theorem beyondSingle_iff (hs : ∃ u : ScalarType, u.Holds s) {x : Binary64}
    (hx : s.float? = some x) :
    s.BeyondSingle ↔ x.isFinite = true ∧ x.narrow.isInfinite = true := by
  obtain ⟨u, hu⟩ := hs
  cases s with
  | float y =>
    obtain rfl := Option.some.inj hx
    constructor
    · rintro ⟨z, hz, h⟩
      obtain rfl := Scalar.float.inj hz
      exact h
    · exact fun h => ⟨y, rfl, h⟩
  | int i =>
    obtain rfl := Option.some.inj hx
    have hsmall : i.natAbs < 2 ^ 64 := natAbs_lt_of_holds rfl hu
    exact ⟨nofun, fun h => absurd h.2 (Binary64.not_isInfinite_narrow_of_lt _ hsmall)⟩
  | uint n =>
    obtain rfl := Option.some.inj hx
    have hsmall : n < 2 ^ 64 := natAbs_lt_of_holds (s := .uint n) rfl hu
    exact ⟨nofun, fun h => absurd h.2 (Binary64.not_isInfinite_narrow_of_lt _ hsmall)⟩
  | bool b => cases hx
  | string text => cases hx

/-- decoding narrows as the cast does, and refuses what that makes infinite -/
theorem decode_f32_literal {x : Binary64} (hx : s.float? = some x) :
    ScalarType.f32.decode s.literal
      = if x.isFinite = true ∧ x.narrow.isInfinite = true then .error (.floatOutOfRange x)
        else .ok (.float x.narrow) := by
  rw [decode_literal_eq_decodeChars (ne_string_of_float? hx), ScalarType.decodeChars,
    decodeFloat_literal hx]
  show Scalar.float <$> narrowFloat x = _
  simp only [narrowFloat, Bool.and_eq_true]
  split <;> rfl

/-- for the other types the two ways never part -/
theorem decode_literal_of_ne_f32 (ht : t ≠ .f32) (h : s.readAs? t = some v) :
    t.decode s.literal = .ok v := by
  cases t with
  | bool =>
    cases s with
    | bool b =>
      obtain rfl := Option.some.inj h
      exact decode_literal trivial
    | _ => cases h
  | string =>
    cases s with
    | string text =>
      obtain rfl := Option.some.inj h
      exact decode_literal trivial
    | _ => cases h
  | signed w =>
    obtain ⟨i, hi, hv⟩ := Option.bind_eq_some_iff.1 h
    rw [decode_literal_eq_decodeChars (ne_string_of_whole? hi), ScalarType.decodeChars,
      decodeInteger_literal hi (natAbs_lt_of_ofSigned? hv)]
    exact fit_eq_ok.2 hv
  | unsigned w =>
    obtain ⟨i, hi, hv⟩ := Option.bind_eq_some_iff.1 h
    rw [decode_literal_eq_decodeChars (ne_string_of_whole? hi), ScalarType.decodeChars,
      decodeInteger_literal hi (natAbs_lt_of_ofUnsigned? hv)]
    exact fit_eq_ok.2 hv
  | f32 => exact absurd rfl ht
  | f64 =>
    obtain ⟨x, hx, rfl⟩ := Option.map_eq_some_iff.1 h
    rw [decode_literal_eq_decodeChars (ne_string_of_float? hx), ScalarType.decodeChars,
      decodeFloat_literal hx]
    rfl

theorem decode_literal_iff (hs : ∃ u : ScalarType, u.Holds s) (h : s.readAs? t = some v) :
    t.decode s.literal = .ok v ↔ ¬ (t = .f32 ∧ s.BeyondSingle) := by
  by_cases ht : t = .f32
  · subst ht
    obtain ⟨x, hx, rfl⟩ := Option.map_eq_some_iff.1 h
    rw [decode_f32_literal hx, beyondSingle_iff hs hx]
    split
    · rename_i hinf
      simp [hinf]
    · rename_i hinf
      simp [hinf]
  · exact ⟨fun _ h => ht h.1, fun _ => decode_literal_of_ne_f32 ht h⟩

end Scalar

/-! ## values of a bound table -/

/-- what is read at a key is the scalar there, taken for one of the type -/
theorem BoundTable.value_scalar_eq_ok {b : BoundTable} {t : ScalarType} {key : String} {c : Bound} :
    b.value (.scalar t) key = .ok c
      ↔ ∃ s v, b.at? key = some (.scalar s) ∧ s.readAs? t = some v ∧ c = .scalar v := by
  unfold BoundTable.value
  cases hb : b.at? key with
  | none => simp
  | some d =>
    cases d with
    | scalar s =>
      cases hs : s.readAs? t with
      | none => simp [ReadType.read?, hs]
      | some v => simp [ReadType.read?, hs, eq_comm]
    | sequence xs => simp [ReadType.read?]
    | table es => simp [ReadType.read?]

/-- **Reading a scalar, and decoding its literal.**  What a table yields as a value of a type is the
scalar at the key, read as that type.  The literal of the scalar decodes, for the type, to the same
value, whatever type has the scalar; but a float that is finite, and infinite on the 32-bit grid,
reads as infinity for `f32` where its literal is out of range. -/
theorem value_and_decode (t : ScalarType) :
    (∀ s v : Scalar, (∃ u : ScalarType, u.Holds s) → s.readAs? t = some v →
        (t.decode s.literal = .ok v ↔ ¬ (t = .f32 ∧ s.BeyondSingle))
          ∧ ∀ x, t = .f32 → s = .float x → s.BeyondSingle →
              v = .float x.narrow ∧ t.decode s.literal = .error (.floatOutOfRange x))
      ∧ ∀ (b : BoundTable) key c, b.value (.scalar t) key = .ok c ↔
          ∃ s v, b.at? key = some (.scalar s) ∧ s.readAs? t = some v ∧ c = .scalar v := by
  refine ⟨fun s v hs h => ⟨Scalar.decode_literal_iff hs h, ?_⟩,
    fun b key c => BoundTable.value_scalar_eq_ok⟩
  rintro x rfl rfl hbeyond
  have hout := (Scalar.beyondSingle_iff hs rfl).1 hbeyond
  refine ⟨(Option.some.inj h).symm, ?_⟩
  rw [Scalar.decode_f32_literal (x := x) rfl, if_pos hout]

/-- the largest whole number of 64 bits is rounded twice, to `2 ^ 64`, either way -/
theorem value_and_decode_largest :
    let s : Scalar := .uint 18446744073709551615
    let v : Scalar := .float (.ofNat 18446744073709551616)
    (ScalarType.unsigned .w64).Holds s ∧ s.readAs? .f32 = some v
      ∧ ScalarType.f32.decode s.literal = .ok v
      ∧ BoundTable.value [("n", .scalar s)] (.scalar .f32) "n" = .ok (.scalar v) := by
  intro s v
  have hholds : (ScalarType.unsigned .w64).Holds s := by
    show Width.holdsUnsigned _ _ = true
    decide
  have hread : s.readAs? .f32 = some v := by decide +kernel
  have hbeyond : ¬ (ScalarType.f32 = .f32 ∧ s.BeyondSingle) := fun h => nomatch h.2
  obtain ⟨hdecode, hvalue⟩ := value_and_decode .f32
  have hfound : BoundTable.at? [("n", .scalar s)] "n" = some (.scalar s) := rfl
  exact ⟨hholds, hread, (hdecode s v ⟨_, hholds⟩ hread).1.2 hbeyond,
    (hvalue _ "n" _).2 ⟨s, v, hfound, hread, rfl⟩⟩

/-- `1e300` is a float, infinite as an `f32`, and no literal of an `f32` -/
theorem readAs?_infinite :
    let s : Scalar := .float (.ofDecimal false ⟨1, 300⟩)
    ScalarType.f64.Holds s ∧ s.literal = "1e300"
      ∧ s.readAs? .f32 = some (.float (.infinity false))
      ∧ ScalarType.f32.decode s.literal ≠ .ok (.float (.infinity false)) := by
  intro s
  have hliteral : s.literal = "1e300" := by decide +kernel
  have hnarrow : (Binary64.ofDecimal false ⟨1, 300⟩).narrow = .infinity false := by decide +kernel
  have hfinite : (Binary64.ofDecimal false ⟨1, 300⟩).isFinite = true := by decide +kernel
  refine ⟨trivial, hliteral, congrArg (fun x => some (Scalar.float x)) hnarrow, ?_⟩
  rw [Scalar.decode_f32_literal (x := .ofDecimal false ⟨1, 300⟩) rfl,
    if_pos ⟨hfinite, by rw [hnarrow]; rfl⟩]
  nofun

end ParamSchema
