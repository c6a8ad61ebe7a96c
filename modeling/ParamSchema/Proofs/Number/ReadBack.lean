import ParamSchema.Number.Notation
import ParamSchema.Proofs.Number.Grid

/-!
# A written float reads back

The shortest decimal of a magnitude rounds to it (`ofDecimal_shortest`), every style writes a
decimal so that it reads as one of the same value (`read?_decimal`), and so a finite float is read
back from its text in every style (`read?_write`), and every float from its literal, NaN and the
infinities included (`read?_literal`).
-/

namespace ParamSchema

/-! ## the shortest decimal -/

theorem double_fraction_dvd_top : 2 ^ BinaryFormat.double.fraction ∣ BinaryFormat.double.top :=
  ⟨2047, Nat.mul_comm _ _⟩

theorem ofDecimal_strip (d : Decimal) :
    BinaryFormat.double.ofDecimal d.strip = BinaryFormat.double.ofDecimal d := by
  fun_induction Decimal.strip d with
  | case1 d h ih =>
    obtain ⟨n, e⟩ := d
    have hn : n = n / 10 * 10 ^ 1 := by
      have hmod : n % 10 = 0 := h.2
      omega
    rw [ih]
    show BinaryFormat.double.ofDecimal ⟨n / 10, e + 1⟩ = BinaryFormat.double.ofDecimal ⟨n, e⟩
    conv_rhs => rw [hn]
    exact (BinaryFormat.ofDecimal_mul_pow _ double_fraction_dvd_top (n / 10) e 1).symm
  | case2 d h => rfl

namespace Magnitude

theorem index_eq_zero_of_units {m : Magnitude} (h : m.units = 0) : m.index = 0 := by
  have hindex := BinaryFormat.indexOf_units BinaryFormat.double m.index_le
  have hunits : BinaryFormat.double.units m.index = 0 := h
  rw [hunits] at hindex
  rw [← hindex]
  exact BinaryFormat.indexOf_eq_zero _ (by decide)

/-- a decimal that the search stops at reads back -/
theorem readsBack_of_onGrid? {m : Magnitude} {tie : Tie} {a b : Nat} {e : Int} {d : Decimal}
    (h : m.onGrid? tie a b e = some d) : m.readsBack d = true := by
  rw [onGrid?] at h
  split at h
  · cases h
  · rename_i hbelow _
    obtain rfl := Option.some.inj h
    exact (Bool.and_eq_true_iff.1 hbelow).2
  · rename_i habove
    obtain rfl := Option.some.inj h
    exact habove
  · rename_i hbelow habove
    have hboth := (Bool.and_eq_true_iff.1 hbelow).2
    split at h
    · obtain rfl := Option.some.inj h
      exact hboth
    · obtain rfl := Option.some.inj h
      exact habove
    · split at h
      · obtain rfl := Option.some.inj h
        exact hboth
      · obtain rfl := Option.some.inj h
        exact habove

/-- the exact decimal of a magnitude reads back -/
theorem ofDecimal_exactDecimal (m : Magnitude) :
    BinaryFormat.double.ofDecimal m.exactDecimal = m.index := by
  have h := BinaryFormat.ofDecimal_units _ double_fraction_dvd_top m.units
  exact h.trans (BinaryFormat.indexOf_units _ m.index_le)

theorem ofDecimal_shortest (m : Magnitude) (tie : Tie) :
    BinaryFormat.double.ofDecimal (m.shortest tie) = m.index := by
  unfold shortest
  split
  · rename_i hzero
    rw [index_eq_zero_of_units hzero, BinaryFormat.ofDecimal, if_pos rfl]
  · rw [ofDecimal_strip]
    cases hhit : (List.range 17).findSome? fun n : Nat =>
        m.onGrid? tie m.units unitsPerOne (leadingExponent m.units unitsPerOne - n) with
    | none => exact ofDecimal_exactDecimal m
    | some d =>
      obtain ⟨n, _, hn⟩ := List.exists_of_findSome?_eq_some hhit
      have hback := readsBack_of_onGrid? hn
      rw [readsBack, beq_iff_eq] at hback
      exact hback

end Magnitude

/-! ## runs of digits -/

/-- a text that a run of digits in front of it does not go on into -/
def EndsDigits (cs : List Char) : Prop := ∀ c ∈ cs.head?, c.isDigit = false

theorem endsDigits_nil : EndsDigits [] := nofun

theorem takeWhile_isDigit_append {ds rest : List Char} (hds : ∀ c ∈ ds, c.isDigit = true)
    (hrest : EndsDigits rest) : (ds ++ rest).takeWhile Char.isDigit = ds := by
  rw [List.takeWhile_append_of_pos hds]
  cases rest with
  | nil => simp
  | cons c cs => simp [hrest c rfl]

theorem dropWhile_isDigit_append {ds rest : List Char} (hds : ∀ c ∈ ds, c.isDigit = true)
    (hrest : EndsDigits rest) : (ds ++ rest).dropWhile Char.isDigit = rest := by
  rw [List.dropWhile_append_of_pos hds]
  cases rest with
  | nil => rfl
  | cons c cs => simp [hrest c rfl]

theorem isDigit_of_mem_toDigits {n : Nat} {c : Char} (h : c ∈ Nat.toDigits 10 n) :
    c.isDigit = true := Nat.isDigit_of_mem_toDigits (by decide) (by decide) h

namespace Decimal

variable {whole fraction rest ds : List Char}

theorem ofDigits_toDigits (n : Nat) : ofDigits (Nat.toDigits 10 n) = n :=
  Nat.ofDigitChars_ten_toDigits

theorem ofDigits_append_zeros (ds : List Char) (k : Nat) :
    ofDigits (ds ++ List.replicate k '0') = ofDigits ds * 10 ^ k := by
  rw [ofDigits, Nat.ofDigitChars_append, Nat.ofDigitChars_replicate_zero, Nat.mul_comm]
  rfl

theorem ofDigits_zeros_append (k : Nat) (ds : List Char) :
    ofDigits (List.replicate k '0' ++ ds) = ofDigits ds := by
  rw [ofDigits, Nat.ofDigitChars_append, Nat.ofDigitChars_replicate_zero, Nat.mul_zero]
  rfl

/-! ## reading the written forms -/

theorem read?_point (hwhole : ∀ c ∈ whole, c.isDigit = true) (hne : whole ≠ [])
    (hfraction : ∀ c ∈ fraction, c.isDigit = true) (hrest : EndsDigits rest) :
    read? (whole ++ '.' :: (fraction ++ rest))
      = (readScale? rest).map (ofParts whole fraction) := by
  have hpoint : EndsDigits ('.' :: (fraction ++ rest)) := by
    intro c hc
    obtain rfl := Option.some.inj hc
    rfl
  have hempty : whole.isEmpty = false := by simpa using hne
  simp only [read?, takeWhile_isDigit_append hwhole hpoint, dropWhile_isDigit_append hwhole hpoint,
    takeWhile_isDigit_append hfraction hrest, dropWhile_isDigit_append hfraction hrest, hempty,
    Bool.false_and]
  rfl

theorem read?_whole (hwhole : ∀ c ∈ whole, c.isDigit = true) (hne : whole ≠ [])
    (hrest : EndsDigits rest) (hpoint : rest.head? ≠ some '.') :
    read? (whole ++ rest) = (readScale? rest).map (ofParts whole []) := by
  have hempty : whole.isEmpty = false := by simpa using hne
  simp only [read?, takeWhile_isDigit_append hwhole hrest, dropWhile_isDigit_append hwhole hrest,
    hempty, Bool.false_and, Bool.false_eq_true, if_false]
  split
  · exact absurd rfl hpoint
  · rfl

theorem readExponent?_digits (hds : ∀ c ∈ ds, c.isDigit = true) (hne : ds ≠ []) :
    readExponent? ds = some (ofDigits ds : Int) := by
  have hall : (!ds.isEmpty && ds.all Char.isDigit) = true := by
    simpa [hne] using hds
  unfold readExponent?
  split
  · exact absurd (hds '-' List.mem_cons_self) (by decide)
  · exact absurd (hds '+' List.mem_cons_self) (by decide)
  · rw [if_pos hall]

end Decimal

namespace NumberStyle

variable {ds : List Char}

theorem isDigit_of_mem_zeros {k : Nat} {c : Char} (hc : c ∈ List.replicate k '0') :
    c.isDigit = true := by
  rw [List.eq_of_mem_replicate hc]
  rfl

/-- zeros that lead change nothing -/
theorem read?_leading (hds : ∀ c ∈ ds, c.isDigit = true) (k : Nat) :
    Decimal.read? ('0' :: '.' :: (List.replicate k '0' ++ ds))
      = some ⟨Decimal.ofDigits ds, -((k + ds.length : Nat) : Int)⟩ := by
  have hfraction : ∀ c ∈ List.replicate k '0' ++ ds, c.isDigit = true := by
    intro c hc
    exact (List.mem_append.1 hc).elim isDigit_of_mem_zeros (hds c)
  have hzero : ∀ c ∈ ['0'], c.isDigit = true := List.forall_mem_singleton.2 rfl
  have hread := Decimal.read?_point hzero (List.cons_ne_nil _ _) hfraction endsDigits_nil
  rw [List.append_nil] at hread
  have hdigits : Decimal.ofDigits (['0'] ++ (List.replicate k '0' ++ ds)) = Decimal.ofDigits ds :=
    Decimal.ofDigits_zeros_append (k + 1) ds
  refine hread.trans ?_
  rw [Decimal.readScale?, Option.map_some, Decimal.ofParts, hdigits, Option.some.injEq,
    Decimal.mk.injEq, List.length_append, List.length_replicate]
  exact ⟨rfl, by omega⟩

/-- zeros that follow are those of a power of ten, one more if a place after the point is kept -/
theorem read?_trailing (keepPoint : Bool) (hds : ∀ c ∈ ds, c.isDigit = true) (hne : ds ≠ [])
    (k : Nat) :
    Decimal.read? (ds ++ List.replicate k '0' ++ (if keepPoint then ['.', '0'] else []))
      = some ⟨Decimal.ofDigits ds * 10 ^ (k + keepPoint.toNat), -(keepPoint.toNat : Int)⟩ := by
  have hwhole : ∀ c ∈ ds ++ List.replicate k '0', c.isDigit = true := by
    intro c hc
    exact (List.mem_append.1 hc).elim (hds c) isDigit_of_mem_zeros
  have hwne : ds ++ List.replicate k '0' ≠ [] := by simp [hne]
  cases keepPoint with
  | true =>
    have hzero : ∀ c ∈ ['0'], c.isDigit = true := List.forall_mem_singleton.2 rfl
    have hread := Decimal.read?_point hwhole hwne hzero endsDigits_nil
    rw [List.append_nil] at hread
    have hdigits : Decimal.ofDigits (ds ++ List.replicate k '0' ++ ['0'])
        = Decimal.ofDigits ds * 10 ^ (k + 1) := by
      rw [List.append_assoc, ← List.replicate_succ']
      exact Decimal.ofDigits_append_zeros ds _
    refine hread.trans ?_
    rw [Decimal.readScale?, Option.map_some, Decimal.ofParts, hdigits, Option.some.injEq,
      Decimal.mk.injEq, List.length_singleton]
    exact ⟨rfl, rfl⟩
  | false =>
    have hread := Decimal.read?_whole hwhole hwne endsDigits_nil nofun
    refine hread.trans ?_
    rw [Decimal.readScale?, Option.map_some, Decimal.ofParts, List.append_nil,
      Decimal.ofDigits_append_zeros, Option.some.injEq, Decimal.mk.injEq, List.length_nil]
    exact ⟨rfl, rfl⟩

/-- a point between digits moves the exponent -/
theorem read?_between (hds : ∀ c ∈ ds, c.isDigit = true) {n : Nat} (hpos : 0 < n)
    (hlt : n < ds.length) :
    Decimal.read? (ds.take n ++ '.' :: ds.drop n)
      = some ⟨Decimal.ofDigits ds, (n : Int) - ds.length⟩ := by
  have hwhole : ∀ c ∈ ds.take n, c.isDigit = true := fun c hc => hds c (List.mem_of_mem_take hc)
  have hfraction : ∀ c ∈ ds.drop n, c.isDigit = true :=
    fun c hc => hds c (List.mem_of_mem_drop hc)
  have hwne : ds.take n ≠ [] := by
    rw [Ne, List.take_eq_nil_iff, not_or]
    exact ⟨hpos.ne', List.ne_nil_of_length_pos (Nat.zero_lt_of_lt hlt)⟩
  have hread := Decimal.read?_point hwhole hwne hfraction endsDigits_nil
  rw [List.append_nil] at hread
  refine hread.trans ?_
  rw [Decimal.readScale?, Option.map_some, Decimal.ofParts, List.take_append_drop,
    Option.some.injEq, Decimal.mk.injEq, List.length_drop]
  exact ⟨rfl, by omega⟩

theorem read?_writePositional (keepPoint : Bool) (hds : ∀ c ∈ ds, c.isDigit = true) (hne : ds ≠ [])
    (point : Int) :
    ∃ k : Nat, Decimal.read? (writePositional keepPoint ds point)
      = some ⟨Decimal.ofDigits ds * 10 ^ k, point - ds.length - k⟩ := by
  have hlen : 0 < ds.length := List.length_pos_iff.2 hne
  unfold writePositional
  split
  · refine ⟨0, (read?_leading hds _).trans ?_⟩
    rw [Option.some.injEq, Decimal.mk.injEq]
    exact ⟨(Nat.mul_one _).symm, by omega⟩
  · split
    · refine ⟨point.toNat - ds.length + keepPoint.toNat,
        (read?_trailing keepPoint hds hne _).trans ?_⟩
      rw [Option.some.injEq, Decimal.mk.injEq]
      exact ⟨rfl, by omega⟩
    · refine ⟨0, (read?_between hds (by omega) (by omega)).trans ?_⟩
      rw [Option.some.injEq, Decimal.mk.injEq]
      exact ⟨(Nat.mul_one _).symm, by omega⟩

theorem readScale?_exponent (signedExponent : Bool) (e : Int) :
    Decimal.readScale? ('e' :: ((if e < 0 then ['-'] else if signedExponent then ['+'] else [])
      ++ Nat.toDigits 10 e.natAbs)) = some e := by
  have hdigits : ∀ c ∈ Nat.toDigits 10 e.natAbs, c.isDigit = true :=
    fun c hc => isDigit_of_mem_toDigits hc
  have hread := Decimal.readExponent?_digits hdigits Nat.toDigits_ne_nil
  have hall : (!(Nat.toDigits 10 e.natAbs).isEmpty && (Nat.toDigits 10 e.natAbs).all Char.isDigit)
      = true := by
    simpa [Nat.toDigits_ne_nil] using fun c hc => isDigit_of_mem_toDigits hc
  rw [Decimal.readScale?, if_pos (by decide)]
  split
  · rename_i hneg
    rw [List.singleton_append, Decimal.readExponent?, if_pos hall, Decimal.ofDigits_toDigits]
    exact congrArg some (by omega)
  · rename_i hpos
    have habs : ((e.natAbs : Nat) : Int) = e := by omega
    cases signedExponent with
    | true =>
      rw [if_pos rfl, List.singleton_append, Decimal.readExponent?, if_pos hall,
        Decimal.ofDigits_toDigits, habs]
    | false => rw [if_neg nofun, List.nil_append, hread, Decimal.ofDigits_toDigits, habs]

theorem read?_writeScientific (signedExponent : Bool) (hds : ∀ c ∈ ds, c.isDigit = true)
    (hne : ds ≠ []) (e : Int) :
    Decimal.read? (writeScientific signedExponent ds e)
      = some ⟨Decimal.ofDigits ds, e + 1 - ds.length⟩ := by
  have hscale := readScale?_exponent signedExponent e
  have hends : EndsDigits ('e' :: ((if e < 0 then ['-'] else if signedExponent then ['+'] else [])
      ++ Nat.toDigits 10 e.natAbs)) := by
    intro c hc
    obtain rfl := Option.some.inj hc
    rfl
  obtain ⟨d, ds, rfl⟩ := List.exists_cons_of_ne_nil hne
  obtain ⟨hd, hds⟩ := List.forall_mem_cons.1 hds
  have hwhole : ∀ c ∈ [d], c.isDigit = true := by simpa using hd
  cases ds with
  | nil =>
    have hread := Decimal.read?_whole hwhole (List.cons_ne_nil _ _) hends nofun
    rw [hscale, Option.map_some, Decimal.ofParts] at hread
    refine hread.trans ?_
    rw [Option.some.injEq, Decimal.mk.injEq]
    exact ⟨rfl, by simp⟩
  | cons d' ds =>
    have hread := Decimal.read?_point hwhole (List.cons_ne_nil _ _) hds hends
    rw [hscale, Option.map_some, Decimal.ofParts] at hread
    refine hread.trans ?_
    rw [Option.some.injEq, Decimal.mk.injEq]
    exact ⟨rfl, by simp⟩

/-- in every style a decimal is written so that it reads as one of the same value -/
theorem read?_decimal (style : NumberStyle) (d : Decimal) :
    ∃ k : Nat, Decimal.read? (style.decimal d) = some ⟨d.digits * 10 ^ k, d.exponent - k⟩ := by
  have hds : ∀ c ∈ Nat.toDigits 10 d.digits, c.isDigit = true :=
    fun c hc => isDigit_of_mem_toDigits hc
  have hne : Nat.toDigits 10 d.digits ≠ [] := Nat.toDigits_ne_nil
  rw [decimal]
  split
  · obtain ⟨k, hk⟩ := read?_writePositional style.keepPoint hds hne
      (d.exponent + (Nat.toDigits 10 d.digits).length - 1 + 1)
    refine ⟨k, hk.trans ?_⟩
    rw [Decimal.ofDigits_toDigits, Option.some.injEq, Decimal.mk.injEq]
    exact ⟨rfl, by omega⟩
  · have hk := read?_writeScientific style.signedExponent hds hne
      (d.exponent + (Nat.toDigits 10 d.digits).length - 1)
    refine ⟨0, hk.trans ?_⟩
    rw [Decimal.ofDigits_toDigits, Option.some.injEq, Decimal.mk.injEq]
    exact ⟨(Nat.mul_one _).symm, by omega⟩

/-! ## the characters of a written decimal -/

/-- the characters of numbers: digits, the point, the mark of an exponent, the minus sign -/
def isNumeral (c : Char) : Bool := c.isDigit || c = '.' || c = 'e' || c = '-'

theorem isNumeral_of_isDigit {c : Char} (h : c.isDigit = true) : isNumeral c = true := by
  simp [isNumeral, h]

theorem isNumeral_of_mem_toDigits {n : Nat} {c : Char} (h : c ∈ Nat.toDigits 10 n) :
    isNumeral c = true := isNumeral_of_isDigit (isDigit_of_mem_toDigits h)

theorem isNumeral_of_mem_writePositional {keepPoint : Bool} (hds : ∀ c ∈ ds, c.isDigit = true)
    {point : Int} {c : Char} (h : c ∈ writePositional keepPoint ds point) :
    isNumeral c = true := by
  have hzero : ∀ k, c ∈ List.replicate k '0' → isNumeral c = true := by
    intro k hc
    rw [List.eq_of_mem_replicate hc]
    rfl
  have hdigit : c ∈ ds → isNumeral c = true := fun hc => isNumeral_of_isDigit (hds c hc)
  unfold writePositional at h
  split at h
  · simp only [List.mem_cons, List.mem_append] at h
    rcases h with rfl | rfl | h | h
    · rfl
    · rfl
    · exact hzero _ h
    · exact hdigit h
  · split at h
    · simp only [List.mem_append] at h
      rcases h with (h | h) | h
      · exact hdigit h
      · exact hzero _ h
      · split at h
        · simp only [List.mem_cons, List.not_mem_nil, or_false] at h
          rcases h with rfl | rfl <;> rfl
        · cases h
    · simp only [List.mem_append, List.mem_cons] at h
      rcases h with h | rfl | h
      · exact hdigit (List.mem_of_mem_take h)
      · rfl
      · exact hdigit (List.mem_of_mem_drop h)

theorem isNumeral_of_mem_writeScientific {signedExponent : Bool}
    (hds : ∀ c ∈ ds, c.isDigit = true) {e : Int} {c : Char}
    (h : c ∈ writeScientific signedExponent ds e) :
    isNumeral c = true ∨ signedExponent = true ∧ c = '+' := by
  have hdigit : c ∈ ds → isNumeral c = true := fun hc => isNumeral_of_isDigit (hds c hc)
  simp only [writeScientific, List.mem_append, List.mem_cons] at h
  rcases h with h | rfl | h | h
  · left
    split at h
    · exact hdigit h
    · rcases List.mem_cons.1 h with rfl | h
      · exact hdigit List.mem_cons_self
      · rcases List.mem_cons.1 h with rfl | h
        · rfl
        · exact hdigit (List.mem_cons_of_mem _ h)
    · cases h
  · exact .inl rfl
  · split at h
    · obtain rfl := List.mem_singleton.1 h
      exact .inl rfl
    · split at h
      · rename_i hsigned
        exact .inr ⟨hsigned, List.mem_singleton.1 h⟩
      · cases h
  · exact .inl (isNumeral_of_mem_toDigits h)

theorem isNumeral_of_mem_decimal {style : NumberStyle} {d : Decimal} {c : Char}
    (h : c ∈ style.decimal d) : isNumeral c = true ∨ style.signedExponent = true ∧ c = '+' := by
  have hds : ∀ c ∈ Nat.toDigits 10 d.digits, c.isDigit = true :=
    fun c hc => isDigit_of_mem_toDigits hc
  rw [decimal] at h
  split at h
  · exact .inl (isNumeral_of_mem_writePositional hds h)
  · exact isNumeral_of_mem_writeScientific hds h

theorem exists_decimal_eq_cons (style : NumberStyle) (d : Decimal) :
    ∃ c cs, style.decimal d = c :: cs ∧ c.isDigit = true := by
  have hds : ∀ c ∈ Nat.toDigits 10 d.digits, c.isDigit = true :=
    fun c hc => isDigit_of_mem_toDigits hc
  have hne : Nat.toDigits 10 d.digits ≠ [] := Nat.toDigits_ne_nil
  obtain ⟨c, cs, hcons⟩ := List.exists_cons_of_ne_nil hne
  rw [hcons] at hds
  have hc := hds c List.mem_cons_self
  rw [decimal, hcons]
  split
  · unfold writePositional
    split
    · exact ⟨'0', _, rfl, rfl⟩
    · rename_i hpoint
      split
      · exact ⟨c, _, rfl, hc⟩
      · obtain ⟨k, hk⟩ := Nat.exists_eq_succ_of_ne_zero
          (n := (d.exponent + (c :: cs).length - 1 + 1).toNat) (by omega)
        rw [hk]
        exact ⟨c, _, rfl, hc⟩
  · cases cs with
    | nil => exact ⟨c, _, rfl, hc⟩
    | cons c' cs => exact ⟨c, _, rfl, hc⟩

/-- a number that is not infinite is its sign and its magnitude -/
theorem toList_write (style : NumberStyle) (nan infinity : String) (negative : Bool)
    {m : Magnitude} (h : ¬ m.isInfinite = true) :
    (style.write nan infinity (.signed negative m)).toList
      = (if negative then ['-'] else []) ++ style.magnitude m := by
  have hsign : (if negative = true then "-" else "").toList = if negative then ['-'] else [] := by
    cases negative <;> rfl
  rw [write, if_neg h, String.toList_append, String.toList_ofList, hsign]

end NumberStyle

/-! ## floats -/

namespace Binary64

theorem isFinite_signed {negative : Bool} {m : Magnitude} :
    (signed negative m).isFinite = true ↔ ¬ m.isInfinite = true := by
  simp [isFinite, isNaN, isInfinite]

theorem ofIndex_index (m : Magnitude) : Magnitude.ofIndex m.index = m := by
  cases m with
  | mk i hi => simp only [Magnitude.ofIndex, Nat.min_eq_right hi]

/-- a decimal of the same value as the shortest one reads as the magnitude -/
theorem ofDecimal_of_shortest (negative : Bool) (m : Magnitude) (tie : Tie) (k : Nat) :
    ofDecimal negative ⟨(m.shortest tie).digits * 10 ^ k, (m.shortest tie).exponent - k⟩
      = .signed negative m := by
  have hindex := m.ofDecimal_shortest tie
  generalize m.shortest tie = d at hindex ⊢
  obtain ⟨n, e⟩ := d
  rw [ofDecimal, BinaryFormat.ofDecimal_mul_pow _ double_fraction_dvd_top, Int.sub_add_cancel,
    hindex, ofIndex_index]

theorem readMagnitude?_magnitude (style : NumberStyle) (negative : Bool) (m : Magnitude) :
    readMagnitude? negative (style.magnitude m) = some (.signed negative m) := by
  obtain ⟨k, hk⟩ := NumberStyle.read?_decimal style (m.shortest style.tie)
  rw [readMagnitude?, NumberStyle.magnitude, hk]
  exact congrArg some (ofDecimal_of_shortest negative m style.tie k)

theorem eq_infinity_of_isInfinite {m : Magnitude} (h : m.isInfinite = true) : m = .infinity := by
  cases m with
  | mk i hi =>
    rw [Magnitude.isInfinite, beq_iff_eq] at h
    subst h
    rfl

/-- a finite number is read back from its text in every style -/
theorem read?_write (style : NumberStyle) (nan infinity : String) {x : Binary64}
    (hx : x.isFinite = true) : read? (style.write nan infinity x).toList = some x := by
  cases x with
  | nan => cases hx
  | signed s m =>
    have hread := readMagnitude?_magnitude style s m
    rw [style.toList_write nan infinity s (isFinite_signed.1 hx)]
    cases s with
    | true =>
      rw [if_pos rfl, List.singleton_append, read?]
      exact hread
    | false =>
      obtain ⟨c, cs, hcons, hc⟩ := style.exists_decimal_eq_cons (m.shortest style.tie)
      rw [if_neg nofun, List.nil_append]
      rw [NumberStyle.magnitude, hcons] at hread ⊢
      rw [read?]
      · exact hread
      · intro ds hds
        rw [(List.cons.inj hds).1] at hc
        exact absurd hc (by decide)
      · intro ds hds
        rw [(List.cons.inj hds).1] at hc
        exact absurd hc (by decide)

/-- **The literal of a float reads as that float.** -/
theorem read?_literal (x : Binary64) :
    read? (NumberStyle.literal.write "nan" "infinity" x).toList = some x := by
  by_cases hx : x.isFinite = true
  · exact read?_write .literal "nan" "infinity" hx
  · cases x with
    | nan => decide
    | signed s m =>
      have hinf : m.isInfinite = true := by rwa [isFinite_signed, not_not] at hx
      obtain rfl := eq_infinity_of_isInfinite hinf
      cases s <;> decide

end Binary64
end ParamSchema
