import ParamSchema.Proofs.Number.Spelling
import ParamSchema.Proofs.Scalar.Literal

/-!
# Whole numbers in literals

The number that a literal spells (`SpellsNumber`) is rational: an integer in digits, or a decimal
floating literal.  The one that decoding takes for it (`ReadsWhole`) is the integer in digits, but
of a floating literal the float nearest to it.

* `integer?_eq_some_iff`         decoding reads `ReadsWhole`, as far as any type reaches;
* `readsWhole_iff_spellsNumber`  when that is the number spelled: digits always, a floating literal
                                 if its value is a float, or if neither of the two is the integer.
-/

namespace ParamSchema

/-! ## spellings -/

/-- an optional sign; `true` is minus -/
inductive Sign : List Char → Bool → Prop
  | none : Sign [] false
  | plus : Sign ['+'] false
  | minus : Sign ['-'] true

/-- decimal digits, or hexadecimal digits after `0x` -/
inductive SpellsNat : List Char → Nat → Prop
  | decimal {ds : List Char} : ds ≠ [] → IsDigits ds → SpellsNat ds (Decimal.ofDigits ds)
  | hex {x : Char} {hs : List Char} :
      x = 'x' ∨ x = 'X' → hs ≠ [] → (∀ c ∈ hs, isHexDigit c = true) →
      SpellsNat ('0' :: x :: hs) (ofHexDigits hs)

/-- an integer in digits -/
inductive SpellsInt : List Char → Int → Prop
  | mk {sign cs : List Char} {negative : Bool} {n : Nat} :
      Sign sign negative → SpellsNat cs n →
      SpellsInt (sign ++ cs) (if negative then -(n : Int) else n)

/-- a decimal floating literal -/
inductive SpellsFloat : List Char → Bool → Decimal → Prop
  | mk {sign cs : List Char} {negative : Bool} {d : Decimal} :
      Sign sign negative → Decimal.Spells cs d → SpellsFloat (sign ++ cs) negative d

/-- the exact number that a literal spells -/
inductive SpellsNumber : List Char → ℚ → Prop
  | whole {cs : List Char} {i : Int} : SpellsInt cs i → SpellsNumber cs i
  | decimal {cs : List Char} {negative : Bool} {d : Decimal} :
      SpellsFloat cs negative d → SpellsNumber cs (Binary64.withSign negative d.value)

/-- the integer that is read: the one in digits, else the one that a rounded literal is -/
def ReadsWhole (cs : List Char) (i : Int) : Prop :=
  SpellsInt cs i ∨ (∀ j, ¬SpellsInt cs j) ∧
    ∃ negative d, SpellsFloat cs negative d ∧ (Binary64.ofDecimal negative d).value? = some (i : ℚ)

/-! ## the first character -/

/-- a text that starts with a digit or a point -/
def StartsNumber (cs : List Char) : Prop := ∃ c rest, cs = c :: rest ∧ (c.isDigit = true ∨ c = '.')

theorem startsNumber_of_isDigits {ds : List Char} (hne : ds ≠ []) (hds : IsDigits ds)
    (rest : List Char) : StartsNumber (ds ++ rest) := by
  cases ds with
  | nil => exact absurd rfl hne
  | cons c ds => exact ⟨c, ds ++ rest, rfl, .inl (hds c List.mem_cons_self)⟩

theorem startsNumber_of_point {ds : List Char} (hds : IsDigits ds) (rest : List Char) :
    StartsNumber (ds ++ '.' :: rest) := by
  by_cases hne : ds = []
  · subst hne
    exact ⟨'.', rest, rfl, .inr rfl⟩
  · exact startsNumber_of_isDigits hne hds _

theorem SpellsNat.starts {cs : List Char} {n : Nat} (h : SpellsNat cs n) : StartsNumber cs := by
  cases h with
  | decimal hne hds =>
    have hstarts := startsNumber_of_isDigits hne hds []
    rwa [List.append_nil] at hstarts
  | hex => exact ⟨'0', _, rfl, .inl rfl⟩

theorem Decimal.Spells.starts {cs : List Char} {d : Decimal} (h : Spells cs d) :
    StartsNumber cs := by
  cases h with
  | mk hcs _ =>
    cases hcs with
    | whole hne hds => exact startsNumber_of_isDigits hne hds _
    | point _ hds _ =>
      rw [List.append_assoc]
      exact startsNumber_of_point hds _

theorem StartsNumber.ne {cs rest : List Char} {c : Char} (h : StartsNumber cs)
    (hc : c.isDigit = false ∧ c ≠ '.') : cs ≠ c :: rest := by
  rintro rfl
  obtain ⟨a, as, hcons, ha⟩ := h
  obtain ⟨rfl, -⟩ := List.cons.inj hcons
  rcases ha with ha | rfl
  · rw [hc.1] at ha
    cases ha
  · exact hc.2 rfl

/-- a number with its sign is no quoted literal -/
theorem quoteOf?_of_startsNumber {sign cs : List Char} {negative : Bool}
    (hsign : Sign sign negative)
    (h : StartsNumber cs) : quoteOf? (sign ++ cs) = none := by
  have hquote : ∀ (c : Char) (rest : List Char), c ≠ '"' → c ≠ '\'' →
      quoteOf? (c :: rest) = none := by
    intro c rest hdouble hsingle
    simp [quoteOf?, hdouble, hsingle]
  cases hsign with
  | none =>
    obtain ⟨c, rest, rfl, -⟩ := id h
    apply hquote
    · rintro rfl
      exact h.ne ⟨rfl, by decide⟩ rfl
    · rintro rfl
      exact h.ne ⟨rfl, by decide⟩ rfl
  | plus => exact hquote _ _ (by decide) (by decide)
  | minus => exact hquote _ _ (by decide) (by decide)

/-! ## digits -/

theorem allHex_eq_true {hs : List Char} :
    (!hs.isEmpty && hs.all isHexDigit) = true ↔ hs ≠ [] ∧ ∀ c ∈ hs, isHexDigit c = true := by
  simp

/-- decimal digits are not taken for the start of hexadecimal ones -/
theorem IsDigits.ne_hex {ds hs : List Char} {x : Char} (h : IsDigits ds) (hx : x.isDigit = false) :
    ds ≠ '0' :: x :: hs := by
  rintro rfl
  have hdigit := h x (List.mem_cons_of_mem _ List.mem_cons_self)
  rw [hx] at hdigit
  cases hdigit

theorem magnitude?_eq_some_iff {cs : List Char} {n : Nat} :
    magnitude? cs = some n ↔ SpellsNat cs n ∧ n < 2 ^ 127 := by
  constructor
  · intro h
    unfold magnitude? at h
    obtain ⟨hread, hlt⟩ := Option.filter_eq_some_iff.1 h
    have hsize : n < 2 ^ 127 := by simpa using hlt
    refine ⟨?_, hsize⟩
    split at hread
    · split at hread
      · rename_i hhex
        obtain ⟨hne, hhs⟩ := allHex_eq_true.1 hhex
        obtain rfl := Option.some.inj hread
        exact .hex (.inl rfl) hne hhs
      · cases hread
    · split at hread
      · rename_i hhex
        obtain ⟨hne, hhs⟩ := allHex_eq_true.1 hhex
        obtain rfl := Option.some.inj hread
        exact .hex (.inr rfl) hne hhs
      · cases hread
    · split at hread
      · rename_i hds
        obtain ⟨hne, hds⟩ := Decimal.digits_eq_ok.1 hds
        obtain rfl := Option.some.inj hread
        exact .decimal hne hds
      · cases hread
  · rintro ⟨h, hlt⟩
    have hkeep : ∀ n? : Option Nat, n? = some n →
        n?.filter (fun k => decide (k < Nat.pow 2 127)) = some n := by
      rintro _ rfl
      exact Option.filter_eq_some_iff.2 ⟨rfl, by simpa using hlt⟩
    unfold magnitude?
    apply hkeep
    cases h with
    | decimal hne hds =>
      have hall := Decimal.digits_eq_ok.2 ⟨hne, hds⟩
      split
      · exact absurd rfl (hds.ne_hex (x := 'x') rfl)
      · exact absurd rfl (hds.ne_hex (x := 'X') rfl)
      · rw [if_pos hall]
    | hex hx hne hhs =>
      have hall := allHex_eq_true.2 ⟨hne, hhs⟩
      rcases hx with rfl | rfl
      · show (if _ then _ else _) = _
        rw [if_pos hall]
      · show (if _ then _ else _) = _
        rw [if_pos hall]

/-! ## the sign -/

/-- whether a text starts with minus, and what follows the sign -/
def splitSign : List Char → Bool × List Char
  | '-' :: cs => (true, cs)
  | '+' :: cs => (false, cs)
  | cs => (false, cs)

theorem exists_sign (cs : List Char) :
    ∃ sign, Sign sign (splitSign cs).1 ∧ cs = sign ++ (splitSign cs).2 := by
  unfold splitSign
  split
  · exact ⟨['-'], .minus, rfl⟩
  · exact ⟨['+'], .plus, rfl⟩
  · exact ⟨[], .none, rfl⟩

theorem splitSign_of_ne {cs : List Char} (hminus : ∀ rest, cs ≠ '-' :: rest)
    (hplus : ∀ rest, cs ≠ '+' :: rest) : splitSign cs = (false, cs) := by
  rw [splitSign]
  · exact hminus
  · exact hplus

theorem splitSign_append {sign cs : List Char} {negative : Bool} (hsign : Sign sign negative)
    (h : StartsNumber cs) : splitSign (sign ++ cs) = (negative, cs) := by
  cases hsign with
  | plus => rfl
  | minus => rfl
  | none =>
    exact splitSign_of_ne (fun _ => h.ne ⟨rfl, by decide⟩) (fun _ => h.ne ⟨rfl, by decide⟩)

theorem spellsInt_iff {cs : List Char} {i : Int} :
    SpellsInt cs i ↔
      ∃ n : Nat, SpellsNat (splitSign cs).2 n ∧ i = if (splitSign cs).1 then -(n : Int) else n := by
  constructor
  · rintro ⟨hsign, hspells⟩
    rw [splitSign_append hsign hspells.starts]
    exact ⟨_, hspells, rfl⟩
  · rintro ⟨n, hspells, rfl⟩
    obtain ⟨sign, hsign, hcs⟩ := exists_sign cs
    have hmk := SpellsInt.mk hsign hspells
    rwa [← hcs] at hmk

theorem spellsFloat_iff {cs : List Char} {negative : Bool} {d : Decimal} :
    SpellsFloat cs negative d ↔
      negative = (splitSign cs).1 ∧ Decimal.Spells (splitSign cs).2 d := by
  constructor
  · rintro ⟨hsign, hspells⟩
    rw [splitSign_append hsign hspells.starts]
    exact ⟨rfl, hspells⟩
  · rintro ⟨rfl, hspells⟩
    obtain ⟨sign, hsign, hcs⟩ := exists_sign cs
    have hmk := SpellsFloat.mk hsign hspells
    rwa [← hcs] at hmk

theorem signedDigits?_eq (cs : List Char) :
    signedDigits? cs = (magnitude? (splitSign cs).2).map
      fun n : Nat => if (splitSign cs).1 then -(n : Int) else n := by
  unfold signedDigits?
  split
  · rename_i ds
    show _ = (magnitude? ds).map fun n : Nat => -(n : Int)
    cases magnitude? ds <;> rfl
  · rename_i ds
    show _ = (magnitude? ds).map fun n : Nat => (n : Int)
    cases magnitude? ds <;> rfl
  · rename_i hminus hplus
    rw [splitSign_of_ne hminus hplus]
    cases magnitude? cs <;> rfl

theorem Binary64.read?_eq (cs : List Char) :
    read? cs = readMagnitude? (splitSign cs).1 (splitSign cs).2 := by
  unfold read?
  split
  · rfl
  · rfl
  · rename_i hminus hplus
    rw [splitSign_of_ne hminus hplus]

/-- digits are read if 127 bits hold the number -/
theorem signedDigits?_eq_some_iff {cs : List Char} {i : Int} :
    signedDigits? cs = some i ↔ SpellsInt cs i ∧ i.natAbs < 2 ^ 127 := by
  have habs : ∀ (negative : Bool) (n : Nat),
      (if negative then -(n : Int) else n).natAbs = n := by
    intro negative n
    split <;> omega
  rw [signedDigits?_eq, spellsInt_iff, Option.map_eq_some_iff]
  constructor
  · rintro ⟨n, hn, rfl⟩
    obtain ⟨hspells, hlt⟩ := magnitude?_eq_some_iff.1 hn
    exact ⟨⟨n, hspells, rfl⟩, by rwa [habs]⟩
  · rintro ⟨⟨n, hspells, rfl⟩, hlt⟩
    rw [habs] at hlt
    exact ⟨n, magnitude?_eq_some_iff.2 ⟨hspells, hlt⟩, rfl⟩

/-! ## floats -/

theorem Decimal.spells_unique {cs : List Char} {d e : Decimal} (hd : Spells cs d)
    (he : Spells cs e) : d = e :=
  Option.some.inj ((read?_eq_some_iff.2 hd).symm.trans (read?_eq_some_iff.2 he))

theorem Decimal.not_spells_hex {hs : List Char} {x : Char} {d : Decimal} (hx : x = 'x' ∨ x = 'X') :
    ¬Spells ('0' :: x :: hs) d := by
  intro h
  have hread := read?_eq_some_iff.2 h
  rcases hx with rfl | rfl <;> cases hread

/-- digits and a floating literal spell the same number, where a text is both -/
theorem withSign_value_of_spellsInt {cs : List Char} {j : Int} {negative : Bool} {d : Decimal}
    (hint : SpellsInt cs j) (hfloat : SpellsFloat cs negative d) :
    Binary64.withSign negative d.value = j := by
  obtain ⟨n, hn, rfl⟩ := spellsInt_iff.1 hint
  obtain ⟨rfl, hd⟩ := spellsFloat_iff.1 hfloat
  have hvalue : d.value = n := by
    generalize (splitSign cs).2 = ds at hn hd
    cases hn with
    | hex hx => exact absurd hd (Decimal.not_spells_hex hx)
    | decimal hne hds =>
      have hwhole := Decimal.Spells.mk (.whole hne hds) .one
      rw [List.append_nil] at hwhole
      obtain rfl := Decimal.spells_unique hd hwhole
      simp [Decimal.value, Decimal.ofParts]
  rw [hvalue, Binary64.withSign]
  split <;> simp

/-- the magnitude of a float that is an integer is the absolute value of the integer -/
theorem Binary64.value_eq_natAbs {negative : Bool} {m : Magnitude} {i : Int}
    (h : (Binary64.signed negative m).value? = some (i : ℚ)) : m.value = i.natAbs := by
  rw [value?] at h
  split at h
  · cases h
  · exact eq_natAbs_of_withSign m.value_nonneg (Option.some.inj h)

theorem integerLimit_le : 1149 * 2 ^ 52 ≤ integerLimit.index := by decide +kernel

/-- what is read of a float is the integer that the float is, if it is one -/
theorem spellsFloat_of_wholeFloat? {cs : List Char} {i : Int} (h : wholeFloat? cs = some i) :
    ∃ negative d, SpellsFloat cs negative d ∧
      (Binary64.ofDecimal negative d).value? = some (i : ℚ) := by
  unfold wholeFloat? at h
  split at h
  · rename_i s m hread
    split at h
    · rename_i hlimit
      rw [Binary64.read?_eq, Binary64.readMagnitude?] at hread
      split at hread
      · rename_i d hd
        have hfloat := Option.some.inj hread
        refine ⟨_, d, spellsFloat_iff.2 ⟨rfl, Decimal.read?_eq_some_iff.1 hd⟩, ?_⟩
        rw [hfloat]
        exact Binary64.toInt?_eq_some_iff.1 h
      · split at hread
        · have hinf : m.index = BinaryFormat.double.top := by
            cases hread
            rfl
          have hle := integerLimit.index_le
          omega
        · split at hread <;> cases hread
    · cases h
  · cases h

/-- and every such float is read, if it is not too large -/
theorem wholeFloat?_of_spellsFloat {cs : List Char} {i : Int} {negative : Bool} {d : Decimal}
    (h : SpellsFloat cs negative d) (hi : (Binary64.ofDecimal negative d).value? = some (i : ℚ))
    (hsmall : i.natAbs < 2 ^ 126) : wholeFloat? cs = some i := by
  obtain ⟨rfl, hd⟩ := spellsFloat_iff.1 h
  have hread : Binary64.read? cs = some (.ofDecimal (splitSign cs).1 d) := by
    rw [Binary64.read?_eq, Binary64.readMagnitude?, Decimal.read?_eq_some_iff.2 hd]
  rw [Binary64.ofDecimal] at hread hi
  generalize Magnitude.ofIndex (BinaryFormat.double.ofDecimal d) = m at hread hi
  have hlimit : m.index < integerLimit.index := by
    by_contra hge
    have hlarge : (126 + 1023) * 2 ^ 52 ≤ m.index :=
      Nat.le_trans integerLimit_le (Nat.le_of_not_lt hge)
    have hvalue := Magnitude.two_pow_le_value hlarge
    rw [Binary64.value_eq_natAbs hi] at hvalue
    have habs : 2 ^ 126 ≤ i.natAbs := by exact_mod_cast hvalue
    omega
  rw [wholeFloat?, hread]
  show (if _ then _ else _) = _
  rw [if_pos hlimit]
  exact Binary64.toInt?_eq_some_iff.2 hi

/-- digits that are too many for the integer reader are too many for the float reader -/
theorem not_spellsInt_of_value {cs : List Char} {i j : Int} {negative : Bool} {d : Decimal}
    (hfloat : SpellsFloat cs negative d)
    (hi : (Binary64.ofDecimal negative d).value? = some (i : ℚ)) (hsmall : i.natAbs < 2 ^ 126)
    (hlarge : 2 ^ 127 ≤ j.natAbs) : ¬SpellsInt cs j := by
  intro hint
  have hvalue : d.value = j.natAbs :=
    Binary64.eq_natAbs_of_withSign d.value_nonneg (withSign_value_of_spellsInt hint hfloat)
  have hd : (2 : ℚ) ^ 127 ≤ d.value := by
    rw [hvalue]
    exact_mod_cast hlarge
  have hm := Binary64.two_pow_le_of_ofDecimal negative rfl (by decide) hd
  rw [Binary64.value_eq_natAbs hi] at hm
  have habs : 2 ^ 127 ≤ i.natAbs := by exact_mod_cast hm
  omega

/-! ## decoding -/

theorem quoteOf?_of_spellsInt {cs : List Char} {i : Int} (h : SpellsInt cs i) :
    quoteOf? cs = none := by
  cases h with
  | mk hsign hn => exact quoteOf?_of_startsNumber hsign hn.starts

theorem quoteOf?_of_spellsFloat {cs : List Char} {negative : Bool} {d : Decimal}
    (h : SpellsFloat cs negative d) : quoteOf? cs = none := by
  cases h with
  | mk hsign hd => exact quoteOf?_of_startsNumber hsign hd.starts

theorem integer?_eq_of_quoteOf? {cs : List Char} (h : quoteOf? cs = none) :
    integer? cs = (signedDigits? cs).or (wholeFloat? cs) := by
  rw [integer?, h]
  rfl

/-- as far as any type reaches, decoding reads `ReadsWhole` -/
theorem integer?_eq_some_iff {cs : List Char} {i : Int} (hsmall : i.natAbs < 2 ^ 126) :
    integer? cs = some i ↔ ReadsWhole cs i := by
  constructor
  · intro h
    unfold integer? at h
    split at h
    · cases h
    · rcases Option.or_eq_some_iff.1 h with hdigits | ⟨hdigits, hfloat⟩
      · exact .inl (signedDigits?_eq_some_iff.1 hdigits).1
      · obtain ⟨negative, d, hspells, hi⟩ := spellsFloat_of_wholeFloat? hfloat
        refine .inr ⟨fun j hj => ?_, negative, d, hspells, hi⟩
        have hlarge : 2 ^ 127 ≤ j.natAbs := by
          by_contra hlt
          rw [signedDigits?_eq_some_iff.2 ⟨hj, Nat.lt_of_not_le hlt⟩] at hdigits
          cases hdigits
        exact not_spellsInt_of_value hspells hi hsmall hlarge hj
  · rintro (hint | ⟨hnone, negative, d, hspells, hi⟩)
    · have hdigits := signedDigits?_eq_some_iff.2 ⟨hint, Nat.lt_trans hsmall (by decide)⟩
      rw [integer?_eq_of_quoteOf? (quoteOf?_of_spellsInt hint), hdigits, Option.some_or]
    · have hdigits : signedDigits? cs = none := by
        by_contra hsome
        obtain ⟨j, hj⟩ := Option.ne_none_iff_exists'.1 hsome
        exact hnone j (signedDigits?_eq_some_iff.1 hj).1
      rw [integer?_eq_of_quoteOf? (quoteOf?_of_spellsFloat hspells), hdigits, Option.none_or]
      exact wholeFloat?_of_spellsFloat hspells hi hsmall

/-- the signed or the unsigned type of a width -/
def ScalarType.integer (signed : Bool) (w : Width) : ScalarType :=
  if signed then .signed w else .unsigned w

/-- the integers of such a type -/
def Width.holds (signed : Bool) (w : Width) (i : Int) : Bool :=
  if signed then w.holdsSigned i else w.holdsUnsigned i

def Scalar.integer (signed : Bool) (i : Int) : Scalar := if signed then .int i else .uint i.toNat

theorem Width.natAbs_lt_of_holds {signed : Bool} {w : Width} {i : Int}
    (h : w.holds signed i = true) : i.natAbs < 2 ^ 126 := by
  cases signed with
  | true =>
    have hpow : Nat.pow 2 (w.bits - 1) ≤ Nat.pow 2 63 := by cases w <;> decide
    have hbig : Nat.pow 2 63 < 2 ^ 126 := by decide
    have hi : w.holdsSigned i = true := h
    simp only [Width.holdsSigned, Bool.and_eq_true, decide_eq_true_eq] at hi
    omega
  | false =>
    have hpow : Nat.pow 2 w.bits ≤ Nat.pow 2 64 := by cases w <;> decide
    have hbig : Nat.pow 2 64 < 2 ^ 126 := by decide
    have hi : w.holdsUnsigned i = true := h
    simp only [Width.holdsUnsigned, Bool.and_eq_true, decide_eq_true_eq] at hi
    omega

theorem decodeInteger_eq_ok {cs : List Char} {i : Int} :
    decodeInteger cs = .ok i ↔ integer? cs = some i := by
  rw [decodeInteger]
  cases integer? cs with
  | none => simp
  | some j => simp

theorem ofSigned?_eq_some_iff {w : Width} {i : Int} {s : Scalar} :
    Scalar.ofSigned? w i = some s ↔ w.holdsSigned i = true ∧ s = .int i := by
  rw [Scalar.ofSigned?, Option.ite_none_right_eq_some, Option.some.injEq, eq_comm (b := s)]

theorem ofUnsigned?_eq_some_iff {w : Width} {i : Int} {s : Scalar} :
    Scalar.ofUnsigned? w i = some s ↔ w.holdsUnsigned i = true ∧ s = .uint i.toNat := by
  rw [Scalar.ofUnsigned?, Option.ite_none_right_eq_some, Option.some.injEq, eq_comm (b := s)]

theorem decodeChars_integer_eq_ok {signed : Bool} {w : Width} {cs : List Char} {s : Scalar} :
    (ScalarType.integer signed w).decodeChars cs = .ok s ↔
      ∃ i, integer? cs = some i ∧ w.holds signed i = true ∧ s = .integer signed i := by
  cases signed with
  | true =>
    show (decodeInteger cs >>= fun i => fit _ i (Scalar.ofSigned? w i)) = .ok s ↔ _
    rw [bind_eq_ok]
    refine exists_congr fun i => ?_
    rw [decodeInteger_eq_ok, fit_eq_ok, ofSigned?_eq_some_iff]
    rfl
  | false =>
    show (decodeInteger cs >>= fun i => fit _ i (Scalar.ofUnsigned? w i)) = .ok s ↔ _
    rw [bind_eq_ok]
    refine exists_congr fun i => ?_
    rw [decodeInteger_eq_ok, fit_eq_ok, ofUnsigned?_eq_some_iff]
    rfl

/-- a text as an integer type reads it -/
theorem decode_integer_eq_ok {signed : Bool} {w : Width} {text : String} {s : Scalar} :
    (ScalarType.integer signed w).decode text = .ok s ↔
      ∃ i, w.holds signed i = true ∧ s = .integer signed i ∧
        ReadsWhole (trimChars text.toList) i := by
  rw [ScalarType.decode, decodeChars_integer_eq_ok]
  constructor
  · rintro ⟨i, hi, hholds, rfl⟩
    exact ⟨i, hholds, rfl, (integer?_eq_some_iff (Width.natAbs_lt_of_holds hholds)).1 hi⟩
  · rintro ⟨i, hholds, rfl, hi⟩
    exact ⟨i, (integer?_eq_some_iff (Width.natAbs_lt_of_holds hholds)).2 hi, hholds, rfl⟩

/-! ## exactness -/

/-- a decimal whose value is a float is read as its value -/
theorem value?_ofDecimal_of_value_eq (negative : Bool) {d : Decimal} {m : Magnitude}
    (hm : m.isInfinite = false) (h : d.value = m.value) :
    (Binary64.ofDecimal negative d).value? = some (Binary64.withSign negative d.value) := by
  rw [Binary64.ofDecimal_of_value_eq negative h, Binary64.value?, hm, h]
  rfl

/-- conversely, what is read as its value is a float -/
theorem exists_value_eq {negative : Bool} {d : Decimal} {q : ℚ}
    (hread : (Binary64.ofDecimal negative d).value? = some q)
    (hvalue : Binary64.withSign negative d.value = q) :
    ∃ m : Magnitude, m.isInfinite = false ∧ d.value = m.value := by
  rw [Binary64.ofDecimal, Binary64.value?] at hread
  generalize Magnitude.ofIndex (BinaryFormat.double.ofDecimal d) = m at hread
  split at hread
  · cases hread
  · rename_i hm
    refine ⟨m, by simpa using hm, ?_⟩
    have hboth := hvalue.trans (Option.some.inj hread).symm
    unfold Binary64.withSign at hboth
    split at hboth
    · exact neg_inj.1 hboth
    · exact hboth

theorem spellsFloat_unique {cs : List Char} {m n : Bool} {d e : Decimal}
    (hd : SpellsFloat cs m d) (he : SpellsFloat cs n e) : m = n ∧ d = e := by
  obtain ⟨hm, hd⟩ := spellsFloat_iff.1 hd
  obtain ⟨hn, he⟩ := spellsFloat_iff.1 he
  exact ⟨hm.trans hn.symm, Decimal.spells_unique hd he⟩

theorem spellsNumber_iff {cs : List Char} {q : ℚ} :
    SpellsNumber cs q ↔ (∃ i : Int, SpellsInt cs i ∧ q = i) ∨
      ∃ negative d, SpellsFloat cs negative d ∧ q = Binary64.withSign negative d.value := by
  constructor
  · rintro (h | h)
    · exact .inl ⟨_, h, rfl⟩
    · exact .inr ⟨_, _, h, rfl⟩
  · rintro (⟨i, h, rfl⟩ | ⟨negative, d, h, rfl⟩)
    · exact .whole h
    · exact .decimal h

section
variable {cs : List Char} {negative : Bool} {d : Decimal}

theorem readsWhole_iff_of_spellsFloat (hfloat : SpellsFloat cs negative d)
    (hnone : ∀ j, ¬SpellsInt cs j) {i : Int} :
    ReadsWhole cs i ↔ (Binary64.ofDecimal negative d).value? = some (i : ℚ) := by
  constructor
  · rintro (hint | ⟨-, _, _, hfloat', hi⟩)
    · exact absurd hint (hnone i)
    · obtain ⟨rfl, rfl⟩ := spellsFloat_unique hfloat hfloat'
      exact hi
  · intro hi
    exact .inr ⟨hnone, negative, d, hfloat, hi⟩

theorem spellsNumber_iff_of_spellsFloat (hfloat : SpellsFloat cs negative d)
    (hnone : ∀ j, ¬SpellsInt cs j) {q : ℚ} :
    SpellsNumber cs q ↔ Binary64.withSign negative d.value = q := by
  rw [spellsNumber_iff]
  constructor
  · rintro (⟨i, hint, -⟩ | ⟨_, _, hfloat', rfl⟩)
    · exact absurd hint (hnone i)
    · obtain ⟨rfl, rfl⟩ := spellsFloat_unique hfloat hfloat'
      rfl
  · rintro rfl
    exact .inr ⟨negative, d, hfloat, rfl⟩

/-- digits are read as the number that they spell -/
theorem readsWhole_iff_of_spellsInt {j : Int} (hint : SpellsInt cs j) {i : Int} :
    ReadsWhole cs i ↔ SpellsNumber cs (i : ℚ) := by
  constructor
  · rintro (hi | ⟨hnone, -⟩)
    · exact .whole hi
    · exact absurd hint (hnone j)
  · rintro h
    rcases spellsNumber_iff.1 h with ⟨k, hk, hik⟩ | ⟨negative, d, hfloat, hi⟩
    · rw [Int.cast_injective hik]
      exact .inl hk
    · have hij : (i : ℚ) = j := hi.trans (withSign_value_of_spellsInt hint hfloat)
      rw [Int.cast_injective hij]
      exact .inl hint

end

/-- an integer is read just where it is spelled, unless a floating literal that has it for its value
or for its float is no float itself -/
theorem readsWhole_iff_spellsNumber {cs : List Char} {i : Int} :
    (ReadsWhole cs i ↔ SpellsNumber cs (i : ℚ)) ↔
      ∀ negative d, SpellsFloat cs negative d → (∀ j, ¬SpellsInt cs j) →
        Binary64.withSign negative d.value = i ∨
          (Binary64.ofDecimal negative d).value? = some (i : ℚ) →
        ∃ m : Magnitude, m.isInfinite = false ∧ d.value = m.value := by
  constructor
  · intro h negative d hfloat hnone hor
    rw [readsWhole_iff_of_spellsFloat hfloat hnone,
      spellsNumber_iff_of_spellsFloat hfloat hnone] at h
    rcases hor with hvalue | hread
    · exact exists_value_eq (h.2 hvalue) hvalue
    · exact exists_value_eq hread (h.1 hread)
  · intro h
    by_cases hint : ∃ j, SpellsInt cs j
    · obtain ⟨j, hint⟩ := hint
      exact readsWhole_iff_of_spellsInt hint
    have hnone : ∀ j, ¬SpellsInt cs j := fun j hj => hint ⟨j, hj⟩
    by_cases hfloat : ∃ negative d, SpellsFloat cs negative d
    · obtain ⟨negative, d, hfloat⟩ := hfloat
      have hgrid := h negative d hfloat hnone
      rw [readsWhole_iff_of_spellsFloat hfloat hnone, spellsNumber_iff_of_spellsFloat hfloat hnone]
      constructor
      · intro hread
        obtain ⟨m, hm, hd⟩ := hgrid (.inr hread)
        rw [value?_ofDecimal_of_value_eq negative hm hd] at hread
        exact Option.some.inj hread
      · intro hvalue
        obtain ⟨m, hm, hd⟩ := hgrid (.inl hvalue)
        rw [value?_ofDecimal_of_value_eq negative hm hd, hvalue]
    · constructor
      · rintro (hi | ⟨-, negative, d, hd, -⟩)
        · exact absurd hi (hnone i)
        · exact absurd ⟨negative, d, hd⟩ hfloat
      · intro h
        rcases spellsNumber_iff.1 h with ⟨k, hk, -⟩ | ⟨negative, d, hd, -⟩
        · exact absurd hk (hnone k)
        · exact absurd ⟨negative, d, hd⟩ hfloat

/-- decoding takes the literals of the integers of a type, and each for the number that it spells -/
def DecodesExactly (signed : Bool) (w : Width) (text : String) : Prop :=
  ∀ s, (ScalarType.integer signed w).decode text = .ok s ↔
    ∃ i, w.holds signed i = true ∧ s = .integer signed i ∧
      SpellsNumber (trimChars text.toList) (i : ℚ)

theorem Scalar.integer_inj {signed : Bool} {w : Width} {i j : Int} (hi : w.holds signed i = true)
    (hj : w.holds signed j = true) (h : Scalar.integer signed i = Scalar.integer signed j) :
    i = j := by
  cases signed with
  | true =>
    have hij : Scalar.int i = Scalar.int j := h
    exact Scalar.int.inj hij
  | false =>
    have hij : Scalar.uint i.toNat = Scalar.uint j.toNat := h
    have hi : w.holdsUnsigned i = true := hi
    have hj : w.holdsUnsigned j = true := hj
    have hnat := Scalar.uint.inj hij
    simp only [Width.holdsUnsigned, Bool.and_eq_true, decide_eq_true_eq] at hi hj
    omega

theorem decodesExactly_iff {signed : Bool} {w : Width} {text : String} :
    DecodesExactly signed w text ↔ ∀ i, w.holds signed i = true →
      (ReadsWhole (trimChars text.toList) i ↔ SpellsNumber (trimChars text.toList) (i : ℚ)) := by
  constructor
  · intro h i hi
    have hboth := decode_integer_eq_ok.symm.trans (h (.integer signed i))
    constructor
    · intro hread
      obtain ⟨j, hj, hij, hspells⟩ := hboth.1 ⟨i, hi, rfl, hread⟩
      rwa [Scalar.integer_inj hi hj hij]
    · intro hspells
      obtain ⟨j, hj, hij, hread⟩ := hboth.2 ⟨i, hi, rfl, hspells⟩
      rwa [Scalar.integer_inj hi hj hij]
  · intro h s
    rw [decode_integer_eq_ok]
    refine exists_congr fun i => ?_
    constructor
    · rintro ⟨hi, hs, hread⟩
      exact ⟨hi, hs, (h i hi).1 hread⟩
    · rintro ⟨hi, hs, hspells⟩
      exact ⟨hi, hs, (h i hi).2 hspells⟩

/-- **What an integer type makes of a literal.**  Digits are read exactly.  A floating literal is
rounded first, which is exact if its value is a float, as whole numbers of at most 53 bits are; and
if neither its value nor the float is an integer of the type, which is then an error. -/
theorem decode_integer_exact_iff (signed : Bool) (w : Width) (text : String) :
    (∀ s, (ScalarType.integer signed w).decode text = .ok s ↔
      ∃ i, w.holds signed i = true ∧ s = .integer signed i ∧
        ReadsWhole (trimChars text.toList) i) ∧
    (DecodesExactly signed w text ↔
      ∀ negative d i, SpellsFloat (trimChars text.toList) negative d →
        (∀ j, ¬SpellsInt (trimChars text.toList) j) → w.holds signed i = true →
        Binary64.withSign negative d.value = i ∨
          (Binary64.ofDecimal negative d).value? = some (i : ℚ) →
        ∃ m : Magnitude, m.isInfinite = false ∧ d.value = m.value) ∧
    ∀ i, w.holds signed i = true → i.natAbs < 2 ^ 53 →
      SpellsNumber (trimChars text.toList) (i : ℚ) →
      (ScalarType.integer signed w).decode text = .ok (.integer signed i) := by
  refine ⟨fun s => decode_integer_eq_ok, ?_, ?_⟩
  · rw [decodesExactly_iff]
    constructor
    · intro h negative d i hfloat hnone hi hor
      exact readsWhole_iff_spellsNumber.1 (h i hi) negative d hfloat hnone hor
    · intro h i hi
      refine readsWhole_iff_spellsNumber.2 fun negative d hfloat hnone hor => ?_
      exact h negative d i hfloat hnone hi hor
  · intro i hi hsmall hspells
    refine decode_integer_eq_ok.2 ⟨i, hi, rfl, readsWhole_iff_spellsNumber.2 ?_ |>.2 hspells⟩
    intro negative d hfloat hnone _
    have hvalue := (spellsNumber_iff_of_spellsFloat hfloat hnone).1 hspells
    obtain ⟨m, hm, habs⟩ := Magnitude.exists_value_eq_of_lt hsmall
    exact ⟨m, hm, (Binary64.eq_natAbs_of_withSign d.value_nonneg hvalue).trans habs.symm⟩

/-- `2 ^ 53 + 1` is no float, and a literal of it with a point is taken for `2 ^ 53` -/
theorem decode_integer_rounds :
    SpellsNumber (trimChars "9007199254740993.0".toList) ((9007199254740993 : Int) : ℚ) ∧
      (ScalarType.integer true .w64).decode "9007199254740993.0" = .ok (.int 9007199254740992) ∧
      ¬DecodesExactly true .w64 "9007199254740993.0" := by
  have hspells :
      SpellsNumber (trimChars "9007199254740993.0".toList) ((9007199254740993 : Int) : ℚ) := by
    have hfloat : SpellsFloat (trimChars "9007199254740993.0".toList) false
        ⟨90071992547409930, -1⟩ :=
      spellsFloat_iff.2 ⟨by decide +kernel, Decimal.read?_eq_some_iff.1 (by decide +kernel)⟩
    have hvalue : Binary64.withSign false (Decimal.value ⟨90071992547409930, -1⟩)
        = ((9007199254740993 : Int) : ℚ) := by
      norm_num [Binary64.withSign, Decimal.value]
    exact hvalue ▸ .decimal hfloat
  have hdecode : (ScalarType.integer true .w64).decode "9007199254740993.0"
      = .ok (.int 9007199254740992) := by decide +kernel
  refine ⟨hspells, hdecode, fun hexact => ?_⟩
  have hread := (hexact (.integer true 9007199254740993)).2
    ⟨9007199254740993, by decide, rfl, hspells⟩
  rw [hdecode] at hread
  cases hread

end ParamSchema
