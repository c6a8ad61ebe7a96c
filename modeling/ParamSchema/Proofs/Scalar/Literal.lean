import ParamSchema.Proofs.Number.ReadBack
import ParamSchema.Proofs.Param.Lexing
import ParamSchema.Scalar.Decode

/-!
# Literals

What a type has (`ScalarType.Holds`) is what decoding and declaring give, and what is written and
decoded again without a change.

* `holds_of_decode`, `holds_of_readAs?`   nothing else comes out of decoding, or of a default;
* `isLiteral_literal`                     the literal of a scalar is one token;
* `decode_literal`                        and decodes to the scalar, for every type that has it.
-/

namespace ParamSchema

/-! ## the scalars of a type -/

def ScalarType.Holds : ScalarType → Scalar → Prop
  | .bool, .bool _ => True
  | .signed w, .int i => w.holdsSigned i = true
  | .unsigned w, .uint n => w.holdsUnsigned n = true
  | .f32, .float x => x.narrow = x
  | .f64, .float _ => True
  | .string, .string _ => True
  | _, _ => False

section
variable {w : Width} {i : Int} {s : Scalar}

theorem holds_of_ofSigned? (h : Scalar.ofSigned? w i = some s) :
    (ScalarType.signed w).Holds s := by
  unfold Scalar.ofSigned? at h
  split at h
  · rename_i hi
    obtain rfl := Option.some.inj h
    exact hi
  · cases h

theorem holds_of_ofUnsigned? (h : Scalar.ofUnsigned? w i = some s) :
    (ScalarType.unsigned w).Holds s := by
  unfold Scalar.ofUnsigned? at h
  split at h
  · rename_i hi
    obtain rfl := Option.some.inj h
    have hpos : 0 ≤ i := by
      simp only [Width.holdsUnsigned, Bool.and_eq_true, decide_eq_true_eq] at hi
      exact hi.1
    show w.holdsUnsigned (i.toNat : Int) = true
    rw [Int.toNat_of_nonneg hpos]
    exact hi
  · cases h

theorem fit_eq_ok {t : ScalarType} {s? : Option Scalar} : fit t i s? = .ok s ↔ s? = some s := by
  cases s? with
  | none => exact ⟨nofun, nofun⟩
  | some r => exact ⟨fun h => congrArg some (Except.ok.inj h), fun h => Option.some.inj h ▸ rfl⟩

end

theorem holds_of_readAs? {t : ScalarType} {s r : Scalar} (h : s.readAs? t = some r) :
    t.Holds r := by
  cases t with
  | bool =>
    cases s <;> cases h
    trivial
  | string =>
    cases s <;> cases h
    trivial
  | signed w =>
    obtain ⟨i, _, hi⟩ := Option.bind_eq_some_iff.1 h
    exact holds_of_ofSigned? hi
  | unsigned w =>
    obtain ⟨i, _, hi⟩ := Option.bind_eq_some_iff.1 h
    exact holds_of_ofUnsigned? hi
  | f32 =>
    obtain ⟨x, _, rfl⟩ := Option.map_eq_some_iff.1 h
    exact x.narrow_narrow
  | f64 =>
    obtain ⟨x, _, rfl⟩ := Option.map_eq_some_iff.1 h
    trivial

theorem holds_of_decode {t : ScalarType} {text : String} {s : Scalar}
    (h : t.decode text = .ok s) : t.Holds s := by
  rw [ScalarType.decode, ScalarType.decodeChars.eq_def] at h
  cases t with
  | bool =>
    obtain ⟨b, _, rfl⟩ := map_eq_ok.1 h
    trivial
  | string =>
    obtain ⟨b, _, rfl⟩ := map_eq_ok.1 h
    trivial
  | signed w =>
    obtain ⟨i, _, hi⟩ := bind_eq_ok.1 h
    exact holds_of_ofSigned? (fit_eq_ok.1 hi)
  | unsigned w =>
    obtain ⟨i, _, hi⟩ := bind_eq_ok.1 h
    exact holds_of_ofUnsigned? (fit_eq_ok.1 hi)
  | f64 =>
    obtain ⟨x, _, rfl⟩ := map_eq_ok.1 h
    trivial
  | f32 =>
    obtain ⟨x, hx, rfl⟩ := map_eq_ok.1 h
    obtain ⟨y, _, hy⟩ := bind_eq_ok.1 hx
    unfold narrowFloat at hy
    split at hy
    · cases hy
    · obtain rfl := Except.ok.inj hy
      exact y.narrow_narrow

/-! ## one token -/

theorem takeQuoted_escapeChar (c : Char) (rest : List Char) :
    takeQuoted '"' (escapeChar c ++ rest)
      = (takeQuoted '"' rest).map fun (ws, after) => (escapeChar c ++ ws, after) := by
  unfold escapeChar
  split <;> rw [takeQuoted.eq_def] <;> simp_all

theorem takeQuoted_escape (cs rest : List Char) :
    takeQuoted '"' (escape cs ++ '"' :: rest) = some (escape cs ++ ['"'], rest) := by
  induction cs with
  | nil =>
    rw [takeQuoted.eq_def]
    rfl
  | cons c cs ih =>
    rw [escape_cons, List.append_assoc, takeQuoted_escapeChar, ih]
    simp

theorem isQuoteLiteral_quoteChars (cs : List Char) : IsQuoteLiteral (quoteChars cs) :=
  ⟨'"', _, rfl, rfl, takeQuoted_escape cs []⟩

theorem isPlain_of_isNumeral {c : Char} (h : NumberStyle.isNumeral c = true) :
    isPlain c = true := by
  simp only [NumberStyle.isNumeral, Bool.or_eq_true, decide_eq_true_eq] at h
  rcases h with ((h | rfl) | rfl) | rfl
  · simp [isPlain, isNameChar, h]
  · rfl
  · rfl
  · rfl

theorem isPlain_of_mem_toDigits {n : Nat} {c : Char} (h : c ∈ Nat.toDigits 10 n) :
    isPlain c = true := isPlain_of_isNumeral (NumberStyle.isNumeral_of_mem_toDigits h)

theorem toList_toString_nat (n : Nat) : (toString n).toList = Nat.toDigits 10 n := by
  rw [Nat.toString_eq_ofList_toDigits, String.toList_ofList]

theorem toList_toString_int (i : Int) :
    (toString i).toList = (if i < 0 then ['-'] else []) ++ Nat.toDigits 10 i.natAbs := by
  rw [Int.toString_eq_repr, Int.repr_eq_if]
  split
  · rename_i hi
    have habs : i.toNat = i.natAbs := by omega
    rw [if_neg (by omega), Nat.toList_repr, habs]
    rfl
  · rename_i hi
    have habs : (-i).toNat = i.natAbs := by omega
    rw [if_pos (by omega), String.toList_append, Nat.toList_repr, habs]
    rfl

theorem isPlain_of_all {cs : List Char} (h : (!cs.isEmpty && cs.all isPlain) = true) :
    cs ≠ [] ∧ ∀ c ∈ cs, isPlain c = true := by
  simpa using h

/-- the literals that are words consist of plain characters -/
theorem isPlain_of_mem_literal {s : Scalar} (h : ∀ t, s ≠ .string t) :
    s.literal.toList ≠ [] ∧ ∀ c ∈ s.literal.toList, isPlain c = true := by
  cases s with
  | string t => exact absurd rfl (h t)
  | bool b => cases b <;> exact isPlain_of_all rfl
  | uint n =>
    rw [Scalar.literal, toList_toString_nat]
    exact ⟨Nat.toDigits_ne_nil, fun c hc => isPlain_of_mem_toDigits hc⟩
  | int i =>
    rw [Scalar.literal, toList_toString_int]
    refine ⟨by simp [Nat.toDigits_ne_nil], fun c hc => ?_⟩
    rcases List.mem_append.1 hc with hc | hc
    · split at hc
      · obtain rfl := List.mem_singleton.1 hc
        rfl
      · cases hc
    · exact isPlain_of_mem_toDigits hc
  | float x =>
    rw [Scalar.literal]
    cases x with
    | nan => exact isPlain_of_all rfl
    | signed s m =>
      by_cases hinf : m.isInfinite = true
      · rw [NumberStyle.write, String.toList_append, if_pos hinf]
        cases s <;> exact isPlain_of_all rfl
      · obtain ⟨c, cs, hcons, _⟩ :=
          NumberStyle.exists_decimal_eq_cons .literal (m.shortest NumberStyle.literal.tie)
        rw [NumberStyle.literal.toList_write _ _ s hinf, NumberStyle.magnitude]
        refine ⟨by simp [hcons], fun c hc => ?_⟩
        rcases List.mem_append.1 hc with hc | hc
        · split at hc
          · obtain rfl := List.mem_singleton.1 hc
            rfl
          · cases hc
        · refine isPlain_of_isNumeral ((NumberStyle.isNumeral_of_mem_decimal hc).resolve_right ?_)
          exact fun h => absurd h.1 (by decide)

theorem isWord_literal {s : Scalar} (h : ∀ t, s ≠ .string t) : IsWord s.literal.toList := by
  obtain ⟨hne, hplain⟩ := isPlain_of_mem_literal h
  exact isWord_of_isPlain hne hplain

/-- the literal of a scalar is one token -/
theorem isLiteral_literal (s : Scalar) : IsLiteral s.literal.toList := by
  by_cases h : ∃ t, s = .string t
  · obtain ⟨t, rfl⟩ := h
    refine .inr ?_
    rw [Scalar.literal, quote, String.toList_ofList]
    exact isQuoteLiteral_quoteChars t.toList
  · exact .inl (isWord_literal fun t ht => h ⟨t, ht⟩)

/-! ## trimming -/

theorem trimChars_eq_self {cs : List Char} (hfirst : ∀ c ∈ cs.head?, isBlank c = false)
    (hlast : ∀ c ∈ cs.getLast?, isBlank c = false) : trimChars cs = cs := by
  have hdrop : ∀ ds : List Char, (∀ c ∈ ds.head?, isBlank c = false) →
      ds.dropWhile isBlank = ds := by
    intro ds hds
    cases ds with
    | nil => rfl
    | cons c ds => rw [List.dropWhile_cons_of_neg (by simp [hds c rfl])]
  rw [trimChars, hdrop cs hfirst, dropBlankEnd, hdrop _ (by rwa [List.head?_reverse]),
    List.reverse_reverse]

theorem isBlank_of_endsWord {c : Char} (h : endsWord c = false) : isBlank c = false := by
  simp only [endsWord, Bool.or_eq_false_iff] at h
  exact h.1.1.1

/-- a word has nothing to trim -/
theorem trimChars_of_isWord {cs : List Char} (h : IsWord cs) : trimChars cs = cs :=
  trimChars_eq_self (fun c hc => isBlank_of_endsWord (h.plain c (List.mem_of_mem_head? hc)))
    (fun c hc => isBlank_of_endsWord (h.plain c (List.mem_of_getLast? hc)))

theorem quoteOf?_of_isWord {cs : List Char} (h : IsWord cs) : quoteOf? cs = none := by
  cases cs with
  | nil => rfl
  | cons c cs =>
    have hc := h.plain c List.mem_cons_self
    simp only [endsWord, isQuote, Bool.or_eq_false_iff] at hc
    rw [quoteOf?, hc.1.2.1, hc.1.2.2]
    rfl

/-! ## decoding a literal -/

/-- the digits of a number are its magnitude, if 127 bits hold it -/
theorem magnitude?_toDigits {n : Nat} (h : n < Nat.pow 2 127) :
    magnitude? (Nat.toDigits 10 n) = some n := by
  have hdigits : ∀ c ∈ Nat.toDigits 10 n, c.isDigit = true :=
    fun c hc => isDigit_of_mem_toDigits hc
  have hall : (!(Nat.toDigits 10 n).isEmpty && (Nat.toDigits 10 n).all Char.isDigit) = true := by
    simpa [Nat.toDigits_ne_nil] using hdigits
  rw [magnitude?]
  · rw [if_pos hall, Decimal.ofDigits_toDigits, Option.filter_some, if_pos (by simpa using h)]
  · intro hs hcons
    rw [hcons] at hdigits
    exact absurd (hdigits 'x' (List.mem_cons_of_mem _ List.mem_cons_self)) (by decide)
  · intro hs hcons
    rw [hcons] at hdigits
    exact absurd (hdigits 'X' (List.mem_cons_of_mem _ List.mem_cons_self)) (by decide)

theorem signedDigits?_toString {i : Int} (h : i.natAbs < Nat.pow 2 127) :
    signedDigits? (toString i).toList = some i := by
  have hmagnitude := magnitude?_toDigits h
  have hdigits : ∀ c ∈ Nat.toDigits 10 i.natAbs, c.isDigit = true :=
    fun c hc => isDigit_of_mem_toDigits hc
  rw [toList_toString_int]
  split
  · rename_i hneg
    have habs : -(i.natAbs : Int) = i := by omega
    rw [List.singleton_append, signedDigits?, hmagnitude]
    exact congrArg some habs
  · rename_i hpos
    have habs : ((i.natAbs : Nat) : Int) = i := by omega
    rw [List.nil_append, signedDigits?, hmagnitude]
    · exact congrArg some habs
    · intro ds hds
      rw [hds] at hdigits
      exact absurd (hdigits '-' List.mem_cons_self) (by decide)
    · intro ds hds
      rw [hds] at hdigits
      exact absurd (hdigits '+' List.mem_cons_self) (by decide)

theorem decodeInteger_toString {i : Int} (h : i.natAbs < Nat.pow 2 127) :
    decodeInteger (toString i).toList = .ok i := by
  have hword : IsWord (toString i).toList := isWord_literal (s := .int i) nofun
  rw [decodeInteger, integer?, quoteOf?_of_isWord hword, signedDigits?_toString h]
  rfl

theorem natAbs_lt_of_holdsSigned {w : Width} {i : Int} (h : w.holdsSigned i = true) :
    i.natAbs < Nat.pow 2 127 := by
  have hpow : Nat.pow 2 (w.bits - 1) ≤ Nat.pow 2 63 := by cases w <;> decide
  have hbig : Nat.pow 2 63 < Nat.pow 2 127 := by decide
  simp only [Width.holdsSigned, Bool.and_eq_true, decide_eq_true_eq] at h
  omega

theorem lt_of_holdsUnsigned {w : Width} {n : Nat} (h : w.holdsUnsigned n = true) :
    n < Nat.pow 2 127 := by
  have hpow : Nat.pow 2 w.bits ≤ Nat.pow 2 64 := by cases w <;> decide
  have hbig : Nat.pow 2 64 < Nat.pow 2 127 := by decide
  simp only [Width.holdsUnsigned, Bool.and_eq_true, decide_eq_true_eq] at h
  omega

theorem narrowFloat_of_narrow {x : Binary64} (h : x.narrow = x) : narrowFloat x = .ok x := by
  rw [narrowFloat, h, if_neg (by simp [Binary64.isFinite])]

/-- a word that spells a float decodes to it, for every float type that has it -/
theorem decodeChars_of_read? {t : ScalarType} {x : Binary64} {cs : List Char}
    (h : t.Holds (.float x)) (hword : IsWord cs) (hread : Binary64.read? cs = some x) :
    t.decodeChars cs = .ok (.float x) := by
  have hdecode : decodeFloat cs = .ok x := by
    rw [decodeFloat, quoteOf?_of_isWord hword, hread]
    rfl
  cases t with
  | f64 =>
    rw [ScalarType.decodeChars, hdecode]
    rfl
  | f32 =>
    rw [ScalarType.decodeChars, hdecode]
    show (Scalar.float <$> narrowFloat x) = _
    rw [narrowFloat_of_narrow h]
    rfl
  | _ => cases h

theorem trimChars_quoteChars (cs : List Char) : trimChars (quoteChars cs) = quoteChars cs := by
  refine trimChars_eq_self ?_ ?_
  · intro c hc
    obtain rfl := Option.some.inj hc
    rfl
  · intro c hc
    have hlast : (quoteChars cs).getLast? = some '"' := by
      simp [quoteChars, List.getLast?_cons]
    rw [hlast] at hc
    obtain rfl := Option.some.inj hc
    rfl

theorem decode_quote (text : String) :
    ScalarType.string.decode (Scalar.string text).literal = .ok (.string text) := by
  have hchars : (Scalar.string text).literal.toList = quoteChars text.toList := by
    rw [Scalar.literal, quote, String.toList_ofList]
  rw [ScalarType.decode, hchars, trimChars_quoteChars, ScalarType.decodeChars, decodeString,
    quoteOf?_quoteChars, unquoteChars_quoteChars, String.ofList_toList]
  rfl

/-- what is quoted is no boolean and no number -/
theorem decode_quote_of_ne_string {t : ScalarType} (ht : t ≠ .string) (text : String) :
    ∃ e, t.decode (quote text) = .error e := by
  have hchars : trimChars (quote text).toList = quoteChars text.toList := by
    rw [quote, String.toList_ofList, trimChars_quoteChars]
  have hquoted := quoteOf?_quoteChars text.toList
  rw [ScalarType.decode, hchars]
  cases t with
  | string => exact absurd rfl ht
  | bool => exact ⟨_, rfl⟩
  | signed w =>
    rw [ScalarType.decodeChars, decodeInteger, integer?, hquoted]
    exact ⟨_, rfl⟩
  | unsigned w =>
    rw [ScalarType.decodeChars, decodeInteger, integer?, hquoted]
    exact ⟨_, rfl⟩
  | f32 =>
    rw [ScalarType.decodeChars, decodeFloat, hquoted]
    exact ⟨_, rfl⟩
  | f64 =>
    rw [ScalarType.decodeChars, decodeFloat, hquoted]
    exact ⟨_, rfl⟩

/-- the literals that are not quoted have nothing to trim -/
theorem decodeChars_literal {t : ScalarType} {s : Scalar} (h : t.Holds s)
    (hs : ∀ text, s ≠ .string text) : t.decodeChars s.literal.toList = .ok s := by
  cases t with
  | bool =>
    cases s with
    | bool b => cases b <;> rfl
    | _ => cases h
  | string =>
    cases s with
    | string text => exact absurd rfl (hs text)
    | _ => cases h
  | signed w =>
    cases s with
    | int i =>
      have hdecode := decodeInteger_toString (natAbs_lt_of_holdsSigned h)
      have hfit : Scalar.ofSigned? w i = some (.int i) := if_pos h
      rw [ScalarType.decodeChars, Scalar.literal, hdecode]
      exact fit_eq_ok.2 hfit
    | _ => cases h
  | unsigned w =>
    cases s with
    | uint n =>
      have hdecode := decodeInteger_toString (i := (n : Int)) (lt_of_holdsUnsigned h)
      have hfit : Scalar.ofUnsigned? w n = some (.uint n) := if_pos h
      have htext : (toString n).toList = (toString (n : Int)).toList := rfl
      rw [ScalarType.decodeChars, Scalar.literal, htext, hdecode]
      exact fit_eq_ok.2 hfit
    | _ => cases h
  | f64 =>
    cases s with
    | float x => exact decodeChars_of_read? h (isWord_literal hs) (Binary64.read?_literal x)
    | _ => cases h
  | f32 =>
    cases s with
    | float x => exact decodeChars_of_read? h (isWord_literal hs) (Binary64.read?_literal x)
    | _ => cases h

/-- **A scalar that a type has is read back from its literal.** -/
theorem decode_literal {t : ScalarType} {s : Scalar} (h : t.Holds s) :
    t.decode s.literal = .ok s := by
  by_cases hs : ∃ text, s = .string text
  · obtain ⟨text, rfl⟩ := hs
    cases t with
    | string => exact decode_quote text
    | _ => cases h
  · have hnone : ∀ text, s ≠ .string text := fun text ht => hs ⟨text, ht⟩
    rw [ScalarType.decode, trimChars_of_isWord (isWord_literal hnone)]
    exact decodeChars_literal h hnone

end ParamSchema
