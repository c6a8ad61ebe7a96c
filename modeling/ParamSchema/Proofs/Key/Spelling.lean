import ParamSchema.Proofs.Number.ReadBack
import ParamSchema.Proofs.Param.Grammar
import Mathlib.Data.List.Induction
import Mathlib.Data.List.TakeWhile

/-!
# Keys and the paths they spell

A key is read as a path exactly if it spells the path (`pathOf?_eq_some_iff`): the texts of the
segments one after the other, a dot before each name but the first, and each index between
brackets, where zeros and one plus may stand in front of it.  A name never holds a dot or an opening
bracket, so that a key spells one path at most.

* `Segment.Spelled`   what a segment may look like behind another;
* `Spells`            what a path may look like;
* `MalformedPart`     parts of a key that spell nothing, by what is wrong with them.
-/

namespace ParamSchema

/-- a name that stays one segment in a key -/
structure IsPathName (k : String) : Prop where
  nonempty : k ≠ ""
  undotted : '.' ∉ k.toList
  unindexed : '[' ∉ k.toList

/-! ## texts that end at a kind of character -/

section
variable {p : Char → Bool} {as bs xs ys : List Char}

theorem takeWhile_append_of_stop (ha : ∀ c ∈ as, p c = true) (hx : ∀ c ∈ xs.head?, p c = false) :
    (as ++ xs).takeWhile p = as := by
  rw [List.takeWhile_append_of_pos ha]
  cases xs with
  | nil => simp
  | cons c xs => simp [hx c rfl]

/-- what ends at the same kind of character ends at the same place -/
theorem append_inj_of_stop (ha : ∀ c ∈ as, p c = true) (hb : ∀ c ∈ bs, p c = true)
    (hx : ∀ c ∈ xs.head?, p c = false) (hy : ∀ c ∈ ys.head?, p c = false)
    (h : as ++ xs = bs ++ ys) : as = bs ∧ xs = ys := by
  have hsame : as = bs := by
    rw [← takeWhile_append_of_stop ha hx, h, takeWhile_append_of_stop hb hy]
  exact ⟨hsame, List.append_cancel_left (hsame ▸ h)⟩

end

/-! ## indices -/

/-- the number in decimal, behind any number of zeros and at most one plus -/
def SpellsIndex (ds : List Char) (i : Nat) : Prop :=
  ∃ (plus : Bool) (zeros : Nat),
    ds = (if plus then ['+'] else []) ++ (List.replicate zeros '0' ++ Nat.toDigits 10 i)

theorem SpellsIndex.toDigits (i : Nat) : SpellsIndex (Nat.toDigits 10 i) i := ⟨false, 0, rfl⟩

theorem digitChar_of_isDigit {c : Char} (h : c.isDigit = true) :
    Nat.digitChar (c.toNat - '0'.toNat) = c ∧ c.toNat - '0'.toNat < 10 := by
  obtain ⟨hlow, hhigh⟩ := Char.isDigit_iff_toNat.1 h
  have hzero : '0'.toNat = 48 := rfl
  have hnine : '9'.toNat = 57 := rfl
  have hlt : c.toNat - '0'.toNat < 10 := by omega
  refine ⟨Char.toNat_inj.1 ?_, hlt⟩
  rw [Nat.toNat_digitChar_of_lt_ten hlt]
  omega

/-- digits are the number they spell, behind zeros -/
theorem exists_zeros_append_toDigits {ds : List Char} (hne : ds ≠ [])
    (h : ∀ c ∈ ds, c.isDigit = true) :
    ∃ zeros, ds = List.replicate zeros '0' ++ Nat.toDigits 10 (Decimal.ofDigits ds) := by
  induction ds using List.reverseRecOn with
  | nil => exact absurd rfl hne
  | append_singleton xs c ih =>
    obtain ⟨hxs, hc⟩ := List.forall_mem_append.1 h
    obtain ⟨hchar, hlt⟩ := digitChar_of_isDigit (hc c (List.mem_singleton_self c))
    have hvalue : Decimal.ofDigits (xs ++ [c])
        = 10 * Decimal.ofDigits xs + (c.toNat - '0'.toNat) := by
      rw [Decimal.ofDigits, Nat.ofDigitChars_append, Nat.ofDigitChars_cons, Nat.ofDigitChars_nil]
      rfl
    have hlast : Nat.toDigits 10 (c.toNat - '0'.toNat) = [c] := by
      rw [Nat.toDigits_of_lt_base hlt, hchar]
    rw [hvalue]
    by_cases hxne : xs = []
    · subst hxne
      refine ⟨0, ?_⟩
      have hzero : Decimal.ofDigits [] = 0 := rfl
      rw [hzero, Nat.mul_zero, Nat.zero_add, hlast]
      rfl
    · obtain ⟨zeros, hzeros⟩ := ih hxne hxs
      rcases Nat.eq_zero_or_pos (Decimal.ofDigits xs) with hzero | hpos
      · refine ⟨zeros + 1, ?_⟩
        rw [hzero, Nat.toDigits_zero] at hzeros
        rw [hzero, Nat.mul_zero, Nat.zero_add, hlast, List.replicate_succ', ← hzeros]
      · refine ⟨zeros, ?_⟩
        rw [← Nat.toDigits_append_toDigits (by decide) hpos hlt, hlast, ← List.append_assoc,
          ← hzeros]

theorem SpellsIndex.ofDigits {ds : List Char} {i : Nat} (h : SpellsIndex ds i) :
    ∃ (plus : Bool) (es : List Char), ds = (if plus then ['+'] else []) ++ es ∧ es ≠ []
      ∧ (∀ c ∈ es, c.isDigit = true) ∧ Decimal.ofDigits es = i := by
  obtain ⟨plus, zeros, rfl⟩ := h
  refine ⟨plus, _, rfl, ?_, ?_, ?_⟩
  · exact List.append_ne_nil_of_right_ne_nil _ Nat.toDigits_ne_nil
  · refine List.forall_mem_append.2 ⟨fun c hc => ?_, fun c hc => isDigit_of_mem_toDigits hc⟩
    rw [List.eq_of_mem_replicate hc]
    rfl
  · rw [Decimal.ofDigits_zeros_append, Decimal.ofDigits_toDigits]

/-- no bracket and no dot is part of an index -/
theorem SpellsIndex.isDigit_or_plus {ds : List Char} {i : Nat} (h : SpellsIndex ds i) :
    ∀ c ∈ ds, c.isDigit = true ∨ c = '+' := by
  obtain ⟨plus, es, rfl, _, hes, _⟩ := h.ofDigits
  refine List.forall_mem_append.2 ⟨fun c hc => ?_, fun c hc => .inl (hes c hc)⟩
  cases plus with
  | true => exact .inr (List.mem_singleton.1 hc)
  | false => cases hc

theorem SpellsIndex.not_mem {ds : List Char} {i : Nat} (h : SpellsIndex ds i) :
    ']' ∉ ds ∧ '[' ∉ ds ∧ '.' ∉ ds := by
  have hplain := h.isDigit_or_plus
  refine ⟨fun hc => ?_, fun hc => ?_, fun hc => ?_⟩ <;> exact absurd (hplain _ hc) (by decide)

theorem SpellsIndex.ne_nil {ds : List Char} {i : Nat} (h : SpellsIndex ds i) : ds ≠ [] := by
  obtain ⟨plus, es, rfl, hne, _⟩ := h.ofDigits
  exact List.append_ne_nil_of_right_ne_nil _ hne

/-- an index is one number -/
theorem SpellsIndex.unique {ds : List Char} {i j : Nat} (hi : SpellsIndex ds i)
    (hj : SpellsIndex ds j) : i = j := by
  obtain ⟨plus, es, rfl, _, hes, rfl⟩ := hi.ofDigits
  obtain ⟨plus', es', hsame, _, hes', rfl⟩ := hj.ofDigits
  have hplus : ∀ {cs : List Char}, (∀ c ∈ cs, c.isDigit = true) → ∀ ds, cs ≠ ['+'] ++ ds := by
    rintro _ hcs ds rfl
    exact absurd (hcs '+' List.mem_cons_self) (by decide)
  cases plus with
  | true =>
    cases plus' with
    | true => rw [List.append_cancel_left hsame]
    | false => exact absurd hsame.symm (hplus hes' es)
  | false =>
    cases plus' with
    | true => exact absurd hsame (hplus hes es')
    | false => rw [List.append_cancel_left hsame]

/-- a closing bracket says where an index ends -/
theorem SpellsIndex.append_inj {ds es xs ys : List Char} {i j : Nat} (hd : SpellsIndex ds i)
    (he : SpellsIndex es j) (h : ds ++ ']' :: xs = es ++ ']' :: ys) : ds = es ∧ xs = ys := by
  have hplain : ∀ {cs : List Char}, ']' ∉ cs → ∀ c ∈ cs, decide (c ≠ ']') = true :=
    fun hcs c hc => decide_eq_true fun hclose => hcs (hclose ▸ hc)
  have hstop : ∀ {cs : List Char}, ∀ c ∈ (']' :: cs).head?, decide (c ≠ ']') = false := by
    intro cs c hc
    obtain rfl := Option.some.inj hc
    rfl
  obtain ⟨hsame, htail⟩ := append_inj_of_stop (hplain hd.not_mem.1) (hplain he.not_mem.1) hstop
    hstop h
  exact ⟨hsame, (List.cons.inj htail).2⟩

theorem index?_of_digits {es : List Char} (hne : es ≠ []) (hes : ∀ c ∈ es, c.isDigit = true)
    (plus : Bool) : index? ((if plus then ['+'] else []) ++ es)
      = if Decimal.ofDigits es < Nat.pow 2 64 then some (Decimal.ofDigits es) else none := by
  have hdigits : (!es.isEmpty && es.all Char.isDigit) = true := by
    simpa [hne] using hes
  cases plus with
  | true =>
    show index? ('+' :: es) = _
    unfold index?
    exact if_pos hdigits
  | false =>
    obtain ⟨c, cs, rfl⟩ := List.exists_cons_of_ne_nil hne
    have hc : c ≠ '+' := by
      rintro rfl
      exact absurd (hes '+' List.mem_cons_self) (by decide)
    show index? (c :: cs) = _
    unfold index?
    split
    · rename_i heq
      exact absurd (List.cons.inj heq).1 hc
    · exact if_pos hdigits

/-- what is read as an index -/
theorem index?_eq_some_iff {ds : List Char} {i : Nat} :
    index? ds = some i ↔ SpellsIndex ds i ∧ i < Nat.pow 2 64 := by
  constructor
  · intro h
    have hread : ∀ (plus : Bool) (es : List Char), ds = (if plus then ['+'] else []) ++ es →
        (!es.isEmpty && es.all Char.isDigit) = true → SpellsIndex ds i ∧ i < Nat.pow 2 64 := by
      rintro plus es rfl hdigits
      simp only [Bool.and_eq_true, Bool.not_eq_true', List.isEmpty_eq_false_iff,
        List.all_eq_true] at hdigits
      obtain ⟨hne, hes⟩ := hdigits
      rw [index?_of_digits hne hes] at h
      split at h
      · rename_i hlt
        obtain rfl := Option.some.inj h
        obtain ⟨zeros, hzeros⟩ := exists_zeros_append_toDigits hne hes
        exact ⟨⟨plus, zeros, by rw [← hzeros]⟩, hlt⟩
      · cases h
    unfold index? at h
    split at h
    · rename_i es
      by_cases hdigits : (!es.isEmpty && es.all Char.isDigit) = true
      · exact hread true es rfl hdigits
      · rw [if_neg hdigits] at h
        cases h
    · by_cases hdigits : (!ds.isEmpty && ds.all Char.isDigit) = true
      · exact hread false ds rfl hdigits
      · rw [if_neg hdigits] at h
        cases h
  · rintro ⟨h, hlt⟩
    obtain ⟨plus, es, rfl, hne, hes, rfl⟩ := h.ofDigits
    rw [index?_of_digits hne hes, if_pos hlt]

theorem index?_eq_none_of_large {ds : List Char} {i : Nat} (h : SpellsIndex ds i)
    (hlarge : Nat.pow 2 64 ≤ i) : index? ds = none := by
  obtain ⟨plus, es, rfl, hne, hes, rfl⟩ := h.ofDigits
  rw [index?_of_digits hne hes, if_neg (Nat.not_lt.2 hlarge)]

/-! ## segments -/

/-- the text of a segment behind another -/
inductive Segment.Spelled : Segment → List Char → Prop
  | name {k : String} : IsPathName k → Spelled (.name k) ('.' :: k.toList)
  | index {ds : List Char} {i : Nat} : SpellsIndex ds i → Spelled (.index i) ('[' :: (ds ++ [']']))

/-- the texts of segments, one after the other -/
def SpelledOut (ss : List Segment) (cs : List Char) : Prop :=
  ∃ texts, List.Forall₂ Segment.Spelled ss texts ∧ cs = texts.flatten

/-- the key is the text of the path without the dot in front of its first name -/
def Spells (key : String) (path : List Segment) : Prop :=
  (∃ k ss, path = .name k :: ss) ∧ SpelledOut path ('.' :: key.toList)

theorem SpelledOut.nil : SpelledOut [] [] := ⟨[], .nil, rfl⟩

theorem spelledOut_nil {cs : List Char} : SpelledOut [] cs ↔ cs = [] := by
  constructor
  · rintro ⟨texts, htexts, rfl⟩
    rw [List.forall₂_nil_left_iff.1 htexts]
    rfl
  · rintro rfl
    exact .nil

theorem spelledOut_cons {s : Segment} {ss : List Segment} {cs : List Char} :
    SpelledOut (s :: ss) cs ↔ ∃ as bs, s.Spelled as ∧ SpelledOut ss bs ∧ cs = as ++ bs := by
  constructor
  · rintro ⟨texts, htexts, rfl⟩
    obtain ⟨as, rest, has, hrest, rfl⟩ := List.forall₂_cons_left_iff.1 htexts
    exact ⟨as, rest.flatten, has, ⟨rest, hrest, rfl⟩, List.flatten_cons⟩
  · rintro ⟨as, bs, has, ⟨rest, hrest, rfl⟩, rfl⟩
    exact ⟨as :: rest, .cons has hrest, List.flatten_cons.symm⟩

theorem SpelledOut.append {ss ts : List Segment} {cs ds : List Char} (hs : SpelledOut ss cs)
    (ht : SpelledOut ts ds) : SpelledOut (ss ++ ts) (cs ++ ds) := by
  obtain ⟨xs, hxs, rfl⟩ := hs
  obtain ⟨ys, hys, rfl⟩ := ht
  exact ⟨xs ++ ys, List.rel_append hxs hys, List.flatten_append.symm⟩

theorem spelledOut_index {i : Nat} {is : List Nat} {cs : List Char} :
    SpelledOut ((i :: is).map .index) cs ↔
      ∃ ds bs, SpellsIndex ds i ∧ SpelledOut (is.map .index) bs
        ∧ cs = '[' :: (ds ++ ']' :: bs) := by
  rw [List.map_cons, spelledOut_cons]
  constructor
  · rintro ⟨as, bs, has, hbs, rfl⟩
    cases has with
    | index hds => exact ⟨_, bs, hds, hbs, by simp⟩
  · rintro ⟨ds, bs, hds, hbs, rfl⟩
    exact ⟨_, bs, .index hds, hbs, by simp⟩

/-! ## where a segment ends -/

/-- nothing, or another segment -/
def StartsSegment (cs : List Char) : Prop := ∀ c ∈ cs.head?, c = '.' ∨ c = '['

theorem StartsSegment.append {xs ys : List Char} (hx : StartsSegment xs) (hy : StartsSegment ys) :
    StartsSegment (xs ++ ys) := by
  cases xs with
  | nil => exact hy
  | cons c xs => exact hx

theorem Segment.Spelled.startsSegment {s : Segment} {as : List Char} (h : s.Spelled as) :
    StartsSegment as := by
  cases h with
  | name _ => exact fun c hc => .inl (Option.some.inj hc).symm
  | index _ => exact fun c hc => .inr (Option.some.inj hc).symm

theorem Segment.Spelled.ne_nil {s : Segment} {as : List Char} (h : s.Spelled as) : as ≠ [] := by
  cases h <;> exact List.cons_ne_nil _ _

theorem SpelledOut.startsSegment {ss : List Segment} {cs : List Char} (h : SpelledOut ss cs) :
    StartsSegment cs := by
  cases ss with
  | nil =>
    rw [spelledOut_nil.1 h]
    exact nofun
  | cons s ss =>
    obtain ⟨as, bs, has, hbs, rfl⟩ := spelledOut_cons.1 h
    exact has.startsSegment.append (SpelledOut.startsSegment hbs)

/-- a segment ends where its text does -/
theorem Segment.Spelled.append_inj {s t : Segment} {as bs xs ys : List Char} (hs : s.Spelled as)
    (ht : t.Spelled bs) (hx : StartsSegment xs) (hy : StartsSegment ys)
    (h : as ++ xs = bs ++ ys) : s = t ∧ xs = ys := by
  cases hs with
  | @name j hj =>
    cases ht with
    | @name k hk =>
      have hplain : ∀ {k : String}, IsPathName k →
          ∀ c ∈ k.toList, (c != '.' && c != '[') = true := by
        intro k hk c hc
        have hdot : c ≠ '.' := fun h => hk.undotted (h ▸ hc)
        have hbracket : c ≠ '[' := fun h => hk.unindexed (h ▸ hc)
        simp [hdot, hbracket]
      have hstop : ∀ {cs : List Char}, StartsSegment cs →
          ∀ c ∈ cs.head?, (c != '.' && c != '[') = false := by
        intro cs hcs c hc
        rcases hcs c hc with rfl | rfl <;> rfl
      obtain ⟨hjk, rfl⟩ := append_inj_of_stop (hplain hj) (hplain hk) (hstop hx) (hstop hy)
        (List.cons.inj h).2
      exact ⟨congrArg Segment.name (String.toList_inj.1 hjk), rfl⟩
    | index _ => exact absurd (List.cons.inj h).1 (by decide)
  | @index ds i hds =>
    cases ht with
    | name _ => exact absurd (List.cons.inj h).1 (by decide)
    | @index es j hes =>
      have htail : ds ++ ']' :: xs = es ++ ']' :: ys := by
        simpa using (List.cons.inj h).2
      obtain ⟨rfl, rfl⟩ := hds.append_inj hes htail
      exact ⟨congrArg Segment.index (hds.unique hes), rfl⟩

/-- a text that goes on with another segment is that of a longer path -/
theorem SpelledOut.isPrefix {ss ts : List Segment} {cs rest : List Char} (hs : SpelledOut ss cs)
    (hrest : StartsSegment rest) (ht : SpelledOut ts (cs ++ rest)) : ss <+: ts := by
  induction ss generalizing ts cs with
  | nil => exact List.nil_prefix
  | cons s ss ih =>
    obtain ⟨as, xs, has, hxs, rfl⟩ := spelledOut_cons.1 hs
    rw [List.append_assoc] at ht
    cases ts with
    | nil => exact absurd (List.append_eq_nil_iff.1 (spelledOut_nil.1 ht)).1 has.ne_nil
    | cons t ts =>
      obtain ⟨bs, ys, hbs, hys, hsame⟩ := spelledOut_cons.1 ht
      obtain ⟨rfl, rfl⟩ := has.append_inj hbs (hxs.startsSegment.append hrest)
        hys.startsSegment hsame
      exact List.cons_prefix_cons.2 ⟨rfl, ih hxs hys⟩

/-- a text is that of one path -/
theorem SpelledOut.unique {ss ts : List Segment} {cs : List Char} (hs : SpelledOut ss cs)
    (ht : SpelledOut ts cs) : ss = ts := by
  have hend : StartsSegment [] := nofun
  have hst : ss <+: ts := hs.isPrefix hend (cs.append_nil.symm ▸ ht)
  have hts : ts <+: ss := ht.isPrefix hend (cs.append_nil.symm ▸ hs)
  exact hst.eq_of_length (Nat.le_antisymm hst.length_le hts.length_le)

/-! ## indices behind a name -/

theorem insideIndex?_append {ds : List Char} (h : ']' ∉ ds) (seen rest : List Char) :
    insideIndex? seen (ds ++ ']' :: rest)
      = match index? (seen.reverse ++ ds), indices? rest with
        | some i, some is => some (i :: is)
        | _, _ => none := by
  induction ds generalizing seen with
  | nil =>
    rw [List.nil_append, List.append_nil, insideIndex?]
    exact if_pos rfl
  | cons d ds ih =>
    rw [List.mem_cons, not_or] at h
    rw [List.cons_append, insideIndex?, if_neg (Ne.symm h.1), ih h.2, List.reverse_cons,
      List.append_assoc, List.singleton_append]

theorem insideIndex?_of_not_mem {cs : List Char} (h : ']' ∉ cs) (seen : List Char) :
    insideIndex? seen cs = none := by
  induction cs generalizing seen with
  | nil => rfl
  | cons c cs ih =>
    rw [List.mem_cons, not_or] at h
    rw [insideIndex?, if_neg (Ne.symm h.1), ih h.2]

/-- the first index, up to the first closing bracket -/
theorem indices?_bracket {ds : List Char} (h : ']' ∉ ds) (rest : List Char) :
    indices? ('[' :: (ds ++ ']' :: rest))
      = match index? ds, indices? rest with
        | some i, some is => some (i :: is)
        | _, _ => none := by
  rw [indices?, if_pos rfl, insideIndex?_append h]
  rfl

theorem indices?_unclosed {cs : List Char} (h : ']' ∉ cs) : indices? ('[' :: cs) = none := by
  rw [indices?, if_pos rfl, insideIndex?_of_not_mem h]

theorem indices?_of_ne {c : Char} (h : c ≠ '[') (cs : List Char) : indices? (c :: cs) = none := by
  rw [indices?, if_neg h]

/-- an index with what follows it, if both can be read -/
theorem indices?_bracket_eq_some {ds rest : List Char} (h : ']' ∉ ds) {is : List Nat} :
    indices? ('[' :: (ds ++ ']' :: rest)) = some is ↔
      ∃ i js, index? ds = some i ∧ indices? rest = some js ∧ is = i :: js := by
  rw [indices?_bracket h]
  cases index? ds with
  | none => simp
  | some i =>
    cases indices? rest with
    | none => simp
    | some js => simp [eq_comm]

theorem indices?_eq_some_iff {cs : List Char} {is : List Nat} :
    indices? cs = some is ↔ SpelledOut (is.map .index) cs ∧ ∀ i ∈ is, i < Nat.pow 2 64 := by
  constructor
  · -- by the length of the text: behind a closing bracket the same starts anew
    induction hn : cs.length using Nat.strong_induction_on generalizing cs is with
    | _ n ih =>
      intro h
      cases cs with
      | nil =>
        obtain rfl := Option.some.inj h
        exact ⟨.nil, List.forall_mem_nil _⟩
      | cons c cs =>
        by_cases hc : c = '['
        · subst hc
          by_cases hclose : ']' ∈ cs
          · obtain ⟨ds, rest, rfl, hds⟩ := List.eq_append_cons_of_mem hclose
            obtain ⟨i, js, hi, hjs, rfl⟩ := (indices?_bracket_eq_some hds).1 h
            obtain ⟨hspells, hlt⟩ := index?_eq_some_iff.1 hi
            have hshorter : rest.length < n := by
              rw [← hn, List.length_cons, List.length_append, List.length_cons]
              omega
            obtain ⟨hrest, hall⟩ := ih _ hshorter rfl hjs
            exact ⟨spelledOut_index.2 ⟨ds, rest, hspells, hrest, rfl⟩,
              List.forall_mem_cons.2 ⟨hlt, hall⟩⟩
          · rw [indices?_unclosed hclose] at h
            cases h
        · rw [indices?_of_ne hc] at h
          cases h
  · induction is generalizing cs with
    | nil =>
      rintro ⟨h, _⟩
      rw [List.map_nil, spelledOut_nil] at h
      subst h
      rfl
    | cons i is ih =>
      rintro ⟨h, hlt⟩
      obtain ⟨hi, his⟩ := List.forall_mem_cons.1 hlt
      obtain ⟨ds, bs, hds, hbs, rfl⟩ := spelledOut_index.1 h
      rw [indices?_bracket_eq_some hds.not_mem.1]
      exact ⟨i, is, index?_eq_some_iff.2 ⟨hds, hi⟩, ih ⟨hbs, his⟩, rfl⟩

/-! ## parts of a key -/

/-- indices start with a bracket, and hold no dot -/
theorem SpelledOut.plain {is : List Nat} {cs : List Char} (h : SpelledOut (is.map .index) cs) :
    (∀ c ∈ cs.head?, c = '[') ∧ '.' ∉ cs := by
  induction is generalizing cs with
  | nil =>
    rw [List.map_nil, spelledOut_nil] at h
    subst h
    exact ⟨nofun, List.not_mem_nil⟩
  | cons i is ih =>
    obtain ⟨ds, bs, hds, hbs, rfl⟩ := spelledOut_index.1 h
    refine ⟨fun c hc => (Option.some.inj hc).symm, ?_⟩
    simp [hds.not_mem.2.2, (ih hbs).2]

/-- a name and the indices behind it are one part of a key -/
theorem partSegments?_append {k : String} (hk : IsPathName k) {is : List Nat} {cs : List Char}
    (h : SpelledOut (is.map .index) cs) (hlt : ∀ i ∈ is, i < Nat.pow 2 64) :
    partSegments? (k.toList ++ cs) = some (.name k :: is.map .index) := by
  have hplain : ∀ c ∈ k.toList, decide (c ≠ '[') = true := by
    intro c hc
    exact decide_eq_true fun h => hk.unindexed (h ▸ hc)
  have hstop : ∀ c ∈ cs.head?, decide (c ≠ '[') = false := by
    intro c hc
    obtain rfl := h.plain.1 c hc
    rfl
  have hname : (k.toList ++ cs).takeWhile (· ≠ '[') = k.toList :=
    takeWhile_append_of_stop hplain hstop
  have hrest : (k.toList ++ cs).dropWhile (· ≠ '[') = cs := by
    have hwhole := List.takeWhile_append_dropWhile (p := fun c => decide (c ≠ '['))
      (l := k.toList ++ cs)
    rw [hname] at hwhole
    exact List.append_cancel_left hwhole
  have hne : ¬ k.toList.isEmpty = true := by
    simpa using hk.nonempty
  rw [partSegments?, hname, hrest, if_neg hne, indices?_eq_some_iff.2 ⟨h, hlt⟩,
    String.ofList_toList]
  rfl

theorem exists_of_partSegments? {part : List Char} {ss : List Segment} (hdot : '.' ∉ part)
    (h : partSegments? part = some ss) :
    ∃ (k : String) (is : List Nat) (cs : List Char), IsPathName k
      ∧ SpelledOut (is.map .index) cs ∧ (∀ i ∈ is, i < Nat.pow 2 64) ∧ part = k.toList ++ cs
      ∧ ss = .name k :: is.map .index := by
  rw [partSegments?] at h
  split at h
  · cases h
  · rename_i hne
    obtain ⟨is, his, rfl⟩ := Option.map_eq_some_iff.1 h
    obtain ⟨hspelled, hlt⟩ := indices?_eq_some_iff.1 his
    refine ⟨_, is, _, ⟨?_, ?_, ?_⟩, hspelled, hlt, ?_, rfl⟩
    · intro hempty
      rw [← String.toList_inj, String.toList_ofList] at hempty
      exact hne (List.isEmpty_iff.2 hempty)
    · rw [String.toList_ofList]
      exact fun hmem => hdot ((List.takeWhile_sublist _).subset hmem)
    · rw [String.toList_ofList]
      intro hmem
      have hplain : decide ('[' ≠ '[') = true :=
        List.mem_takeWhile_imp (p := fun c => decide (c ≠ '[')) hmem
      exact of_decide_eq_true hplain rfl
    · rw [String.toList_ofList, List.takeWhile_append_dropWhile]

/-! ## whole keys -/

theorem not_dot_mem_of_mem_splitDots {cs part : List Char} (h : part ∈ splitDots cs) :
    '.' ∉ part := by
  induction cs generalizing part with
  | nil =>
    rw [List.mem_singleton.1 h]
    exact List.not_mem_nil
  | cons c cs ih =>
    rw [splitDots] at h
    split at h
    · rcases List.mem_cons.1 h with rfl | h
      · exact List.not_mem_nil
      · exact ih h
    · rename_i hc
      obtain ⟨first, parts, hparts⟩ := List.exists_cons_of_ne_nil (splitDots_ne_nil cs)
      rw [hparts] at h ih
      rcases List.mem_cons.1 h with rfl | h
      · rw [List.mem_cons, not_or]
        exact ⟨Ne.symm hc, ih List.mem_cons_self⟩
      · exact ih (List.mem_cons_of_mem first h)

/-- parts that are read spell their segments, each behind a dot -/
theorem spelledOut_of_mapM {parts : List (List Char)} {sss : List (List Segment)}
    (hdots : ∀ part ∈ parts, '.' ∉ part) (h : parts.mapM partSegments? = some sss) :
    SpelledOut sss.flatten (parts.flatMap fun part => '.' :: part)
      ∧ ∀ i, .index i ∈ sss.flatten → i < Nat.pow 2 64 := by
  induction parts generalizing sss with
  | nil =>
    obtain rfl := Option.some.inj h
    exact ⟨.nil, nofun⟩
  | cons part parts ih =>
    obtain ⟨hdot, hrestdots⟩ := List.forall_mem_cons.1 hdots
    rw [List.mapM_cons] at h
    obtain ⟨ss, hss, h⟩ := Option.bind_eq_some_iff.1 h
    obtain ⟨rest, hrest, h⟩ := Option.bind_eq_some_iff.1 h
    obtain rfl := Option.some.inj h
    obtain ⟨k, is, cs, hk, hcs, his, rfl, rfl⟩ := exists_of_partSegments? hdot hss
    obtain ⟨hspelled, hlt⟩ := ih hrestdots hrest
    rw [List.flatten_cons, List.flatMap_cons]
    have hname : SpelledOut [.name k] ('.' :: k.toList) :=
      spelledOut_cons.2 ⟨_, [], .name hk, .nil, (List.append_nil _).symm⟩
    refine ⟨(hname.append hcs).append hspelled, fun i hi => ?_⟩
    rcases List.mem_append.1 hi with hi | hi
    · obtain ⟨j, hj, hij⟩ := List.mem_map.1 ((List.mem_cons.1 hi).resolve_left nofun)
      obtain rfl := Segment.index.inj hij
      exact his j hj
    · exact hlt i hi

theorem cons_dot_intercalate {parts : List (List Char)} (h : parts ≠ []) :
    '.' :: ['.'].intercalate parts = parts.flatMap fun part => '.' :: part := by
  induction parts with
  | nil => exact absurd rfl h
  | cons part parts ih =>
    cases parts with
    | nil => simp
    | cons next parts =>
      rw [List.intercalate_cons_cons, List.flatMap_cons, ← ih (List.cons_ne_nil _ _)]
      simp

theorem not_dot_mem_part {k : String} (hk : IsPathName k) {is : List Nat} {cs : List Char}
    (h : SpelledOut (is.map .index) cs) : '.' ∉ k.toList ++ cs := by
  rw [List.mem_append, not_or]
  exact ⟨hk.undotted, h.plain.2⟩

/-- the parts of a key, where a name and some of its indices have been read already -/
theorem mapM_partSegments?_splitDots {k : String} (hk : IsPathName k) {is : List Nat}
    {bs cs : List Char} {ss : List Segment} (his : SpelledOut (is.map .index) bs)
    (hislt : ∀ i ∈ is, i < Nat.pow 2 64) (hss : SpelledOut ss cs)
    (hlt : ∀ i, .index i ∈ ss → i < Nat.pow 2 64) :
    ((splitDots (k.toList ++ bs ++ cs)).mapM partSegments?).map List.flatten
      = some (.name k :: is.map .index ++ ss) := by
  induction ss generalizing k is bs cs with
  | nil =>
    rw [spelledOut_nil] at hss
    subst hss
    rw [List.append_nil, splitDots_of_not_mem (not_dot_mem_part hk his), List.mapM_cons,
      partSegments?_append hk his hislt]
    simp
  | cons s ss ih =>
    obtain ⟨as, rest, has, hrest, rfl⟩ := spelledOut_cons.1 hss
    have hrestlt : ∀ i, .index i ∈ ss → i < Nat.pow 2 64 :=
      fun i hi => hlt i (List.mem_cons_of_mem s hi)
    cases has with
    | @index ds i hds =>
      have hlast : SpelledOut [.index i] ('[' :: (ds ++ [']'])) :=
        spelledOut_cons.2 ⟨_, [], .index hds, .nil, (List.append_nil _).symm⟩
      have hall : SpelledOut ((is ++ [i]).map .index) (bs ++ '[' :: (ds ++ [']'])) := by
        rw [List.map_append]
        exact his.append hlast
      have halllt : ∀ j ∈ is ++ [i], j < Nat.pow 2 64 :=
        List.forall_mem_append.2 ⟨hislt, List.forall_mem_singleton.2 (hlt i List.mem_cons_self)⟩
      simpa using ih hk hall halllt hrest hrestlt
    | @name j hj =>
      have hnone : SpelledOut (([] : List Nat).map .index) [] := .nil
      obtain ⟨parts, hparts, hflat⟩ := Option.map_eq_some_iff.1
        (ih hj hnone (List.forall_mem_nil _) hrest hrestlt)
      rw [List.append_nil] at hparts
      rw [List.cons_append, splitDots_append_dot _ (not_dot_mem_part hk his), List.mapM_cons,
        partSegments?_append hk his hislt, hparts]
      simp [hflat]

/-- **Keys and paths.**  A key is read as a path exactly if it spells the path, and its indices are
numbers of 64 bits. -/
theorem pathOf?_eq_some_iff {key : String} {path : List Segment} :
    pathOf? key = some path ↔ Spells key path ∧ ∀ i, .index i ∈ path → i < Nat.pow 2 64 := by
  constructor
  · intro h
    obtain ⟨sss, hsss, rfl⟩ := Option.map_eq_some_iff.1 h
    obtain ⟨hspelled, hlt⟩ := spelledOut_of_mapM (fun part => not_dot_mem_of_mem_splitDots) hsss
    rw [← cons_dot_intercalate (splitDots_ne_nil _), intercalate_splitDots] at hspelled
    refine ⟨⟨?_, hspelled⟩, hlt⟩
    -- a text that starts with a dot starts with a name
    cases hpath : sss.flatten with
    | nil =>
      rw [hpath, spelledOut_nil] at hspelled
      cases hspelled
    | cons s ss =>
      rw [hpath] at hspelled
      obtain ⟨as, bs, has, _, hkey⟩ := spelledOut_cons.1 hspelled
      cases has with
      | name _ => exact ⟨_, ss, rfl⟩
      | index _ => exact absurd (List.cons.inj hkey).1 (by decide)
  · rintro ⟨⟨⟨k, ss, rfl⟩, hspelled⟩, hlt⟩
    obtain ⟨as, bs, has, hbs, hkey⟩ := spelledOut_cons.1 hspelled
    cases has with
    | name hk =>
      have hnone : SpelledOut (([] : List Nat).map .index) [] := .nil
      have hread := mapM_partSegments?_splitDots hk hnone (List.forall_mem_nil _) hbs
        fun i hi => hlt i (List.mem_cons_of_mem _ hi)
      have hchars : key.toList = k.toList ++ bs := (List.cons.inj hkey).2
      rw [List.append_nil, ← hchars] at hread
      exact hread

/-! ## parts that spell nothing -/

/-- a part of a key that is no name with indices, by what is wrong with it -/
inductive MalformedPart : List Char → Prop
  | empty : MalformedPart []
  | leadingIndex {cs : List Char} : MalformedPart ('[' :: cs)
  | textBehind {xs ys : List Char} {c : Char} :
      '[' ∈ xs → c ≠ '[' → MalformedPart (xs ++ ']' :: c :: ys)
  | unclosed {xs ys : List Char} : ']' ∉ ys → MalformedPart (xs ++ '[' :: ys)
  | emptyIndex {xs ys : List Char} : MalformedPart (xs ++ '[' :: ']' :: ys)
  | largeIndex {xs ds ys : List Char} {i : Nat} :
      SpellsIndex ds i → Nat.pow 2 64 ≤ i → MalformedPart (xs ++ '[' :: (ds ++ ']' :: ys))

/-- a key one of whose parts between dots spells nothing -/
def Malformed (key : String) : Prop := ∃ part ∈ splitDots key.toList, MalformedPart part

/-- each opening bracket opens an index, which the next closing bracket ends -/
theorem SpelledOut.exists_of_open {is : List Nat} {cs xs ys : List Char}
    (h : SpelledOut (is.map .index) cs) (hopen : cs = xs ++ '[' :: ys) :
    ∃ ds, ∃ i ∈ is, ∃ rest, SpellsIndex ds i ∧ ys = ds ++ ']' :: rest := by
  induction is generalizing cs xs with
  | nil =>
    rw [List.map_nil, spelledOut_nil] at h
    simp [h] at hopen
  | cons i is ih =>
    obtain ⟨ds, bs, hds, hbs, rfl⟩ := spelledOut_index.1 h
    cases xs with
    | nil => exact ⟨ds, i, List.mem_cons_self, bs, hds, (List.cons.inj hopen).2.symm⟩
    | cons x xs =>
      have htail : ds ++ ']' :: bs = xs ++ '[' :: ys := (List.cons.inj hopen).2
      rcases List.append_eq_append_iff.1 htail with ⟨as, rfl, has⟩ | ⟨as, rfl, has⟩
      · cases as with
        | nil => exact absurd (List.cons.inj has).1 (by decide)
        | cons a as =>
          obtain ⟨es, j, hj, hrest⟩ := ih hbs (List.cons.inj has).2
          exact ⟨es, j, List.mem_cons_of_mem i hj, hrest⟩
      · cases as with
        | nil => exact absurd (List.cons.inj has).1 (by decide)
        | cons a as =>
          obtain rfl := (List.cons.inj has).1
          exact absurd (List.mem_append_right xs List.mem_cons_self) hds.not_mem.2.1

/-- behind a closing bracket there is another index or nothing -/
theorem SpelledOut.eq_of_close {is : List Nat} {cs xs ys : List Char} {c : Char}
    (h : SpelledOut (is.map .index) cs) (hclose : cs = xs ++ ']' :: c :: ys) : c = '[' := by
  induction is generalizing cs xs with
  | nil =>
    rw [List.map_nil, spelledOut_nil] at h
    simp [h] at hclose
  | cons i is ih =>
    obtain ⟨ds, bs, hds, hbs, rfl⟩ := spelledOut_index.1 h
    cases xs with
    | nil => exact absurd (List.cons.inj hclose).1 (by decide)
    | cons x xs =>
      have htail : ds ++ ']' :: bs = xs ++ ']' :: c :: ys := (List.cons.inj hclose).2
      have hhead : bs = c :: ys → c = '[' := by
        rintro rfl
        exact hbs.plain.1 c rfl
      rcases List.append_eq_append_iff.1 htail with ⟨as, rfl, has⟩ | ⟨as, rfl, has⟩
      · cases as with
        | nil => exact hhead (List.cons.inj has).2
        | cons a as => exact ih hbs (List.cons.inj has).2
      · cases as with
        | nil => exact hhead (List.cons.inj has).2.symm
        | cons a as =>
          obtain rfl := (List.cons.inj has).1
          exact absurd (List.mem_append_right xs List.mem_cons_self) hds.not_mem.1

/-- a bracket behind a name comes after the whole name -/
theorem exists_append_of_not_mem {k xs cs ys : List Char} (hk : '[' ∉ k)
    (h : k ++ cs = xs ++ '[' :: ys) : ∃ zs, xs = k ++ zs ∧ cs = zs ++ '[' :: ys := by
  rcases List.append_eq_append_iff.1 h with ⟨as, rfl, rfl⟩ | ⟨as, rfl, has⟩
  · exact ⟨as, rfl, rfl⟩
  · cases as with
    | nil => exact ⟨[], by simp, has.symm⟩
    | cons a as =>
      obtain rfl := (List.cons.inj has).1
      exact absurd (List.mem_append_right xs List.mem_cons_self) hk

/-- a part that is read holds none of these -/
theorem MalformedPart.partSegments?_eq_none {part : List Char} (h : MalformedPart part)
    (hdot : '.' ∉ part) : partSegments? part = none := by
  rw [Option.eq_none_iff_forall_not_mem]
  intro ss hss
  obtain ⟨k, is, cs, hk, hcs, hlt, hpart, _⟩ := exists_of_partSegments? hdot hss
  -- the index that a bracket in the part opens
  have hopen : ∀ {xs ys : List Char}, part = xs ++ '[' :: ys →
      ∃ ds, ∃ i ∈ is, ∃ rest, SpellsIndex ds i ∧ ys = ds ++ ']' :: rest := by
    intro xs ys hxs
    rw [hpart] at hxs
    obtain ⟨zs, _, hzs⟩ := exists_append_of_not_mem hk.unindexed hxs
    exact hcs.exists_of_open hzs
  cases h with
  | empty =>
    have hname : k.toList = [] := (List.append_eq_nil_iff.1 hpart.symm).1
    exact hk.nonempty (String.toList_eq_nil_iff.1 hname)
  | @leadingIndex cs =>
    have hfirst : k.toList ++ _ = [] ++ '[' :: cs := hpart.symm
    obtain ⟨zs, hname, _⟩ := exists_append_of_not_mem hk.unindexed hfirst
    have hempty : k.toList = [] := (List.append_eq_nil_iff.1 hname.symm).1
    exact hk.nonempty (String.toList_eq_nil_iff.1 hempty)
  | @textBehind xs ys c hmem hc =>
    obtain ⟨us, vs, rfl⟩ := List.append_of_mem hmem
    rw [List.append_assoc, List.cons_append] at hpart
    obtain ⟨zs, _, hzs⟩ := exists_append_of_not_mem hk.unindexed hpart.symm
    have hclose : cs = (zs ++ '[' :: vs) ++ ']' :: c :: ys := by
      rw [hzs, List.append_assoc, List.cons_append]
    exact hc (hcs.eq_of_close hclose)
  | unclosed hmem =>
    obtain ⟨ds, i, _, rest, _, rfl⟩ := hopen rfl
    exact hmem (List.mem_append_right ds List.mem_cons_self)
  | emptyIndex =>
    obtain ⟨ds, i, _, rest, hds, hys⟩ := hopen rfl
    obtain ⟨d, ds, rfl⟩ := List.exists_cons_of_ne_nil hds.ne_nil
    obtain rfl := (List.cons.inj hys).1
    exact hds.not_mem.1 List.mem_cons_self
  | largeIndex hds hlarge =>
    obtain ⟨es, j, hj, rest, hes, hys⟩ := hopen rfl
    obtain ⟨rfl, _⟩ := hds.append_inj hes hys
    have hread : index? _ = some j := index?_eq_some_iff.2 ⟨hes, hlt j hj⟩
    rw [index?_eq_none_of_large hds hlarge] at hread
    cases hread

/-- one part that cannot be read is enough -/
theorem mapM_partSegments?_eq_none {parts : List (List Char)} {part : List Char}
    (hmem : part ∈ parts) (h : partSegments? part = none) : parts.mapM partSegments? = none := by
  induction parts with
  | nil => cases hmem
  | cons first parts ih =>
    rw [List.mapM_cons]
    rcases List.mem_cons.1 hmem with rfl | hmem
    · rw [h]
      rfl
    · rw [ih hmem]
      cases partSegments? first <;> rfl

theorem pathOf?_eq_none_of_malformed {key : String} (h : Malformed key) : pathOf? key = none := by
  obtain ⟨part, hmem, hpart⟩ := h
  have hnone := hpart.partSegments?_eq_none (not_dot_mem_of_mem_splitDots hmem)
  rw [pathOf?, mapM_partSegments?_eq_none hmem hnone, Option.map_none]

end ParamSchema
