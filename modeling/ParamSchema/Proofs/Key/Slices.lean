import ParamSchema.Proofs.Key.Spelling

/-!
# Scanning a key by byte offsets

The scanner takes the parts of a key apart where it finds brackets: `findByte` gives the offset of a
character in bytes, and a slice is cut at two such offsets.  An offset may lie behind the end or
inside a character, and then there is no slice (`BadSlice`).  The scanner never asks for one, and
finds the segments that `pathOf?` finds (`scanKey_eq`).
-/

namespace ParamSchema

/-! ## offsets -/

/-- a slice that starts behind its end, behind the text or inside a character -/
structure BadSlice where
  start : Nat
  stop : Nat
deriving DecidableEq

def byteLength : List Char → Nat
  | [] => 0
  | c :: cs => c.utf8Size + byteLength cs

/-- the offset of the first such character -/
def findByte (c : Char) : List Char → Option Nat
  | [] => none
  | d :: ds => if d = c then some 0 else (findByte c ds).map fun n => d.utf8Size + n

/-- the text before an offset and the text behind it, unless the offset is inside a character -/
def splitAtByte? : List Char → Nat → Option (List Char × List Char)
  | cs, 0 => some ([], cs)
  | [], _ + 1 => none
  | c :: cs, n + 1 =>
    if c.utf8Size ≤ n + 1 then
      (splitAtByte? cs (n + 1 - c.utf8Size)).map fun s => (c :: s.1, s.2)
    else none

def sliceTo (cs : List Char) (stop : Nat) : Except BadSlice (List Char) :=
  match splitAtByte? cs stop with
  | some s => .ok s.1
  | none => .error ⟨0, stop⟩

def sliceFrom (cs : List Char) (start : Nat) : Except BadSlice (List Char) :=
  match splitAtByte? cs start with
  | some s => .ok s.2
  | none => .error ⟨start, byteLength cs⟩

def slice (cs : List Char) (start stop : Nat) : Except BadSlice (List Char) :=
  match splitAtByte? cs stop with
  | some s =>
    match splitAtByte? s.1 start with
    | some t => .ok t.2
    | none => .error ⟨start, stop⟩
  | none => .error ⟨start, stop⟩

theorem byteLength_append (as bs : List Char) :
    byteLength (as ++ bs) = byteLength as + byteLength bs := by
  induction as with
  | nil => rw [List.nil_append, byteLength, Nat.zero_add]
  | cons a as ih => rw [List.cons_append, byteLength, byteLength, ih, Nat.add_assoc]

theorem splitAtByte?_append (as bs : List Char) :
    splitAtByte? (as ++ bs) (byteLength as) = some (as, bs) := by
  induction as with
  | nil => rw [List.nil_append, byteLength, splitAtByte?]
  | cons a as ih =>
    have hpos : 0 < a.utf8Size := a.utf8Size_pos
    obtain ⟨n, hn⟩ : ∃ n, a.utf8Size + byteLength as = n + 1 :=
      ⟨a.utf8Size + byteLength as - 1, by omega⟩
    have hle : a.utf8Size ≤ n + 1 := by omega
    have htail : n + 1 - a.utf8Size = byteLength as := by omega
    rw [List.cons_append, byteLength, hn, splitAtByte?, if_pos hle, htail, ih, Option.map_some]

/-- a text is cut into two, the first as long as the offset says -/
theorem splitAtByte?_eq_some {cs as bs : List Char} {n : Nat}
    (h : splitAtByte? cs n = some (as, bs)) : cs = as ++ bs ∧ byteLength as = n := by
  induction cs generalizing n as with
  | nil =>
    cases n with
    | zero =>
      obtain ⟨rfl, rfl⟩ := Prod.mk.inj (Option.some.inj h)
      exact ⟨rfl, rfl⟩
    | succ n => cases h
  | cons c cs ih =>
    cases n with
    | zero =>
      obtain ⟨rfl, rfl⟩ := Prod.mk.inj (Option.some.inj h)
      exact ⟨rfl, rfl⟩
    | succ n =>
      rw [splitAtByte?] at h
      split at h
      · rename_i hle
        obtain ⟨s, hs, hpair⟩ := Option.map_eq_some_iff.1 h
        obtain ⟨rfl, rfl⟩ := Prod.mk.inj hpair
        obtain ⟨rfl, hlen⟩ := ih hs
        exact ⟨rfl, by rw [byteLength, hlen]; omega⟩
      · cases h

theorem sliceTo_append (as bs : List Char) : sliceTo (as ++ bs) (byteLength as) = .ok as := by
  rw [sliceTo, splitAtByte?_append]

theorem sliceFrom_append (as bs : List Char) : sliceFrom (as ++ bs) (byteLength as) = .ok bs := by
  rw [sliceFrom, splitAtByte?_append]

theorem slice_append (as bs cs : List Char) :
    slice (as ++ bs ++ cs) (byteLength as) (byteLength (as ++ bs)) = .ok bs := by
  rw [slice, splitAtByte?_append]
  show (match splitAtByte? (as ++ bs) (byteLength as) with
    | some t => Except.ok t.2
    | none => .error _) = _
  rw [splitAtByte?_append]

theorem length_sliceFrom_lt {cs rest : List Char} {n : Nat}
    (h : sliceFrom cs (n + 1) = .ok rest) : rest.length < cs.length := by
  rw [sliceFrom] at h
  split at h
  · rename_i s hs
    obtain rfl := Except.ok.inj h
    obtain ⟨rfl, hlen⟩ := splitAtByte?_eq_some hs
    have hne : s.1 ≠ [] := by
      intro hnil
      rw [hnil, byteLength] at hlen
      omega
    have hpos := List.length_pos_of_ne_nil hne
    rw [List.length_append]
    omega
  · cases h

theorem findByte_append {c : Char} {as : List Char} (h : c ∉ as) (bs : List Char) :
    findByte c (as ++ c :: bs) = some (byteLength as) := by
  induction as with
  | nil => rw [List.nil_append, findByte, if_pos rfl, byteLength]
  | cons a as ih =>
    rw [List.mem_cons, not_or] at h
    rw [List.cons_append, findByte, if_neg (Ne.symm h.1), ih h.2, Option.map_some, byteLength]

theorem findByte_of_not_mem {c : Char} {cs : List Char} (h : c ∉ cs) : findByte c cs = none := by
  induction cs with
  | nil => rfl
  | cons d cs ih =>
    rw [List.mem_cons, not_or] at h
    rw [findByte, if_neg (Ne.symm h.1), ih h.2, Option.map_none]

/-! ## the scanner -/

/-- The indices behind a name: the next closing bracket is looked for before the opening one is
checked. -/
def scanIndices (cs : List Char) : Except BadSlice (Option (List Nat)) :=
  if cs.isEmpty then .ok (some [])
  else
    match findByte ']' cs with
    | none => .ok none
    | some close =>
      if cs.head? = some '[' then
        match slice cs 1 close with
        | .error b => .error b
        | .ok digits =>
          match index? digits with
          | none => .ok none
          | some i =>
            match _ : sliceFrom cs (close + 1) with
            | .error b => .error b
            | .ok rest => (scanIndices rest).map fun is => is.map (i :: ·)
      else .ok none
termination_by cs.length
decreasing_by exact length_sliceFrom_lt ‹_›

/-- the name of a part and its indices, cut at the first opening bracket -/
def cutName (part : List Char) : Except BadSlice (List Char × List Char) :=
  match findByte '[' part with
  | some start => do return (← sliceTo part start, ← sliceFrom part start)
  | none => .ok (part, [])

def scanPart (part : List Char) : Except BadSlice (Option (List Segment)) := do
  let (name, indices) ← cutName part
  if name.isEmpty then return none
  return (← scanIndices indices).map fun is => .name (String.ofList name) :: is.map .index

def scanParts : List (List Char) → Except BadSlice (Option (List Segment))
  | [] => .ok (some [])
  | part :: parts => do
    match ← scanPart part with
    | none => return none
    | some ss => return (← scanParts parts).map (ss ++ ·)

def scanKey (key : String) : Except BadSlice (Option (List Segment)) :=
  scanParts (splitDots key.toList)

/-! ## no slice is bad -/

theorem scanIndices_unclosed {cs : List Char} (hne : cs ≠ []) (h : ']' ∉ cs) :
    scanIndices cs = .ok none := by
  rw [scanIndices, if_neg (by simpa using hne), findByte_of_not_mem h]

theorem scanIndices_of_ne {c : Char} (h : c ≠ '[') (cs : List Char) :
    scanIndices (c :: cs) = .ok none := by
  rw [scanIndices, if_neg (by simp)]
  cases findByte ']' (c :: cs) with
  | none => rfl
  | some close => simp [h]

theorem scanIndices_bracket {ds : List Char} (h : ']' ∉ ds) (rest : List Char) :
    scanIndices ('[' :: (ds ++ ']' :: rest))
      = match index? ds with
        | none => .ok none
        | some i => (scanIndices rest).map fun is => is.map (i :: ·) := by
  have hopen : ']' ∉ '[' :: ds := by
    rw [List.mem_cons, not_or]
    exact ⟨by decide, h⟩
  have hclose : findByte ']' ('[' :: (ds ++ ']' :: rest)) = some (byteLength ('[' :: ds)) :=
    findByte_append hopen rest
  have hdigits : slice ('[' :: (ds ++ ']' :: rest)) 1 (byteLength ('[' :: ds)) = .ok ds :=
    slice_append ['['] ds (']' :: rest)
  have hbehind : sliceFrom ('[' :: (ds ++ ']' :: rest)) (byteLength ('[' :: ds) + 1)
      = .ok rest := by
    have hlen : byteLength ('[' :: ds ++ [']']) = byteLength ('[' :: ds) + 1 :=
      byteLength_append _ _
    have happend : '[' :: (ds ++ ']' :: rest) = ('[' :: ds ++ [']']) ++ rest := by simp
    rw [happend, ← hlen]
    exact sliceFrom_append _ rest
  rw [scanIndices, if_neg (by simp), hclose]
  simp only [List.head?_cons, if_true, hdigits]
  cases index? ds with
  | none => rfl
  | some i =>
    simp only
    split
    · rename_i b hb
      rw [hbehind] at hb
      cases hb
    · rename_i rest' hrest
      rw [hbehind] at hrest
      obtain rfl := Except.ok.inj hrest
      rfl

theorem scanIndices_eq (cs : List Char) : scanIndices cs = .ok (indices? cs) := by
  induction hn : cs.length using Nat.strong_induction_on generalizing cs with
  | _ n ih =>
    cases cs with
    | nil =>
      rw [scanIndices]
      rfl
    | cons c cs =>
      by_cases hc : c = '['
      · subst hc
        by_cases hclose : ']' ∈ cs
        · obtain ⟨ds, rest, rfl, hds⟩ := List.eq_append_cons_of_mem hclose
          have hshorter : rest.length < n := by
            rw [← hn, List.length_cons, List.length_append, List.length_cons]
            omega
          rw [scanIndices_bracket hds, indices?_bracket hds, ih _ hshorter rest rfl]
          cases index? ds with
          | none => rfl
          | some i => cases indices? rest <;> rfl
        · have hunclosed : ']' ∉ '[' :: cs := by
            rw [List.mem_cons, not_or]
            exact ⟨by decide, hclose⟩
          rw [scanIndices_unclosed (List.cons_ne_nil _ _) hunclosed, indices?_unclosed hclose]
      · rw [scanIndices_of_ne hc, indices?_of_ne hc]

/-- the first opening bracket is where the name ends -/
theorem cutName_eq (part : List Char) :
    cutName part = .ok (part.takeWhile (· ≠ '['), part.dropWhile (· ≠ '[')) := by
  have hplain : ∀ {cs : List Char}, '[' ∉ cs → ∀ c ∈ cs, decide (c ≠ '[') = true :=
    fun hcs c hc => decide_eq_true fun hopen => hcs (hopen ▸ hc)
  by_cases hopen : '[' ∈ part
  · obtain ⟨name, indices, rfl, hname⟩ := List.eq_append_cons_of_mem hopen
    rw [cutName, findByte_append hname, List.takeWhile_append_of_pos (hplain hname),
      List.dropWhile_append_of_pos (hplain hname)]
    simp [sliceTo_append, sliceFrom_append, bind, Except.bind, pure, Except.pure]
  · have hall : part.takeWhile (· ≠ '[') = part := List.takeWhile_eq_self_iff.2 (hplain hopen)
    have hnone : part.dropWhile (· ≠ '[') = [] := List.dropWhile_eq_nil_iff.2 (hplain hopen)
    rw [cutName, findByte_of_not_mem hopen, hall, hnone]

theorem scanPart_eq (part : List Char) : scanPart part = .ok (partSegments? part) := by
  rw [scanPart, cutName_eq, partSegments?]
  show (if (part.takeWhile (· ≠ '[')).isEmpty = true then Except.ok none
    else (scanIndices (part.dropWhile (· ≠ '['))).bind fun is => Except.ok (is.map _)) = _
  rw [scanIndices_eq]
  split <;> rfl

theorem scanParts_eq (parts : List (List Char)) :
    scanParts parts = .ok ((parts.mapM partSegments?).map List.flatten) := by
  induction parts with
  | nil => rfl
  | cons part parts ih =>
    rw [scanParts, scanPart_eq, ih, List.mapM_cons]
    cases partSegments? part with
    | none => rfl
    | some ss => cases parts.mapM partSegments? <;> rfl

/-- no slice is bad, and the segments are those of the key -/
theorem scanKey_eq (key : String) : scanKey key = .ok (pathOf? key) := scanParts_eq _

end ParamSchema
