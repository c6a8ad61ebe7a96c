import ParamSchema.Proofs.Param.Unambiguous

/-!
# Going wrong in a part of a document

A document is read in parts: a value, what follows an opening bracket or brace, an assignment, the
rest of the assignments (`Part`).  A part goes wrong at one place (`Fails`), for one of two reasons.

* `Strays`               what stands before the place can go on as a text of the part, with the
                         token there it cannot any more;
* `ClashesAssignments`   an assignment leads through something else than a table; the place is its
                         key.

Where a part goes wrong, the part around it does (`Fails.within`), since a text of the one part
makes one of the other, and only such a text does (`Part.Within`).
-/

namespace ParamSchema

/-! ## clashes -/

section
variable (source : String) (text : List Char)

mutual

/-- an assignment in the value, with its key at the offset `o`, leads through something else than a
table -/
inductive ClashesValue : Nat → List Mark → Prop
  | sequence {o s : Nat} {ms : List Mark} :
      ClashesElements o ms → ClashesValue o (⟨.openBracket, s⟩ :: ms)
  | table {o s : Nat} {ms : List Mark} :
      ClashesAssignments o [] ms → ClashesValue o (⟨.openBrace, s⟩ :: ms)

inductive ClashesElements : Nat → List Mark → Prop
  | here {o : Nat} {ms : List Mark} : ClashesValue o ms → ClashesElements o ms
  | next {o c : Nat} {x : Written} {v : Value} {ms ns : List Mark} :
      IsWritten x ms → x.eval source text = .ok v → ClashesElements o ns →
        ClashesElements o (ms ++ ⟨.comma, c⟩ :: ns)

/-- one of the assignments to `p` does, or one inside their values -/
inductive ClashesAssignments : Nat → ParamSet → List Mark → Prop
  | here {o c : Nat} {key : String} {path : List String} {x : Written} {v : Value} {p : ParamSet}
      {ms ns : List Mark} :
      IsKeyPath key path → IsWritten x ms → x.eval source text = .ok v → ¬ p.Passable path →
        ClashesAssignments o p (⟨.word key, o⟩ :: ⟨.colon, c⟩ :: (ms ++ ns))
  | inside {o s c : Nat} {key : String} {path : List String} {p : ParamSet} {ms : List Mark} :
      IsKeyPath key path → ClashesValue o ms →
        ClashesAssignments o p (⟨.word key, s⟩ :: ⟨.colon, c⟩ :: ms)
  | next {o s c : Nat} {key : String} {path : List String} {x : Written} {v : Value}
      {p q : ParamSet} {ms ns : List Mark} :
      IsKeyPath key path → IsWritten x ms → x.eval source text = .ok v → p.assign path v = .ok q →
        ClashesAssignments o q ns →
        ClashesAssignments o p (⟨.word key, s⟩ :: ⟨.colon, c⟩ :: (ms ++ ns))

end

end

section
variable {source : String} {text : List Char} {o s c : Nat} {x : Written} {v : Value}
  {p : ParamSet} {key : String} {path : List String} {ms us : List Mark}

/-- a clash behind a value is in it, or in what a comma separates from it -/
theorem ClashesElements.of_append (hx : IsWritten x ms)
    (h : ClashesElements source text o (ms ++ us)) :
    ClashesValue source text o (ms ++ us)
      ∨ ∃ c ns, us = ⟨.comma, c⟩ :: ns ∧ ClashesElements source text o ns := by
  generalize hall : ms ++ us = all at h
  cases h with
  | here h => exact .inl h
  | next hy _ hns =>
    obtain ⟨rfl, rfl⟩ := hx.unique hy hall
    exact .inr ⟨_, _, List.append_cancel_left hall, hns⟩

/-- a clash at or behind an assignment is that of its key, in its value, or behind it -/
theorem ClashesAssignments.of_cons (hkey : IsKeyPath key path) (hx : IsWritten x ms)
    (hv : x.eval source text = .ok v)
    (h : ClashesAssignments source text o p (⟨.word key, s⟩ :: ⟨.colon, c⟩ :: (ms ++ us))) :
    ¬ p.Passable path ∨ ClashesValue source text o (ms ++ us)
      ∨ ∃ q, p.assign path v = .ok q ∧ ClashesAssignments source text o q us := by
  generalize hall : ms ++ us = all at h
  cases h with
  | here hkey' _ _ hpath =>
    obtain rfl := hkey.unique hkey'
    exact .inl hpath
  | inside _ h => exact .inr (.inl h)
  | next hkey' hy hw hassign hns =>
    obtain rfl := hkey.unique hkey'
    obtain ⟨rfl, rfl⟩ := hx.unique hy hall
    obtain rfl := Except.ok.inj (hv.symm.trans hw)
    obtain rfl := List.append_cancel_left hall
    exact .inr (.inr ⟨_, hassign, hns⟩)

end

section
variable {source : String} {text : List Char} {o : Nat}

mutual

/-- what can be evaluated holds no clash -/
theorem IsWritten.not_clashes {x : Written} {v : Value} {ms us : List Mark} (h : IsWritten x ms)
    (hv : x.eval source text = .ok v) : ¬ ClashesValue source text o (ms ++ us) := by
  intro hc
  match h with
  | .word => cases hc
  | .quoted => cases hc
  | .sequence hxs =>
    obtain ⟨vs, hvs, _⟩ := bind_eq_ok.1 hv
    rw [List.append_assoc, List.cons_append] at hc
    cases hc with
    | sequence hc => exact hxs.not_clashes hvs hc
  | .table has =>
    obtain ⟨q, hq, _⟩ := bind_eq_ok.1 hv
    rw [List.append_assoc, List.cons_append] at hc
    cases hc with
    | table hc => exact has.not_clashes hq hc

theorem AreElements.not_clashes {xs : List Written} {vs : List Value} {ms us : List Mark} {c : Nat}
    (h : AreElements xs ms) (hvs : evalElements source text xs = .ok vs) :
    ¬ ClashesElements source text o (ms ++ ⟨.closeBracket, c⟩ :: us) := by
  intro hc
  match h with
  | .nil =>
    generalize hall : [] ++ _ = all at hc
    cases hc with
    | here hc =>
      subst hall
      cases hc
    | next hx _ _ => exact hx.append_ne_closeBracket hall.symm
  | .last hx =>
    obtain ⟨w, ws, hw, _, _⟩ := evalElements_cons_eq_ok.1 hvs
    rcases hc.of_append hx with hc | ⟨c', ns, hcomma, _⟩
    · exact hx.not_clashes hw hc
    · cases hcomma
  | .cons hx hxs =>
    obtain ⟨w, ws, hw, hws, _⟩ := evalElements_cons_eq_ok.1 hvs
    rw [List.append_assoc] at hc
    rcases hc.of_append hx with hc | ⟨c', ns, hcomma, hc⟩
    · exact hx.not_clashes hw hc
    · cases hcomma
      exact hxs.not_clashes hws hc

theorem AreAssignments.not_clashes {as : List (List String × Written)} {p q : ParamSet}
    {ms us : List Mark} {c : Nat} (h : AreAssignments as ms)
    (hq : evalAssignments source text p as = .ok q) :
    ¬ ClashesAssignments source text o p (ms ++ ⟨.closeBrace, c⟩ :: us) := by
  intro hc
  match h with
  | .nil => cases hc
  | .cons hkey hx has =>
    obtain ⟨w, r, hw, hr, hq⟩ := evalAssignments_cons_eq_ok.1 hq
    simp only [List.cons_append, List.append_assoc] at hc
    -- what was assigned had a way to go
    rcases hc.of_cons hkey hx hw with hpath | hc | ⟨r', hr', hc⟩
    · exact hpath (exists_assign_iff.1 ⟨r, hr⟩)
    · exact hx.not_clashes hw hc
    · obtain rfl := Except.ok.inj (hr.symm.trans hr')
      exact has.not_clashes hq hc

end

end

/-! ## parts of a document, and going wrong in them -/

/-- the token lists of a part, what starts with one of them, and where that has a clash -/
structure Part where
  texts : List Mark → Prop
  starts : List Mark → Prop
  clashes : Nat → List Mark → Prop

/-- a part that ends before what follows it -/
def Part.delimited (texts : List Mark → Prop) (clashes : Nat → List Mark → Prop) : Part :=
  ⟨texts, fun us => ∃ ts, texts ts ∧ ts <+: us, clashes⟩

section
variable (source : String) (text : List Char)

def valuePart : Part := .delimited (fun ms => ∃ x, IsWritten x ms) (ClashesValue source text)

/-- what follows an opening bracket -/
def elementsPart : Part :=
  .delimited (fun ts => ∃ xs ms c, AreElements xs ms ∧ ts = ms ++ [⟨.closeBracket, c⟩])
    (ClashesElements source text)

/-- what follows an opening brace, where the entries of `p` are there already -/
def tablePart (p : ParamSet) : Part :=
  .delimited (fun ts => ∃ as ms c, AreAssignments as ms ∧ ts = ms ++ [⟨.closeBrace, c⟩])
    (ClashesAssignments source text · p)

def assignmentPart (p : ParamSet) : Part :=
  .delimited
    (fun ts => ∃ key path o c x ms, IsKeyPath key path ∧ IsWritten x ms
      ∧ ts = ⟨.word key, o⟩ :: ⟨.colon, c⟩ :: ms)
    (ClashesAssignments source text · p)

/-- the rest of a document -/
def documentPart (p : ParamSet) : Part where
  texts ms := ∃ as, AreAssignments as ms
  starts ms := ∃ as, AreAssignments as ms
  clashes o ms := ClashesAssignments source text o p ms

end

/-- where the first of the tokens is, or the end of the text -/
def nextOffset (text : List Char) (ms : List Mark) : Nat :=
  (ms.head?.map Mark.offset).getD text.length

/-- a reader that wants to go on complains about this token, or about the end -/
def ReadFault.Rejects (f : ReadFault) (t? : Option Token) : Prop :=
  match f with
  | .expectedName => ∀ key, t? ≠ some (.word key)
  | .invalidName key => t? = some (.word key) ∧ ∀ path, ¬ IsKeyPath key path
  | .expectedColon => t? ≠ some .colon
  | .expectedValue => ∃ t, t? = some t ∧ ¬ t.StartsValue
  | .expectedSeparator => ∃ t, t? = some t ∧ t ≠ .comma ∧ t ≠ .closeBracket
  | .valueMissing | .sequenceOpen | .tableOpen => t? = none
  | _ => False

/-- The tokens can go on as a text of the part up to the offset `o`, but not with what is there; and
nothing clashes before. -/
def Strays (text : List Char) (P : Part) (f : ReadFault) (o : Nat) (ms : List Mark) : Prop :=
  ∃ good back, ms = good ++ back ∧ o = nextOffset text back
    ∧ f.Rejects (back.head?.map Mark.token) ∧ (∃ more, P.texts (good ++ more))
    ∧ (∀ more, more.head? = back.head? → ¬ P.starts (good ++ more))
    ∧ ∀ o', ¬ P.clashes o' good

/-- the part goes wrong with this fault at this position -/
def Fails (text : List Char) (P : Part) (ms : List Mark) (e : ReadFault × Position) : Prop :=
  ∃ o, e.2 = positionAt text o
    ∧ (Strays text P e.1 o ms ∨ (∃ name rest, e.1 = .notATable name rest) ∧ P.clashes o ms)

/-- what comes behind `front` in the part `Q`, and starts with `next`, is the part `P` -/
structure Part.Within (P Q : Part) (front : List Mark) (next : Option Mark) : Prop where
  texts {ts : List Mark} : P.texts ts → ∃ more, Q.texts (front ++ (ts ++ more))
  starts {us : List Mark} : us.head? = next → Q.starts (front ++ us) → P.starts us
  clashes {o : Nat} {us more : List Mark} :
    ¬ P.starts (us ++ more) → Q.clashes o (front ++ us) → P.clashes o us
  clash {o : Nat} {us : List Mark} : P.clashes o us → Q.clashes o (front ++ us)

theorem head?_append_congr {ms us vs : List Mark} (h : us.head? = vs.head?) :
    (ms ++ us).head? = (ms ++ vs).head? := by
  rw [List.head?_append, List.head?_append, h]

/-- where a part goes wrong, the part around it does -/
theorem Fails.within {text : List Char} {P Q : Part} {front ms : List Mark}
    {e : ReadFault × Position} (h : Fails text P ms e) (hPQ : P.Within Q front ms.head?) :
    Fails text Q (front ++ ms) e := by
  obtain ⟨o, he, h⟩ := h
  refine ⟨o, he, h.imp ?_ (And.imp_right hPQ.clash)⟩
  rintro ⟨good, back, rfl, ho, hrejects, ⟨more, hmore⟩, hstarts, hclashes⟩
  obtain ⟨more', hmore'⟩ := hPQ.texts hmore
  refine ⟨front ++ good, back, (List.append_assoc _ _ _).symm, ho, hrejects, ⟨more ++ more', ?_⟩,
    fun us hus hQ => ?_, fun o' hQ => ?_⟩
  · simpa only [List.append_assoc] using hmore'
  · rw [List.append_assoc] at hQ
    exact hstarts us hus (hPQ.starts (head?_append_congr hus) hQ)
  · -- `good` holds no whole text of the part, or it would with one token more
    have hnot : ¬ P.starts (good ++ back.head?.toList) := hstarts _ (by cases back <;> rfl)
    exact hclashes o' (hPQ.clashes hnot hQ)

/-! ## the parts within each other -/

section
variable {source : String} {text : List Char} {next : Option Mark} {s c : Nat} {x : Written}
  {v : Value} {p q : ParamSet} {key : String} {path : List String} {ms us : List Mark}

theorem starts_value :
    (valuePart source text).starts us ↔ ∃ x ms rest, IsWritten x ms ∧ us = ms ++ rest := by
  constructor
  · rintro ⟨ts, ⟨x, hx⟩, rest, rfl⟩
    exact ⟨x, ts, rest, hx, rfl⟩
  · rintro ⟨x, ms, rest, hx, rfl⟩
    exact ⟨ms, ⟨x, hx⟩, rest, rfl⟩

theorem starts_elements :
    (elementsPart source text).starts us
      ↔ ∃ xs ms c rest, AreElements xs ms ∧ us = ms ++ ⟨.closeBracket, c⟩ :: rest := by
  constructor
  · rintro ⟨ts, ⟨xs, ms, c, hxs, rfl⟩, rest, rfl⟩
    exact ⟨xs, ms, c, rest, hxs, List.append_assoc _ _ _⟩
  · rintro ⟨xs, ms, c, rest, hxs, rfl⟩
    exact ⟨_, ⟨xs, ms, c, hxs, rfl⟩, rest, List.append_assoc _ _ _⟩

theorem starts_table :
    (tablePart source text p).starts us
      ↔ ∃ as ms c rest, AreAssignments as ms ∧ us = ms ++ ⟨.closeBrace, c⟩ :: rest := by
  constructor
  · rintro ⟨ts, ⟨as, ms, c, has, rfl⟩, rest, rfl⟩
    exact ⟨as, ms, c, rest, has, List.append_assoc _ _ _⟩
  · rintro ⟨as, ms, c, rest, has, rfl⟩
    exact ⟨_, ⟨as, ms, c, has, rfl⟩, rest, List.append_assoc _ _ _⟩

theorem starts_assignment :
    (assignmentPart source text p).starts us
      ↔ ∃ key path o c x ms rest, IsKeyPath key path ∧ IsWritten x ms
        ∧ us = ⟨.word key, o⟩ :: ⟨.colon, c⟩ :: (ms ++ rest) := by
  constructor
  · rintro ⟨ts, ⟨key, path, o, c, x, ms, hkey, hx, rfl⟩, rest, rfl⟩
    exact ⟨key, path, o, c, x, ms, rest, hkey, hx, rfl⟩
  · rintro ⟨key, path, o, c, x, ms, rest, hkey, hx, rfl⟩
    exact ⟨_, ⟨key, path, o, c, x, ms, hkey, hx, rfl⟩, rest, rfl⟩

theorem elements_within_value :
    (elementsPart source text).Within (valuePart source text) [⟨.openBracket, s⟩] next where
  texts := by
    rintro ts ⟨xs, ms, c, hxs, rfl⟩
    refine ⟨[], .sequence s xs, ?_⟩
    rw [List.append_nil]
    exact .sequence hxs
  starts := by
    intro us _ h
    obtain ⟨x, ms, rest, hx, heq⟩ := starts_value.1 h
    cases hx with
    | word => cases heq
    | quoted => cases heq
    | table _ => cases heq
    | sequence hxs =>
      rw [List.append_assoc] at heq
      exact starts_elements.2 ⟨_, _, _, rest, hxs, (List.cons.inj heq).2⟩
  clashes := by
    rintro o us more - hc
    cases hc with
    | sequence hc => exact hc
  clash := .sequence

theorem table_within_value :
    (tablePart source text []).Within (valuePart source text) [⟨.openBrace, s⟩] next where
  texts := by
    rintro ts ⟨as, ms, c, has, rfl⟩
    refine ⟨[], .table s as, ?_⟩
    rw [List.append_nil]
    exact .table has
  starts := by
    intro us _ h
    obtain ⟨x, ms, rest, hx, heq⟩ := starts_value.1 h
    cases hx with
    | word => cases heq
    | quoted => cases heq
    | sequence _ => cases heq
    | table has =>
      rw [List.append_assoc] at heq
      exact starts_table.2 ⟨_, _, _, rest, has, (List.cons.inj heq).2⟩
  clashes := by
    rintro o us more - hc
    cases hc with
    | table hc => exact hc
  clash := .table

theorem value_within_elements (hnext : ∀ c, next ≠ some ⟨.closeBracket, c⟩) :
    (valuePart source text).Within (elementsPart source text) [] next where
  texts := by
    rintro ts ⟨x, hx⟩
    exact ⟨[⟨.closeBracket, 0⟩], [x], ts, 0, .last hx, rfl⟩
  starts := by
    rintro us rfl h
    obtain ⟨xs, ms, c, rest, hxs, heq⟩ := starts_elements.1 h
    rw [List.nil_append] at heq
    cases hxs with
    | nil => exact absurd (congrArg List.head? heq) (hnext c)
    | last hx => exact starts_value.2 ⟨_, _, _, hx, heq⟩
    | cons hx _ =>
      rw [List.append_assoc] at heq
      exact starts_value.2 ⟨_, _, _, hx, heq⟩
  clashes := by
    rintro o us more hnot hc
    rw [List.nil_append] at hc
    cases hc with
    | here hc => exact hc
    | next hx _ _ => exact absurd (starts_value.2 ⟨_, _, _, hx, List.append_assoc _ _ _⟩) hnot
  clash := .here

/-- behind a value and a comma there are elements again -/
theorem elements_within_elements (hx : IsWritten x ms) (hv : x.eval source text = .ok v) :
    (elementsPart source text).Within (elementsPart source text) (ms ++ [⟨.comma, c⟩]) next where
  texts := by
    rintro ts ⟨xs, ns, d, hxs, rfl⟩
    refine ⟨[], x :: xs, ms ++ ⟨.comma, c⟩ :: ns, d, .cons hx hxs, ?_⟩
    simp only [List.append_assoc, List.cons_append, List.nil_append, List.append_nil]
  starts := by
    intro us _ h
    obtain ⟨ys, ns, d, rest, hys, heq⟩ := starts_elements.1 h
    rw [List.append_assoc] at heq
    cases hys with
    | nil => exact absurd heq hx.append_ne_closeBracket
    | last hy =>
      obtain ⟨rfl, rfl⟩ := hx.unique hy heq
      cases List.append_cancel_left heq
    | cons hy hys =>
      rw [List.append_assoc] at heq
      obtain ⟨rfl, rfl⟩ := hx.unique hy heq
      exact starts_elements.2
        ⟨_, _, d, rest, hys, (List.cons.inj (List.append_cancel_left heq)).2⟩
  clashes := by
    rintro o us more - hc
    have hc : ClashesElements source text o (ms ++ [⟨.comma, c⟩] ++ us) := hc
    rw [List.append_assoc] at hc
    rcases hc.of_append hx with hc | ⟨c', ns, hcomma, hc⟩
    · exact absurd hc (hx.not_clashes hv)
    · obtain rfl := (List.cons.inj hcomma).2
      exact hc
  clash := by
    intro o us hc
    rw [List.append_assoc]
    exact .next hx hv hc

theorem value_within_assignment (hkey : IsKeyPath key path) :
    (valuePart source text).Within (assignmentPart source text p)
      [⟨.word key, s⟩, ⟨.colon, c⟩] next where
  texts := by
    rintro ts ⟨x, hx⟩
    refine ⟨[], key, path, s, c, x, ts, hkey, hx, ?_⟩
    rw [List.append_nil]
    rfl
  starts := by
    intro us _ h
    obtain ⟨key', path', s', c', x, ms, rest, _, hx, heq⟩ := starts_assignment.1 h
    exact starts_value.2 ⟨x, ms, rest, hx, (List.cons.inj (List.cons.inj heq).2).2⟩
  clashes := by
    rintro o us more hnot hc
    -- the value is not whole yet, so nothing is assigned
    have hno : ∀ {x ms ns}, IsWritten x ms → us ≠ ms ++ ns := by
      rintro x ms ns hx rfl
      exact hnot (starts_value.2 ⟨x, ms, _, hx, List.append_assoc _ _ _⟩)
    cases hc with
    | here _ hx _ _ => exact absurd rfl (hno hx)
    | inside _ hc => exact hc
    | next _ hx _ _ _ => exact absurd rfl (hno hx)
  clash := .inside hkey

theorem assignment_within_table (hnext : ∀ c, next ≠ some ⟨.closeBrace, c⟩) :
    (assignmentPart source text p).Within (tablePart source text p) [] next where
  texts := by
    rintro ts ⟨key, path, s, c, x, ms, hkey, hx, rfl⟩
    refine ⟨[⟨.closeBrace, 0⟩], [(path, x)], _, 0, .cons (o := s) (c := c) hkey hx .nil, ?_⟩
    rw [List.append_nil]
    rfl
  starts := by
    rintro us rfl h
    obtain ⟨as, ms, c, rest, has, heq⟩ := starts_table.1 h
    rw [List.nil_append] at heq
    cases has with
    | nil => exact absurd (congrArg List.head? heq) (hnext c)
    | cons hkey hx _ =>
      rw [List.append_assoc] at heq
      exact starts_assignment.2 ⟨_, _, _, _, _, _, _, hkey, hx, heq⟩
  clashes _ hc := hc
  clash hc := hc

theorem assignment_within_document (hnext : next ≠ none) :
    (assignmentPart source text p).Within (documentPart source text p) [] next where
  texts := by
    rintro ts ⟨key, path, s, c, x, ms, hkey, hx, rfl⟩
    exact ⟨[], [(path, x)], .cons hkey hx .nil⟩
  starts := by
    rintro us rfl ⟨as, has⟩
    cases has with
    | nil => exact absurd rfl hnext
    | cons hkey hx _ => exact starts_assignment.2 ⟨_, _, _, _, _, _, _, hkey, hx, rfl⟩
  clashes _ hc := hc
  clash hc := hc

/-- a clash is not in front of what stands behind an assignment that is made -/
theorem ClashesAssignments.rest {o : Nat} (hkey : IsKeyPath key path) (hx : IsWritten x ms)
    (hv : x.eval source text = .ok v) (hassign : p.assign path v = .ok q)
    (hc : ClashesAssignments source text o p (⟨.word key, s⟩ :: ⟨.colon, c⟩ :: (ms ++ us))) :
    ClashesAssignments source text o q us := by
  rcases hc.of_cons hkey hx hv with hpath | hc | ⟨r, hr, hc⟩
  · exact absurd (exists_assign_iff.1 ⟨q, hassign⟩) hpath
  · exact absurd hc (hx.not_clashes hv)
  · obtain rfl := Except.ok.inj (hassign.symm.trans hr)
    exact hc

/-- behind an assignment there are assignments again, to the set that it leaves -/
theorem table_within_table (hkey : IsKeyPath key path) (hx : IsWritten x ms)
    (hv : x.eval source text = .ok v) (hassign : p.assign path v = .ok q) :
    (tablePart source text q).Within (tablePart source text p)
      (⟨.word key, s⟩ :: ⟨.colon, c⟩ :: ms) next where
  texts := by
    rintro ts ⟨as, ns, d, has, rfl⟩
    refine ⟨[], (path, x) :: as, _, d, .cons (o := s) (c := c) hkey hx has, ?_⟩
    simp only [List.append_assoc, List.append_nil]
  starts := by
    intro us _ h
    obtain ⟨bs, ns, d, rest, hbs, heq⟩ := starts_table.1 h
    cases hbs with
    | nil => cases heq
    | cons _ hy hbs =>
      rw [List.append_assoc] at heq
      have heq := (List.cons.inj (List.cons.inj heq).2).2
      obtain ⟨rfl, rfl⟩ := hx.unique hy heq
      exact starts_table.2 ⟨_, _, d, rest, hbs, List.append_cancel_left heq⟩
  clashes _ hc := hc.rest hkey hx hv hassign
  clash hc := .next hkey hx hv hassign hc

theorem document_within_document (hkey : IsKeyPath key path) (hx : IsWritten x ms)
    (hv : x.eval source text = .ok v) (hassign : p.assign path v = .ok q) :
    (documentPart source text q).Within (documentPart source text p)
      (⟨.word key, s⟩ :: ⟨.colon, c⟩ :: ms) next where
  texts := by
    rintro ts ⟨as, has⟩
    refine ⟨[], (path, x) :: as, ?_⟩
    rw [List.append_nil]
    exact .cons hkey hx has
  starts := by
    rintro us - ⟨bs, hbs⟩
    generalize hall : (⟨.word key, s⟩ :: ⟨.colon, c⟩ :: ms) ++ us = all at hbs
    cases hbs with
    | nil => cases hall
    | cons _ hy hbs =>
      have heq := (List.cons.inj (List.cons.inj hall).2).2
      obtain ⟨rfl, rfl⟩ := hx.unique hy heq
      obtain rfl := List.append_cancel_left heq
      exact ⟨_, hbs⟩
  clashes _ hc := hc.rest hkey hx hv hassign
  clash hc := .next hkey hx hv hassign hc

end

end ParamSchema
