import ParamSchema.Proofs.Schema.FaultList

/-!
# The faults on either side of a pair

The fault list of a pair is cut where a pair below it has its own list: in front is what is reported
at the sites before that pair, then come the faults at its site and below, and behind them what is
reported at later sites (`Pair.Splits`).

* `Pair.Parts`         the cut at a pair right below, one lemma for each kind of step;
* `Parts.of_flatMap`   members and elements are walked one after the other;
* `Splits.step`        cuts at every depth, one step at a time.
-/

namespace ParamSchema

/-! ## sites around a site -/

theorem Step.Before.asymm {st c : Step} (h : st.Before c) : ¬ c.Before st := by
  intro h'
  cases h with
  | members h =>
    cases h' with
    | members h' => exact Nat.lt_asymm h h'
  | memberUnknown => cases h'
  | unknowns h =>
    cases h' with
    | unknowns h' => exact Nat.lt_asymm h h'
  | elements h =>
    cases h' with
    | elements h' => exact Nat.lt_asymm h h'

theorem Site.before_cons {t site : Site} {st : Step} :
    Site.Before t (st :: site)
      ↔ t = [] ∨ ∃ c rest, t = c :: rest ∧ (c.Before st ∨ c = st ∧ Site.Before rest site) := by
  constructor
  · intro h
    cases h with
    | nil => exact .inl rfl
    | rel h => exact .inr ⟨_, _, rfl, .inl h⟩
    | cons h => exact .inr ⟨_, _, rfl, .inr ⟨rfl, h⟩⟩
  · intro h
    rcases h with rfl | ⟨c, rest, rfl, h | ⟨rfl, h⟩⟩
    · exact List.Lex.nil
    · exact List.Lex.rel h
    · exact List.Lex.cons h

theorem Site.cons_before {t site : Site} {st : Step} :
    Site.Before (st :: site) t
      ↔ ∃ c rest, t = c :: rest ∧ (st.Before c ∨ c = st ∧ Site.Before site rest) := by
  constructor
  · intro h
    cases h with
    | rel h => exact ⟨_, _, rfl, .inl h⟩
    | cons h => exact ⟨_, _, rfl, .inr ⟨rfl, h⟩⟩
  · intro h
    obtain ⟨c, rest, rfl, h | ⟨rfl, h⟩⟩ := h
    · exact List.Lex.rel h
    · exact List.Lex.cons h

/-! ## the faults around a pair -/

namespace Pair

variable {ignore : List String} {n m k : Pair} {st : Step} {site rest : Site} {f : Fault}
  {front back front' back' : List Fault}

/-- the faults of a pair and of all that is below it -/
def faults (ignore : List String) (n : Pair) : List Fault :=
  n.descriptor.entryFaults ignore n.key n.value?

theorem listed_faults (ignore : List String) (n : Pair) :
    Listed (n.faults ignore) (n.Violation ignore) := by
  obtain ⟨key, d, v?⟩ := n
  cases v? with
  | none => exact Descriptor.listed_absent ignore key d
  | some v => exact Descriptor.listed_faults ignore key d v

theorem Move.unique (h : n.Move st m) (h' : n.Move st k) : m = k := by
  cases h with
  | member hd =>
    cases h' with
    | member hd' => rw [Option.some.inj (hd.symm.trans hd')]
  | element hx =>
    cases h' with
    | element hx' => rw [Option.some.inj (hx.symm.trans hx')]
  | place he hx =>
    cases h' with
    | place he' hx' =>
      rw [Option.some.inj (he.symm.trans he'), Option.some.inj (hx.symm.trans hx')]
  | content =>
    cases h'
    rfl

/-- what is wrong at a pair itself is not below one of its moves -/
theorem Move.not_violates (h : n.Move st m) : ¬ n.Violates ignore (st :: rest) f := by
  intro hviol
  cases h <;> cases hviol

theorem Move.violation_cons (h : n.Move st m) :
    n.Violation ignore (st :: rest) f ↔ m.Violation ignore rest f := by
  rw [Pair.violation_iff]
  constructor
  · intro hviol
    rcases hviol with hviol | ⟨st', k, rest', hmove, hviol, heq⟩
    · exact absurd hviol h.not_violates
    · obtain ⟨rfl, rfl⟩ := List.cons.inj heq
      rwa [h.unique hmove]
  · intro hviol
    exact .inr ⟨st, m, rest, h, hviol, rfl⟩

/-- the faults of a pair: those of a pair right below it, those of the sites before it, and those
of the sites after it -/
structure Parts (ignore : List String) (n : Pair) (st : Step) (m : Pair)
    (front back : List Fault) : Prop where
  move : n.Move st m
  before : Listed front fun t f =>
    n.Violation ignore t f ∧ (t = [] ∨ ∃ c rest, t = c :: rest ∧ c.Before st)
  after : Listed back fun t f => n.Violation ignore t f ∧ ∃ c rest, t = c :: rest ∧ st.Before c
  faults : n.faults ignore = front ++ m.faults ignore ++ back

/-- the faults of a pair: those of a pair at a site below it, which are the faults at that site and
below, those of the sites before it, and those of the sites after it -/
structure Splits (ignore : List String) (n : Pair) (site : Site) (m : Pair)
    (front back : List Fault) : Prop where
  reach : n.Reach site m
  before : Listed front fun t f => n.Violation ignore t f ∧ t.Before site
  within : Listed (m.faults ignore) fun t f => n.Violation ignore t f ∧ site <+: t
  after : Listed back fun t f => n.Violation ignore t f ∧ site.Before t ∧ ¬ site <+: t
  faults : n.faults ignore = front ++ m.faults ignore ++ back

theorem Splits.here (ignore : List String) (n : Pair) : n.Splits ignore [] n [] [] where
  reach := .here
  before := .nil fun t f h => nomatch h.2
  within := (n.listed_faults ignore).congr fun t f =>
    ⟨fun h => ⟨h, List.nil_prefix⟩, And.left⟩
  after := .nil fun t f h => h.2.2 List.nil_prefix
  faults := by rw [List.nil_append, List.append_nil]

theorem Splits.step (hparts : n.Parts ignore st m front back)
    (h : m.Splits ignore site k front' back') :
    n.Splits ignore (st :: site) k (front ++ front') (back' ++ back) where
  reach := .step hparts.move h.reach
  before := by
    refine (hparts.before.append (h.before.below st) ?_).congr fun t f => ?_
    · intro t f t' f' ht ht'
      obtain ⟨rest, _, rfl⟩ := ht'
      rcases ht.2 with rfl | ⟨c, rest', rfl, hc⟩
      · exact List.Lex.nil
      · exact List.Lex.rel hc
    · rw [Site.before_cons]
      constructor
      · intro ht
        rcases ht with ⟨hviol, ht⟩ | ⟨rest, ⟨hviol, hrest⟩, rfl⟩
        · refine ⟨hviol, ht.imp_right fun ht => ?_⟩
          obtain ⟨c, rest, rfl, hc⟩ := ht
          exact ⟨c, rest, rfl, .inl hc⟩
        · exact ⟨hparts.move.violation_cons.2 hviol, .inr ⟨st, rest, rfl, .inr ⟨rfl, hrest⟩⟩⟩
      · intro ht
        obtain ⟨hviol, rfl | ⟨c, rest, rfl, hc | ⟨rfl, hrest⟩⟩⟩ := ht
        · exact .inl ⟨hviol, .inl rfl⟩
        · exact .inl ⟨hviol, .inr ⟨c, rest, rfl, hc⟩⟩
        · exact .inr ⟨rest, ⟨hparts.move.violation_cons.1 hviol, hrest⟩, rfl⟩
  within := by
    refine (h.within.below st).congr fun t f => ?_
    constructor
    · intro ht
      obtain ⟨rest, ⟨hviol, hrest⟩, rfl⟩ := ht
      exact ⟨hparts.move.violation_cons.2 hviol, List.cons_prefix_cons.2 ⟨rfl, hrest⟩⟩
    · intro ht
      obtain ⟨hviol, below, rfl⟩ := ht
      exact ⟨site ++ below, ⟨hparts.move.violation_cons.1 hviol, List.prefix_append site below⟩,
        rfl⟩
  after := by
    refine ((h.after.below st).append hparts.after ?_).congr fun t f => ?_
    · intro t f t' f' ht ht'
      obtain ⟨rest, _, rfl⟩ := ht
      obtain ⟨_, c, rest', rfl, hc⟩ := ht'
      exact List.Lex.rel hc
    · rw [Site.cons_before]
      constructor
      · intro ht
        rcases ht with ⟨rest, ⟨hviol, hrest, hno⟩, rfl⟩ | ⟨hviol, c, rest, rfl, hc⟩
        · exact ⟨hparts.move.violation_cons.2 hviol, ⟨st, rest, rfl, .inr ⟨rfl, hrest⟩⟩,
            fun hprefix => hno (List.cons_prefix_cons.1 hprefix).2⟩
        · refine ⟨hviol, ⟨c, rest, rfl, .inl hc⟩, fun hprefix => ?_⟩
          obtain rfl := (List.cons_prefix_cons.1 hprefix).1
          exact st.not_before_self hc
      · intro ht
        obtain ⟨hviol, ⟨c, rest, rfl, hc | ⟨rfl, hrest⟩⟩, hno⟩ := ht
        · exact .inr ⟨hviol, c, rest, rfl, hc⟩
        · exact .inl ⟨rest, ⟨hparts.move.violation_cons.1 hviol, hrest,
            fun hprefix => hno (List.cons_prefix_cons.2 ⟨rfl, hprefix⟩)⟩, rfl⟩
  faults := by
    rw [hparts.faults, h.faults]
    simp only [List.append_assoc]

/-- sites before a step, at it, and after it: what is listed on either side of it -/
theorem Parts.of_listed {A B : Site → Fault → Prop} (hA : Listed front A) (hB : Listed back B)
    (hbefore : ∀ t f, A t f → t = [] ∨ ∃ c rest, t = c :: rest ∧ c.Before st)
    (hafter : ∀ t f, B t f → ∃ c rest, t = c :: rest ∧ st.Before c)
    (hviol : ∀ t f, n.Violation ignore t f
      ↔ A t f ∨ (∃ rest, m.Violation ignore rest f ∧ t = st :: rest) ∨ B t f)
    (hmove : n.Move st m) (hfaults : n.faults ignore = front ++ m.faults ignore ++ back) :
    n.Parts ignore st m front back := by
  refine ⟨hmove, hA.congr fun t f => ?_, hB.congr fun t f => ?_, hfaults⟩
  · constructor
    · exact fun h => ⟨(hviol t f).2 (.inl h), hbefore t f h⟩
    · intro h
      obtain ⟨hviolated, ht⟩ := h
      rcases (hviol t f).1 hviolated with h | ⟨rest, _, rfl⟩ | h
      · exact h
      · rcases ht with hnil | ⟨c, rest', heq, hc⟩
        · cases hnil
        · obtain ⟨rfl, rfl⟩ := List.cons.inj heq
          exact absurd hc (Step.not_before_self _)
      · obtain ⟨c, rest, rfl, hlate⟩ := hafter t f h
        rcases ht with hnil | ⟨c', rest', heq, hc⟩
        · cases hnil
        · obtain ⟨rfl, rfl⟩ := List.cons.inj heq
          exact absurd hc hlate.asymm
  · constructor
    · exact fun h => ⟨(hviol t f).2 (.inr (.inr h)), hafter t f h⟩
    · intro h
      obtain ⟨hviolated, c, rest, rfl, hc⟩ := h
      rcases (hviol _ f).1 hviolated with h | ⟨rest', _, heq⟩ | h
      · rcases hbefore _ f h with hnil | ⟨c', rest', heq, hearly⟩
        · cases hnil
        · obtain ⟨rfl, rfl⟩ := List.cons.inj heq
          exact absurd hc hearly.asymm
      · obtain ⟨rfl, rfl⟩ := List.cons.inj heq
        exact absurd hc (Step.not_before_self _)
      · exact h

/-- pairs below one pair, walked one after the other -/
theorem Parts.of_flatMap {α : Type} (xs : List α) (x : α) (ys : List α) (stepAt : Nat → Step)
    (child : α → Nat → Pair) {own tail : List Fault} {Own Tail : Site → Fault → Prop}
    (hmono : ∀ {i j}, i < j → (stepAt i).Before (stepAt j))
    (hown : Listed own Own) (htail : Listed tail Tail) (hhere : ∀ t f, Own t f → t = [])
    (hlast : ∀ t f, Tail t f → ∃ c rest, t = c :: rest ∧ ∀ i, (stepAt i).Before c)
    (hviol : ∀ t f, n.Violation ignore t f ↔ Own t f
      ∨ (∃ z j rest, (z, j) ∈ (xs ++ x :: ys).zipIdx ∧ (child z j).Violation ignore rest f
        ∧ t = stepAt j :: rest)
      ∨ Tail t f)
    (hmove : n.Move (stepAt xs.length) (child x xs.length))
    (hfaults : n.faults ignore
      = own ++ ((xs ++ x :: ys).zipIdx.flatMap fun a => (child a.1 a.2).faults ignore) ++ tail) :
    n.Parts ignore (stepAt xs.length) (child x xs.length)
      (own ++ xs.zipIdx.flatMap fun a => (child a.1 a.2).faults ignore)
      (((ys.zipIdx (xs.length + 1)).flatMap fun a => (child a.1 a.2).faults ignore) ++ tail) := by
  have hzipIdx : (xs ++ x :: ys).zipIdx
      = xs.zipIdx ++ (x, xs.length) :: ys.zipIdx (xs.length + 1) := by
    rw [List.zipIdx_append, List.zipIdx_cons, Nat.zero_add]
  rw [hzipIdx] at hviol hfaults
  have hlisted : ∀ (zs : List α) (i : Nat),
      Listed ((zs.zipIdx i).flatMap fun a => (child a.1 a.2).faults ignore) fun t f =>
        ∃ z j rest, (z, j) ∈ zs.zipIdx i ∧ (child z j).Violation ignore rest f
          ∧ t = stepAt j :: rest :=
    fun zs i => Listed.flatMap zs i stepAt hmono (fun z j => (child z j).faults ignore)
      (fun z j => (child z j).Violation ignore) fun z j _ => (child z j).listed_faults ignore
  refine .of_listed (hown.append (hlisted xs 0) ?_) ((hlisted ys _).append htail ?_) ?_ ?_ ?_
    hmove ?_
  · intro t f t' f' ht ht'
    obtain ⟨z, j, rest, _, _, rfl⟩ := ht'
    rw [hhere t f ht]
    exact List.Lex.nil
  · intro t f t' f' ht ht'
    obtain ⟨z, j, rest, _, _, rfl⟩ := ht
    obtain ⟨c, rest', rfl, hlate⟩ := hlast t' f' ht'
    exact List.Lex.rel (hlate j)
  · intro t f h
    rcases h with h | ⟨z, j, rest, hmem, _, rfl⟩
    · exact .inl (hhere t f h)
    · have hj : j < xs.length :=
        (List.getElem?_eq_some_iff.1 (List.mem_zipIdx_iff_getElem?.1 hmem)).1
      exact .inr ⟨_, _, rfl, hmono hj⟩
  · intro t f h
    rcases h with ⟨z, j, rest, hmem, _, rfl⟩ | h
    · exact ⟨_, _, rfl, hmono (List.le_snd_of_mem_zipIdx hmem)⟩
    · obtain ⟨c, rest, rfl, hlate⟩ := hlast t f h
      exact ⟨c, rest, rfl, hlate _⟩
  · intro t f
    simp only [hviol, List.mem_append, List.mem_cons, Prod.mk.injEq, or_and_right, exists_or,
      and_assoc, exists_and_left, exists_eq_left, or_assoc]
  · rw [hfaults, List.flatMap_append, List.flatMap_cons]
    simp only [List.append_assoc]

end Pair

/-! ## each kind of pair -/

namespace Descriptor

variable {ignore : List String} {key : String} {h : Heading} {d e m : Descriptor}
  {ms ns es fs : List Descriptor} {bd : LengthBound} {x? : Option Bound} {o : Option Origin}
  {p q : ParamSet} {v w : Value} {xs ys xs' ys' : List Value}

theorem memberFaults_eq_zipIdx (ignore : List String) (key : String) (p : ParamSet)
    (ms : List Descriptor) (i : Nat) :
    memberFaults ignore key p ms = (ms.zipIdx i).flatMap fun a =>
      Pair.faults ignore ⟨joinKey key a.1.name, a.1, Entries.get? p a.1.name⟩ := by
  rw [memberFaults_eq_flatMap, flatMap_eq_zipIdx_flatMap _ i]
  rfl

/-- the faults of a table on either side of those of a member -/
theorem parts_member :
    Pair.Parts ignore ⟨key, .table h (ms ++ m :: ns), some (.table o p)⟩ (.member ms.length)
      ⟨joinKey key m.name, m, Entries.get? p m.name⟩ (memberFaults ignore key p ms)
      (memberFaults ignore key p ns ++ unknownFaults ignore key (ms ++ m :: ns) p) := by
  rw [memberFaults_eq_zipIdx ignore key p ms 0,
    memberFaults_eq_zipIdx ignore key p ns (ms.length + 1)]
  refine Pair.Parts.of_flatMap ms m ns Step.member
    (fun d _ => ⟨joinKey key d.name, d, Entries.get? p d.name⟩) Step.Before.members
    (Listed.nil fun _ _ h => h) (listed_unknown ignore key (ms ++ m :: ns) p)
    (fun _ _ h => h.elim) ?_ (fun t f => ?_) (.member ?_) ?_
  · intro t f ht
    obtain ⟨_, j, rest, _, _, rfl⟩ := ht
    exact ⟨_, _, rfl, fun _ => .memberUnknown⟩
  · rw [violation_table, false_or]
  · rw [List.getElem?_append_right (Nat.le_refl _), Nat.sub_self, List.getElem?_cons_zero]
  · rw [Pair.faults, entryFaults, faults, List.nil_append, memberFaults_eq_zipIdx _ _ _ _ 0]

/-- the faults of some elements, each under its own descriptor, from the place `i` on -/
def elementFaults (ignore : List String) (key : String) (i : Nat)
    (zs : List (Descriptor × Value)) : List Fault :=
  (zs.zipIdx i).flatMap fun a => Pair.faults ignore ⟨indexKey key a.2, a.1.1, some a.1.2⟩

theorem elementFaults_map (e : Descriptor) (xs : List Value) (i : Nat) :
    elementFaults ignore key i (xs.map fun x => (e, x))
      = (xs.zipIdx i).flatMap fun a => Pair.faults ignore ⟨indexKey key a.2, e, some a.1⟩ := by
  rw [elementFaults, List.zipIdx_map, List.flatMap_map]
  rfl

/-- the faults of a sequence on either side of those of an element -/
theorem parts_element :
    Pair.Parts ignore ⟨key, .sequence h e bd x?, some (.sequence o (xs ++ v :: ys))⟩
      (.element xs.length) ⟨indexKey key xs.length, e, some v⟩
      ((if bd.admits (xs ++ v :: ys).length = true then []
          else [⟨key, .lengthOutOfBounds bd (xs ++ v :: ys).length⟩])
        ++ elementFaults ignore key 0 (xs.map fun x => (e, x)))
      (elementFaults ignore key (xs.length + 1) (ys.map fun x => (e, x))) := by
  rw [elementFaults_map, elementFaults_map, ← List.append_nil (List.flatMap _ (ys.zipIdx _))]
  refine Pair.Parts.of_flatMap xs v ys Step.element (fun x i => ⟨indexKey key i, e, some x⟩)
    Step.Before.elements (Listed.singleUnless _ _) (Listed.nil fun _ _ h => h)
    (fun _ _ h => h.2.1) (fun _ _ h => h.elim) (fun t f => ?_) (.element ?_) ?_
  · rw [violation_sequence, or_false]
  · rw [List.getElem?_append_right (Nat.le_refl _), Nat.sub_self, List.getElem?_cons_zero]
  · rw [Pair.faults, entryFaults, faults, List.append_nil, List.flatMap_def]
    rfl

/-- the faults of a tuple on either side of those of an element -/
theorem parts_place (hlen : es.length = xs.length) :
    Pair.Parts ignore ⟨key, .tuple h (es ++ e :: fs) x?, some (.sequence o (xs ++ v :: ys))⟩
      (.element xs.length) ⟨indexKey key xs.length, e, some v⟩
      ((if (xs ++ v :: ys).length = (es ++ e :: fs).length then []
          else [⟨key, .arityMismatch (es ++ e :: fs).length (xs ++ v :: ys).length⟩])
        ++ elementFaults ignore key 0 (es.zip xs))
      (elementFaults ignore key (xs.length + 1) (fs.zip ys)) := by
  have hzip : (es ++ e :: fs).zip (xs ++ v :: ys) = es.zip xs ++ (e, v) :: fs.zip ys := by
    rw [List.zip_append hlen, List.zip_cons_cons]
  have hplace : (es.zip xs).length = xs.length := by
    rw [List.length_zip, hlen, Nat.min_self]
  rw [elementFaults, elementFaults, ← hplace,
    ← List.append_nil (List.flatMap _ (List.zipIdx (fs.zip ys) _))]
  refine Pair.Parts.of_flatMap (es.zip xs) (e, v) (fs.zip ys) Step.element
    (fun ex i => ⟨indexKey key i, ex.1, some ex.2⟩) Step.Before.elements (Listed.singleUnless _ _)
    (Listed.nil fun _ _ h => h) (fun _ _ h => h.2.1) (fun _ _ h => h.elim) (fun t f => ?_)
    (.place ?_ ?_) ?_
  · rw [violation_tuple, or_false, hzip]
  · rw [hplace, ← hlen, List.getElem?_append_right (Nat.le_refl _), Nat.sub_self,
      List.getElem?_cons_zero]
  · rw [hplace, List.getElem?_append_right (Nat.le_refl _), Nat.sub_self, List.getElem?_cons_zero]
  · rw [Pair.faults, entryFaults, faults, List.append_nil, placeFaults_eq_flatMap, hzip]
    rfl

theorem parts_content :
    Pair.Parts ignore ⟨key, .optional d, some v⟩ .content ⟨key, d, some v⟩ [] [] := by
  refine .of_listed (Listed.nil fun _ _ h => h) (Listed.nil fun _ _ h => h)
    (fun _ _ h => h.elim) (fun _ _ h => h.elim) (fun t f => ?_) .content ?_
  · rw [false_or, or_false, violation_optional]
  · rw [Pair.faults, entryFaults, faults, List.nil_append, List.append_nil]
    rfl

end Descriptor
end ParamSchema
