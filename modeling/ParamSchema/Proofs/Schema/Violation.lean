import ParamSchema.Proofs.Schema.Walk
import Mathlib.Data.List.Pairwise

/-!
# Violations

What validation ought to report, said without a walk.  A `Pair` is a parameter with its entry; from
a pair one `Move` leads to each pair right below it, so that the pairs of a schema and a parameter
set are those that the root reaches.  A pair is violated on its own account (`Pair.Violates`): the
entry is missing, has the wrong shape or length, does not decode, or is a table with a key that
nobody declares and nobody ignores.

* `Site`               the steps from the root to a violation, no two violations at one site;
* `Site.Before`        members before unknown keys, both in order, a pair before what is below;
* `Pair.Violation`     a violation somewhere below a pair;
* `Listed fs V`        `fs` are the faults of the violations `V`, one for each, in that order.

A list of faults is put together in the same way as the violations are, so every constructor of a
descriptor has its `Listed` lemma, and the induction joins them (`listed_faults`).
-/

namespace ParamSchema

/-! ## sites -/

inductive Step where
  /-- to the parameter at a place of a table -/
  | member (i : Nat)
  /-- to an entry of a table that no parameter names -/
  | unknown (j : Nat)
  /-- to an element of a sequence or tuple -/
  | element (i : Nat)
  /-- to what an optional parameter wraps -/
  | content
deriving DecidableEq

abbrev Site := List Step

/-- the order of two steps from one pair -/
inductive Step.Before : Step → Step → Prop
  | members {i j : Nat} : i < j → Before (.member i) (.member j)
  | memberUnknown {i j : Nat} : Before (.member i) (.unknown j)
  | unknowns {i j : Nat} : i < j → Before (.unknown i) (.unknown j)
  | elements {i j : Nat} : i < j → Before (.element i) (.element j)

def Site.Before : Site → Site → Prop := List.Lex Step.Before

theorem Step.not_before_self (st : Step) : ¬ st.Before st := by
  intro h
  cases h with
  | members h => exact Nat.lt_irrefl _ h
  | unknowns h => exact Nat.lt_irrefl _ h
  | elements h => exact Nat.lt_irrefl _ h

theorem Site.not_before_self (s : Site) : ¬ s.Before s := by
  induction s with
  | nil =>
    intro h
    cases h
  | cons st s ih =>
    intro h
    cases h with
    | rel h => exact Step.not_before_self st h
    | cons h => exact ih h

/-! ## pairs -/

/-- a parameter under a key, and its entry if there is one -/
structure Pair where
  key : String
  descriptor : Descriptor
  value? : Option Value

namespace Pair

/-- from a pair to one right below it -/
inductive Move : Pair → Step → Pair → Prop
  | member {key : String} {h : Heading} {ms : List Descriptor} {o : Option Origin} {q : ParamSet}
      {i : Nat} {d : Descriptor} :
      ms[i]? = some d →
        Move ⟨key, .table h ms, some (.table o q)⟩ (.member i)
          ⟨joinKey key d.name, d, Entries.get? q d.name⟩
  | element {key : String} {h : Heading} {e : Descriptor} {b : LengthBound} {x? : Option Bound}
      {o : Option Origin} {xs : List Value} {i : Nat} {x : Value} :
      xs[i]? = some x →
        Move ⟨key, .sequence h e b x?, some (.sequence o xs)⟩ (.element i)
          ⟨indexKey key i, e, some x⟩
  | place {key : String} {h : Heading} {es : List Descriptor} {x? : Option Bound}
      {o : Option Origin} {xs : List Value} {i : Nat} {e : Descriptor} {x : Value} :
      es[i]? = some e → xs[i]? = some x →
        Move ⟨key, .tuple h es x?, some (.sequence o xs)⟩ (.element i) ⟨indexKey key i, e, some x⟩
  | content {key : String} {d : Descriptor} {v : Value} :
      Move ⟨key, .optional d, some v⟩ .content ⟨key, d, some v⟩

/-- the pairs below a pair, and the steps that lead there -/
inductive Reach : Pair → Site → Pair → Prop
  | here {n : Pair} : Reach n [] n
  | step {n m k : Pair} {st : Step} {site : Site} :
      Move n st m → Reach m site k → Reach n (st :: site) k

/-- the ignore list holds the key or one above it -/
def Hidden (ignore : List String) (key : String) : Prop :=
  ∃ above ∈ ignore, key.toList = above.toList
    ∨ ∃ c rest, (c = '.' ∨ c = '[') ∧ key.toList = above.toList ++ c :: rest

/-- what is wrong at a pair, seen from there -/
inductive Violates (ignore : List String) : Pair → Site → Fault → Prop
  | missing {key : String} {d : Descriptor} :
      d.mayBeAbsent = false → Violates ignore ⟨key, d, none⟩ [] ⟨key, .missing⟩
  | notAnAtom {key : String} {h : Heading} {t : ScalarType} {x? : Option Scalar} {v : Value} :
      v.asAtom? = none →
        Violates ignore ⟨key, .atom h t x?, some v⟩ [] ⟨key, .typeMismatch t.name v.shape⟩
  | undecodable {key : String} {h : Heading} {t : ScalarType} {x? : Option Scalar}
      {o : Option Origin} {literal : String} {e : DecodeError} :
      t.decode literal = .error e →
        Violates ignore ⟨key, .atom h t x?, some (.atom o literal)⟩ []
          ⟨key, .typeMismatch t.name ("'" ++ literal ++ "' (" ++ e.message ++ ")")⟩
  | notATable {key : String} {h : Heading} {ms : List Descriptor} {v : Value} :
      v.asTable? = none →
        Violates ignore ⟨key, .table h ms, some v⟩ [] ⟨key, .typeMismatch "a table" v.shape⟩
  | notASequence {key : String} {h : Heading} {e : Descriptor} {b : LengthBound}
      {x? : Option Bound} {v : Value} :
      v.asSequence? = none →
        Violates ignore ⟨key, .sequence h e b x?, some v⟩ [] ⟨key, .notASequence v.shape⟩
  | length {key : String} {h : Heading} {e : Descriptor} {b : LengthBound} {x? : Option Bound}
      {o : Option Origin} {xs : List Value} :
      b.admits xs.length = false →
        Violates ignore ⟨key, .sequence h e b x?, some (.sequence o xs)⟩ []
          ⟨key, .lengthOutOfBounds b xs.length⟩
  | notATuple {key : String} {h : Heading} {es : List Descriptor} {x? : Option Bound} {v : Value} :
      v.asSequence? = none →
        Violates ignore ⟨key, .tuple h es x?, some v⟩ [] ⟨key, .notASequence v.shape⟩
  | arity {key : String} {h : Heading} {es : List Descriptor} {x? : Option Bound}
      {o : Option Origin} {xs : List Value} :
      xs.length ≠ es.length →
        Violates ignore ⟨key, .tuple h es x?, some (.sequence o xs)⟩ []
          ⟨key, .arityMismatch es.length xs.length⟩
  | unknown {key : String} {h : Heading} {ms : List Descriptor} {o : Option Origin} {q : ParamSet}
      {j : Nat} {name : String} {v : Value} :
      q[j]? = some (name, v) → (∀ d ∈ ms, d.name ≠ name) → ¬ Hidden ignore (joinKey key name) →
        Violates ignore ⟨key, .table h ms, some (.table o q)⟩ [.unknown j]
          ⟨joinKey key name, .unknown⟩

/-- what is wrong at a pair or below it -/
def Violation (ignore : List String) (n : Pair) (site : Site) (f : Fault) : Prop :=
  ∃ above m below, n.Reach above m ∧ m.Violates ignore below f ∧ site = above ++ below

/-- a violation is one of the pair itself, or of a pair one step below -/
theorem violation_iff {ignore : List String} {n : Pair} {site : Site} {f : Fault} :
    n.Violation ignore site f ↔
      n.Violates ignore site f
        ∨ ∃ st m rest, n.Move st m ∧ m.Violation ignore rest f ∧ site = st :: rest := by
  constructor
  · intro h
    obtain ⟨above, m, below, hreach, hviol, rfl⟩ := h
    cases hreach with
    | here => exact .inl hviol
    | step hmove hrest => exact .inr ⟨_, _, _, hmove, ⟨_, m, below, hrest, hviol, rfl⟩, rfl⟩
  · intro h
    rcases h with hviol | ⟨st, m, rest, hmove, ⟨above, k, below, hreach, hviol, rfl⟩, rfl⟩
    · exact ⟨[], n, site, .here, hviol, rfl⟩
    · exact ⟨st :: above, k, below, .step hmove hreach, hviol, rfl⟩

/-- nothing is below a pair that no move leads away from -/
theorem violation_of_not_move {ignore : List String} {n : Pair} (h : ∀ st m, ¬ n.Move st m)
    (site : Site) (f : Fault) : n.Violation ignore site f ↔ n.Violates ignore site f := by
  rw [violation_iff]
  constructor
  · intro h
    rcases h with hviol | ⟨st, m, rest, hmove, _⟩
    · exact hviol
    · exact absurd hmove (h st m)
  · exact .inl

end Pair

/-! ## the ignore list -/

theorem coversChars_iff {as cs : List Char} :
    coversChars as cs = true ↔ cs = as ∨ ∃ c rest, (c = '.' ∨ c = '[') ∧ cs = as ++ c :: rest := by
  fun_induction coversChars as cs with
  | case1 => simp
  | case2 c cs => simp
  | case3 a as => simp
  | case4 a as c cs ih =>
    simp only [Bool.and_eq_true, decide_eq_true_eq, ih, List.cons_append, List.cons.injEq]
    constructor
    · intro h
      obtain ⟨rfl, h | ⟨d, rest, hd, h⟩⟩ := h
      · exact .inl ⟨rfl, h⟩
      · exact .inr ⟨d, rest, hd, rfl, h⟩
    · intro h
      rcases h with ⟨rfl, h⟩ | ⟨d, rest, hd, rfl, h⟩
      · exact ⟨rfl, .inl h⟩
      · exact ⟨rfl, .inr ⟨d, rest, hd, h⟩⟩

theorem isIgnored_iff {ignore : List String} {key : String} :
    isIgnored ignore key = true ↔ Pair.Hidden ignore key := by
  simp only [isIgnored, List.any_eq_true, covers, coversChars_iff, Pair.Hidden]

/-! ## lists of faults -/

/-- `fs` are the faults of the violations `V`, one for each, in the order of their sites -/
def Listed (fs : List Fault) (V : Site → Fault → Prop) : Prop :=
  ∃ vs : List (Site × Fault), vs.map Prod.snd = fs ∧ vs.Pairwise (fun a b => a.1.Before b.1)
    ∧ ∀ site f, (site, f) ∈ vs ↔ V site f

namespace Listed

variable {fs gs : List Fault} {V W : Site → Fault → Prop}

theorem congr (h : ∀ site f, V site f ↔ W site f) (hV : Listed fs V) : Listed fs W := by
  obtain ⟨vs, hfs, hvs, hmem⟩ := hV
  exact ⟨vs, hfs, hvs, fun site f => (hmem site f).trans (h site f)⟩

theorem nil (h : ∀ site f, ¬ V site f) : Listed [] V :=
  ⟨[], rfl, List.Pairwise.nil, fun site f => iff_of_false List.not_mem_nil (h site f)⟩

/-- one violation, of the pair itself -/
theorem single {f : Fault} (h : ∀ site g, V site g ↔ site = [] ∧ g = f) : Listed [f] V := by
  refine ⟨[([], f)], rfl, List.pairwise_singleton _ _, fun site g => ?_⟩
  rw [h, List.mem_singleton, Prod.mk.injEq]

/-- a violation of the pair itself, unless a condition holds -/
theorem singleUnless (c : Prop) [Decidable c] (f : Fault) :
    Listed (if c then [] else [f]) fun site g => ¬ c ∧ site = [] ∧ g = f := by
  by_cases h : c
  · rw [if_pos h]
    exact nil fun site g hV => hV.1 h
  · rw [if_neg h]
    exact single fun site g => and_iff_right h

theorem append (hV : Listed fs V) (hW : Listed gs W)
    (before : ∀ s f t g, V s f → W t g → s.Before t) :
    Listed (fs ++ gs) fun s f => V s f ∨ W s f := by
  obtain ⟨vs, rfl, hvs, hmemV⟩ := hV
  obtain ⟨ws, rfl, hws, hmemW⟩ := hW
  refine ⟨vs ++ ws, List.map_append, ?_, fun s f => ?_⟩
  · refine List.pairwise_append.2 ⟨hvs, hws, fun a ha b hb => ?_⟩
    exact before a.1 a.2 b.1 b.2 ((hmemV _ _).1 ha) ((hmemW _ _).1 hb)
  · rw [List.mem_append, hmemV, hmemW]

/-- the violations of a pair, seen from one step above it -/
theorem below (st : Step) (hV : Listed fs V) :
    Listed fs fun s f => ∃ rest, V rest f ∧ s = st :: rest := by
  obtain ⟨vs, rfl, hvs, hmem⟩ := hV
  refine ⟨vs.map fun a => (st :: a.1, a.2), ?_, ?_, fun s f => ?_⟩
  · rw [List.map_map]
    rfl
  · exact List.pairwise_map.2 (hvs.imp List.Lex.cons)
  · simp only [List.mem_map, Prod.mk.injEq, Prod.exists, hmem]
    constructor
    · intro h
      obtain ⟨rest, g, hV, rfl, rfl⟩ := h
      exact ⟨rest, hV, rfl⟩
    · intro h
      obtain ⟨rest, hV, rfl⟩ := h
      exact ⟨rest, f, hV, rfl, rfl⟩

/-- violations below the places of a list, the place in their first step -/
theorem flatMap {α : Type} (xs : List α) (i : Nat) (st : Nat → Step)
    (mono : ∀ {i j}, i < j → (st i).Before (st j)) (F : α → Nat → List Fault)
    (V : α → Nat → Site → Fault → Prop)
    (h : ∀ x j, (x, j) ∈ xs.zipIdx i → Listed (F x j) (V x j)) :
    Listed ((xs.zipIdx i).flatMap fun a => F a.1 a.2) fun s f =>
      ∃ x j rest, (x, j) ∈ xs.zipIdx i ∧ V x j rest f ∧ s = st j :: rest := by
  induction xs generalizing i with
  | nil =>
    refine nil ?_
    intro s f h
    obtain ⟨x, j, rest, hmem, _⟩ := h
    cases hmem
  | cons y xs ih =>
    have hy := (h y i List.mem_cons_self).below (st i)
    have hxs := ih (i + 1) fun x j hmem => h x j (List.mem_cons_of_mem _ hmem)
    rw [List.zipIdx_cons, List.flatMap_cons]
    refine (hy.append hxs ?_).congr fun s f => ?_
    · intro s f t g hs ht
      obtain ⟨rest, _, rfl⟩ := hs
      obtain ⟨x, j, rest', hmem, _, rfl⟩ := ht
      exact List.Lex.rel (mono (List.le_snd_of_mem_zipIdx hmem))
    · constructor
      · intro h
        rcases h with ⟨rest, hV, rfl⟩ | ⟨x, j, rest, hmem, hV, rfl⟩
        · exact ⟨y, i, rest, List.mem_cons_self, hV, rfl⟩
        · exact ⟨x, j, rest, List.mem_cons_of_mem _ hmem, hV, rfl⟩
      · intro h
        obtain ⟨x, j, rest, hmem, hV, rfl⟩ := h
        rcases List.mem_cons.1 hmem with heq | hmem
        · cases heq
          exact .inl ⟨rest, hV, rfl⟩
        · exact .inr ⟨x, j, rest, hmem, hV, rfl⟩

end Listed
end ParamSchema
