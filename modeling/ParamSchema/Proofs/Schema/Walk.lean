import ParamSchema.Proofs.Outcome
import ParamSchema.Proofs.Trees
import ParamSchema.Schema.Bind

/-!
# The two walks, entry by entry

Validation and binding look at a parameter together with its entry, which may be missing.

* `entryFaults`, `bindEntry`   what the two walks do with a parameter and such an entry;
* `memberFaults_eq_flatMap`, `bindMembers_cons_eq_ok`   a table is walked member by member;
* `placeFaults_eq_flatMap`, `bindPlaces_eq_mapM`        a tuple is walked place by place;
* `bindPlaces_append`                      a tuple is bound on either side of a place;
* `bindMembers_congr`, `bindPlaces_congr`  inputs that bind alike piece by piece bind alike;
* `Schema.faults_eq`, `Schema.bindMembers_eq_ok`        a schema is walked as its root table.
-/

namespace ParamSchema

theorem isMember_eq_false {ms : List Descriptor} {name : String} :
    isMember ms name = false ↔ ∀ d ∈ ms, d.name ≠ name := by
  simp [isMember]

namespace Descriptor

-- the equations of the walks, made here once for all the proofs that open them
attribute [grind =] mayBeAbsent allMayBeAbsent faults placeFaults memberFaults
attribute [grind =] bind bindAbsent bindPlaces bindMembers

/-- the faults of a parameter with its entry, if there is one -/
def entryFaults (ignore : List String) (key : String) (d : Descriptor) : Option Value → List Fault
  | some v => d.faults ignore key v
  | none => d.absentFaults key

/-- what a parameter binds to with its entry, if there is one -/
def bindEntry (key : String) (d : Descriptor) : Option Value → Except BindFault (Option Bound)
  | some v => (d.bind key v).map some
  | none => d.bindAbsent key

/-! ## members -/

theorem memberFaults_eq_flatMap (ignore : List String) (key : String) (p : ParamSet)
    (ms : List Descriptor) :
    memberFaults ignore key p ms
      = ms.flatMap fun d => d.entryFaults ignore (joinKey key d.name) (Entries.get? p d.name) := by
  induction ms with
  | nil => rw [memberFaults, List.flatMap_nil]
  | cons d ds ih =>
    rw [memberFaults, ih, List.flatMap_cons]
    cases Entries.get? p d.name <;> rfl

theorem bindMembers_nil (key : String) (p : ParamSet) : bindMembers key p [] = .ok [] := by
  rw [bindMembers]

theorem bindMembers_cons (key : String) (p : ParamSet) (d : Descriptor) (ds : List Descriptor) :
    bindMembers key p (d :: ds)
      = (d.bindEntry (joinKey key d.name) (Entries.get? p d.name) >>= fun y =>
          bindMembers key p ds >>= fun ys =>
            .ok ((y.map fun b => (d.name, b)).toList ++ ys)) := by
  rw [bindMembers]
  generalize bindMembers key p ds = rest
  cases Entries.get? p d.name with
  | none =>
    simp only [bindEntry]
    rcases d.bindAbsent (joinKey key d.name) with f | _ | b <;> cases rest <;> rfl
  | some v =>
    simp only [bindEntry]
    cases d.bind (joinKey key d.name) v <;> cases rest <;> rfl

theorem bindMembers_cons_eq_ok {key : String} {p : ParamSet} {d : Descriptor}
    {ds : List Descriptor} {es : BoundTable} :
    bindMembers key p (d :: ds) = .ok es ↔
      ∃ y ys, d.bindEntry (joinKey key d.name) (Entries.get? p d.name) = .ok y
        ∧ bindMembers key p ds = .ok ys ∧ es = (y.map fun b => (d.name, b)).toList ++ ys := by
  rw [bindMembers_cons]
  simp only [bind_eq_ok, Except.ok.injEq]
  constructor
  · intro h
    obtain ⟨y, hy, ys, hys, rfl⟩ := h
    exact ⟨y, ys, hy, hys, rfl⟩
  · intro h
    obtain ⟨y, ys, hy, hys, rfl⟩ := h
    exact ⟨y, hy, ys, hys, rfl⟩

/-- members that all bind bind together -/
theorem exists_bindMembers_eq_ok {key : String} {p : ParamSet} {ms : List Descriptor}
    (h : ∀ d ∈ ms, ∃ y, d.bindEntry (joinKey key d.name) (Entries.get? p d.name) = .ok y) :
    ∃ es, bindMembers key p ms = .ok es := by
  induction ms with
  | nil => exact ⟨[], bindMembers_nil key p⟩
  | cons d ds ih =>
    obtain ⟨y, hy⟩ := h d List.mem_cons_self
    obtain ⟨ys, hys⟩ := ih fun e he => h e (List.mem_cons_of_mem d he)
    exact ⟨_, bindMembers_cons_eq_ok.2 ⟨y, ys, hy, hys, rfl⟩⟩

/-! ## places -/

theorem placeFaults_eq_flatMap (ignore : List String) (key : String) (i : Nat)
    (es : List Descriptor) (xs : List Value) :
    placeFaults ignore key i es xs
      = ((es.zip xs).zipIdx i).flatMap fun e => e.1.1.faults ignore (indexKey key e.2) e.1.2 := by
  induction es generalizing i xs with
  | nil => cases xs <;> simp [placeFaults]
  | cons e es ih =>
    cases xs with
    | nil => simp [placeFaults]
    | cons x xs => simp [placeFaults, ih]

theorem bindPlaces_eq_mapM (key : String) (i : Nat) (es : List Descriptor) (xs : List Value) :
    bindPlaces key i es xs
      = ((es.zip xs).zipIdx i).mapM fun e => e.1.1.bind (indexKey key e.2) e.1.2 := by
  induction es generalizing i xs with
  | nil => cases xs <;> simp [bindPlaces] <;> rfl
  | cons e es ih =>
    cases xs with
    | nil => simp [bindPlaces]; rfl
    | cons x xs =>
      rw [bindPlaces, ih, List.zip_cons_cons, List.zipIdx_cons, List.mapM_cons]
      rfl

/-- a tuple is bound up to a place, at it, and behind it -/
theorem bindPlaces_append {es fs : List Descriptor} {xs : List Value}
    (hlen : es.length = xs.length) (key : String) (e : Descriptor) (v : Value) (ys : List Value) :
    bindPlaces key 0 (es ++ e :: fs) (xs ++ v :: ys) = do
      let front ← bindPlaces key 0 es xs
      let b ← e.bind (indexKey key xs.length) v
      let back ← bindPlaces key (xs.length + 1) fs ys
      return front ++ b :: back := by
  have hplace : (es.zip xs).length = xs.length := by
    rw [List.length_zip, hlen, Nat.min_self]
  rw [bindPlaces_eq_mapM, bindPlaces_eq_mapM, bindPlaces_eq_mapM, List.zip_append hlen,
    List.zip_cons_cons, mapM_zipIdx_append, hplace]

theorem length_of_bindPlaces {key : String} {i : Nat} {es : List Descriptor} {xs : List Value}
    {bs : List Bound} (hlen : es.length = xs.length) (h : bindPlaces key i es xs = .ok bs) :
    bs.length = xs.length := by
  rw [bindPlaces_eq_mapM] at h
  rw [length_of_mapM_zipIdx h, List.length_zip, hlen, Nat.min_self]

/-! ## inputs that are walked alike -/

section
variable {ignore : List String} {key : String} {d e : Descriptor} {es ms : List Descriptor}
  {p q : ParamSet} {xs ys : List Value}

/-- members whose entries are walked alike are walked alike together -/
theorem memberFaults_congr
    (h : ∀ d ∈ ms, d.entryFaults ignore (joinKey key d.name) (Entries.get? q d.name)
      = d.entryFaults ignore (joinKey key d.name) (Entries.get? p d.name)) :
    memberFaults ignore key q ms = memberFaults ignore key p ms := by
  rw [memberFaults_eq_flatMap, memberFaults_eq_flatMap]
  exact List.flatMap_congr h

theorem bindMembers_congr
    (h : ∀ d ∈ ms, d.bindEntry (joinKey key d.name) (Entries.get? q d.name)
      = d.bindEntry (joinKey key d.name) (Entries.get? p d.name)) :
    bindMembers key q ms = bindMembers key p ms := by
  induction ms with
  | nil => rw [bindMembers_nil, bindMembers_nil]
  | cons d ds ih =>
    rw [bindMembers_cons, bindMembers_cons, h d List.mem_cons_self,
      ih fun e he => h e (List.mem_cons_of_mem d he)]

theorem bindElements_congr
    (h : List.Forall₂ (fun x y => ∀ key, e.bind key x = e.bind key y) xs ys) (i : Nat) :
    ((xs.zipIdx i).mapM fun (x, i) => e.bind (indexKey key i) x)
      = (ys.zipIdx i).mapM fun (y, i) => e.bind (indexKey key i) y := by
  induction h generalizing i with
  | nil => rfl
  | cons hxy _ ih =>
    rw [List.zipIdx_cons, List.zipIdx_cons, List.mapM_cons, List.mapM_cons, ih]
    simp only [hxy]

theorem bindPlaces_congr
    (h : List.Forall₂ (fun x y => ∀ e ∈ es, ∀ key, e.bind key x = e.bind key y) xs ys) (i : Nat) :
    bindPlaces key i es xs = bindPlaces key i es ys := by
  induction es generalizing i xs ys with
  | nil => rw [bindPlaces_eq_mapM, bindPlaces_eq_mapM, List.zip_nil_left, List.zip_nil_left]
  | cons e es ih =>
    cases h with
    | nil => rfl
    | cons hxy hxys =>
      have hrest := ih (hxys.imp fun x y hxy d hd => hxy d (List.mem_cons_of_mem e hd)) (i + 1)
      rw [bindPlaces, bindPlaces, hxy e List.mem_cons_self, hrest]

theorem bindEntry_congr {r : Value → Value → Prop} {v? w? : Option Value}
    (h : Option.Rel r v? w?) (hd : ∀ v w, r v w → d.bind key v = d.bind key w) :
    d.bindEntry key v? = d.bindEntry key w? := by
  cases h with
  | none => rfl
  | some hvw => exact congrArg (Except.map some) (hd _ _ hvw)

end

/-! ## one kind at a time -/

section
variable {ignore : List String} {key : String} {hd : Heading} {e : Descriptor}
  {es ms : List Descriptor} {bd : LengthBound} {x? : Option Bound} {v : Value}
  {o : Option Origin} {xs : List Value} {p : ParamSet} {b : Bound}

theorem faults_sequence_eq_nil :
    (Descriptor.sequence hd e bd x?).faults ignore key v = [] ↔
      ∃ o xs, v = .sequence o xs ∧ bd.admits xs.length = true
        ∧ ∀ xi ∈ xs.zipIdx, e.faults ignore (indexKey key xi.2) xi.1 = [] := by
  constructor
  · intro h
    cases v with
    | atom o t => cases h
    | table o es => cases h
    | sequence o xs =>
      unfold faults at h
      obtain ⟨hlen, hxs⟩ := List.append_eq_nil_iff.1 h
      refine ⟨o, xs, rfl, ?_, fun xi hxi => ?_⟩
      · by_contra hno
        rw [if_neg hno] at hlen
        cases hlen
      · exact List.flatten_eq_nil_iff.1 hxs _ (List.mem_map_of_mem hxi)
  · intro h
    obtain ⟨o, xs, rfl, hlen, hxs⟩ := h
    rw [faults, if_pos hlen, List.nil_append, List.flatten_eq_nil_iff]
    intro fs hfs
    obtain ⟨xi, hxi, rfl⟩ := List.mem_map.1 hfs
    exact hxs xi hxi

theorem bind_sequence_eq_ok :
    (Descriptor.sequence hd e bd x?).bind key (.sequence o xs) = .ok b ↔
      ∃ ys, List.Forall₂ (fun xi y => e.bind (indexKey key xi.2) xi.1 = .ok y) xs.zipIdx ys
        ∧ .sequence ys = b := by
  rw [bind, map_eq_ok]
  simp only [mapM_eq_ok]

theorem faults_tuple_eq_nil :
    (Descriptor.tuple hd es x?).faults ignore key v = [] ↔
      ∃ o xs, v = .sequence o xs ∧ xs.length = es.length
        ∧ placeFaults ignore key 0 es xs = [] := by
  constructor
  · intro h
    cases v with
    | atom o t => cases h
    | table o es => cases h
    | sequence o xs =>
      unfold faults at h
      obtain ⟨hlen, hxs⟩ := List.append_eq_nil_iff.1 h
      refine ⟨o, xs, rfl, ?_, hxs⟩
      by_contra hno
      rw [if_neg hno] at hlen
      cases hlen
  · intro h
    obtain ⟨o, xs, rfl, hlen, hxs⟩ := h
    rw [faults, if_pos hlen, hxs, List.nil_append]

theorem bind_tuple_eq_ok (hlen : xs.length = es.length) :
    (Descriptor.tuple hd es x?).bind key (.sequence o xs) = .ok b ↔
      ∃ ys, bindPlaces key 0 es xs = .ok ys ∧ .sequence ys = b := by
  rw [bind, if_pos hlen, map_eq_ok]

theorem faults_table_eq_nil :
    (Descriptor.table hd ms).faults ignore key v = [] ↔
      ∃ o p, v = .table o p ∧ memberFaults ignore key p ms = []
        ∧ unknownFaults ignore key ms p = [] := by
  constructor
  · intro h
    cases v with
    | atom o t => cases h
    | sequence o xs => cases h
    | table o p =>
      unfold faults at h
      exact ⟨o, p, rfl, List.append_eq_nil_iff.1 h⟩
  · intro h
    obtain ⟨o, p, rfl, hmembers, hunknown⟩ := h
    rw [faults, hmembers, hunknown, List.nil_append]

theorem bind_table_eq_ok :
    (Descriptor.table hd ms).bind key (.table o p) = .ok b ↔
      ∃ es, bindMembers key p ms = .ok es ∧ .table es = b := by
  rw [bind, map_eq_ok]

end

end Descriptor

/-! ## the root -/

namespace Schema

variable {s : Schema} {p : ParamSet} {ignore : List String}

theorem faults_eq (s : Schema) (p : ParamSet) (ignore : List String) :
    s.faults p ignore = s.toDescriptor.faults ignore "" (.table none p) := by
  rw [faults, toDescriptor, Descriptor.faults]

theorem bindMembers_eq_ok {b : BoundTable} :
    Descriptor.bindMembers "" p s.members = .ok b
      ↔ s.toDescriptor.bind "" (.table none p) = .ok (.table b) := by
  rw [toDescriptor, Descriptor.bind, map_eq_ok]
  constructor
  · intro h
    exact ⟨b, h, rfl⟩
  · intro h
    obtain ⟨c, hc, h⟩ := h
    rw [hc, Bound.table.inj h]

theorem validate_eq_ok : s.validate p ignore = .ok () ↔ s.faults p ignore = [] := by
  rw [validate, ← List.isEmpty_iff]
  cases (s.faults p ignore).isEmpty <;> simp

theorem bind_eq_ok {b : BoundTable} :
    s.bind p ignore = .ok b ↔
      s.faults p ignore = [] ∧ s.toDescriptor.bind "" (.table none p) = .ok (.table b) := by
  rw [← validate_eq_ok, ← bindMembers_eq_ok, bind]
  cases s.validate p ignore with
  | error e => simp
  | ok _ => cases Descriptor.bindMembers "" p s.members <;> simp

end Schema
end ParamSchema
