import ParamSchema.Schema.Descriptor

/-!
# Induction on trees

Values, JSON values, bound values and descriptors hold lists of their own kind.  Their induction
principles give the hypothesis for every member of such a list; the functions that go down a list
together with a tree are maps over that list.
-/

namespace ParamSchema

/-! ## values -/

@[elab_as_elim, induction_eliminator]
theorem Value.induction {motive : Value → Prop}
    (atom : ∀ o t, motive (.atom o t))
    (sequence : ∀ o xs, (∀ x ∈ xs, motive x) → motive (.sequence o xs))
    (table : ∀ o es, (∀ e ∈ es, motive e.2) → motive (.table o es)) (v : Value) : motive v :=
  @Value.rec motive (fun xs => ∀ x ∈ xs, motive x) (fun es => ∀ e ∈ es, motive e.2)
    (fun e => motive e.2) atom sequence table (List.forall_mem_nil _)
    (fun _ _ hx hxs => List.forall_mem_cons.2 ⟨hx, hxs⟩) (List.forall_mem_nil _)
    (fun _ _ he hes => List.forall_mem_cons.2 ⟨he, hes⟩) (fun _ _ hv => hv) v

namespace Value

theorem eraseAll_eq_map (xs : List Value) : eraseAll xs = xs.map erase := by
  induction xs with
  | nil => rfl
  | cons x xs ih => rw [eraseAll, ih, List.map_cons]

theorem eraseEntries_eq_map (es : List (String × Value)) :
    eraseEntries es = es.map fun e => (e.1, e.2.erase) := by
  induction es with
  | nil => rfl
  | cons e es ih => rw [eraseEntries, ih, List.map_cons]

theorem allDistinct_iff {xs : List Value} : AllDistinct xs ↔ ∀ x ∈ xs, x.Distinct := by
  induction xs with
  | nil => exact ⟨fun _ => List.forall_mem_nil _, fun _ => trivial⟩
  | cons x xs ih => rw [AllDistinct, ih, List.forall_mem_cons]

theorem entriesDistinct_iff {es : List (String × Value)} :
    EntriesDistinct es ↔ ∀ e ∈ es, e.2.Distinct := by
  induction es with
  | nil => exact ⟨fun _ => List.forall_mem_nil _, fun _ => trivial⟩
  | cons e es ih => rw [EntriesDistinct, ih, List.forall_mem_cons]

end Value

theorem get?_eraseEntries (es : List (String × Value)) (k : String) :
    Entries.get? (Value.eraseEntries es) k = (Entries.get? es k).map Value.erase := by
  rw [Value.eraseEntries_eq_map, Entries.get?_map]

theorem keys_eraseEntries (es : List (String × Value)) :
    Entries.keys (Value.eraseEntries es) = Entries.keys es := by
  rw [Value.eraseEntries_eq_map, Entries.keys_map]

/-! ## JSON values -/

@[elab_as_elim, induction_eliminator]
theorem Json.induction {motive : Json → Prop}
    (null : motive .null) (bool : ∀ b, motive (.bool b)) (int : ∀ i, motive (.int i))
    (float : ∀ x, motive (.float x)) (string : ∀ s, motive (.string s))
    (array : ∀ xs, (∀ x ∈ xs, motive x) → motive (.array xs))
    (object : ∀ ms, (∀ m ∈ ms, motive m.2) → motive (.object ms)) (j : Json) : motive j :=
  @Json.rec motive (fun xs => ∀ x ∈ xs, motive x) (fun ms => ∀ m ∈ ms, motive m.2)
    (fun m => motive m.2) null bool int float string array object (List.forall_mem_nil _)
    (fun _ _ hx hxs => List.forall_mem_cons.2 ⟨hx, hxs⟩) (List.forall_mem_nil _)
    (fun _ _ hm hms => List.forall_mem_cons.2 ⟨hm, hms⟩) (fun _ _ hj => hj) j

/-! ## bound values -/

@[elab_as_elim, induction_eliminator]
theorem Bound.induction {motive : Bound → Prop}
    (scalar : ∀ s, motive (.scalar s))
    (sequence : ∀ xs, (∀ x ∈ xs, motive x) → motive (.sequence xs))
    (table : ∀ es, (∀ e ∈ es, motive e.2) → motive (.table es)) (b : Bound) : motive b :=
  @Bound.rec motive (fun xs => ∀ x ∈ xs, motive x) (fun es => ∀ e ∈ es, motive e.2)
    (fun e => motive e.2) scalar sequence table (List.forall_mem_nil _)
    (fun _ _ hx hxs => List.forall_mem_cons.2 ⟨hx, hxs⟩) (List.forall_mem_nil _)
    (fun _ _ he hes => List.forall_mem_cons.2 ⟨he, hes⟩) (fun _ _ hv => hv) b

namespace Bound

theorem toValues_eq_map (xs : List Bound) : toValues xs = xs.map toValue := by
  induction xs with
  | nil => rfl
  | cons x xs ih => rw [toValues, ih, List.map_cons]

theorem toEntries_eq_map (es : List (String × Bound)) :
    toEntries es = es.map fun e => (e.1, e.2.toValue) := by
  induction es with
  | nil => rfl
  | cons e es ih => rw [toEntries, ih, List.map_cons]

theorem toJsons_eq_map (xs : List Bound) : toJsons xs = xs.map toJson := by
  induction xs with
  | nil => rfl
  | cons x xs ih => rw [toJsons, ih, List.map_cons]

theorem toMembers_eq_map (es : List (String × Bound)) :
    toMembers es = es.map fun e => (e.1, e.2.toJson) := by
  induction es with
  | nil => rfl
  | cons e es ih => rw [toMembers, ih, List.map_cons]

end Bound

/-! ## descriptors -/

@[elab_as_elim, induction_eliminator]
theorem Descriptor.induction {motive : Descriptor → Prop}
    (atom : ∀ h t x, motive (.atom h t x))
    (sequence : ∀ h e b x, motive e → motive (.sequence h e b x))
    (tuple : ∀ h es x, (∀ e ∈ es, motive e) → motive (.tuple h es x))
    (table : ∀ h ms, (∀ d ∈ ms, motive d) → motive (.table h ms))
    (optional : ∀ d, motive d → motive (.optional d)) (d : Descriptor) : motive d :=
  @Descriptor.rec motive (fun ds => ∀ d ∈ ds, motive d) atom sequence tuple table optional
    (List.forall_mem_nil _) (fun _ _ hd hds => List.forall_mem_cons.2 ⟨hd, hds⟩) d

end ParamSchema
