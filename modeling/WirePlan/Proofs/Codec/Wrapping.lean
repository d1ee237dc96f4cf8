import WirePlan.Codec.Sample

/-!
# Samples where sums wrap

In a build where sums wrap no sum ends a run, and sampling is a function of the plan, the list and
the seed. These are its parts without the monad (`Plan.sample_eq`); the proofs about samples are
about them.
-/

namespace WirePlan

namespace Sample

/-- The number of elements of the arrays that name each size field. -/
def lengths (seed : UInt64) : (index : Nat) → List PlacedField → List (String × UInt64)
  | _, [] => []
  | index, f :: rest =>
    match f.sizeField? with
    | some size => (size, 1 + (seed + .ofNat index) % 3) :: lengths seed (index + 1) rest
    | none => lengths seed (index + 1) rest

/-- Elements made from consecutive numbers. -/
def items (count : Nat) (n : UInt64) (item : UInt64 → Value) : List Value :=
  (List.range count).map fun k => item (n + .ofNat k)

/-- The value of a field, made from a number. -/
def field (lengths : List (String × UInt64)) (struct : Option String → UInt64 → Value)
    (f : PlacedField) (n : UInt64) : Value :=
  let count := ((f.sizeField?.bind fun s => List.lookup s lengths).getD 0).toNat
  match f.format with
  | .int i => .ofNat i ((List.lookup f.name lengths).getD n).toNat
  | .array e => .array (items count n fun k => element f.name k e)
  | .struct | .refStruct => struct f.structType? n
  | .structArray | .refStructArray => .array (items count n (struct f.structType?))
  | .uuid => element f.name n .uuid
  | .string => element f.name n .string
  | .ipv4 | .refIpv4 => element f.name n .ipv4
  | .ipv6 | .refIpv6 => element f.name n .ipv6

/-- The values of fields; `index` is the place of the first one. -/
def fieldsFrom (seed : UInt64) (lengths : List (String × UInt64))
    (struct : Option String → UInt64 → Value) : (index : Nat) → List PlacedField → Fields → Fields
  | _, [], values => values
  | index, f :: rest, values =>
    fieldsFrom seed lengths struct (index + 1) rest
      (values.insert f.name (field lengths struct f (seed * 31 + .ofNat index)))

/-- The values of the struct with a name; inside it structs nest less deep than `depth`. -/
def struct (plan : Plan) : (depth : Nat) → (name? : Option String) → (seed : UInt64) → Value
  | 0, _, _ => .struct []
  | depth + 1, name?, seed =>
    match name?.bind plan.struct? with
    | none => .struct []
    | some layout =>
      .struct (fieldsFrom seed (lengths seed 0 layout.members) (struct plan depth) 0
        layout.members [])

theorem run_behindM (n : UInt64) (k : Nat) : Id.run (behindM n k) = n + .ofNat k := by
  have hsum : UInt64.ofNat (wrap64 (n.toNat + k)) = n + .ofNat k := by
    apply UInt64.toNat.inj
    rw [UInt64.toNat_add, UInt64.toNat_ofNat', UInt64.toNat_ofNat', wrap64,
      show UInt64.size = 2 ^ 64 from rfl, Nat.mod_mod, Nat.add_mod_mod]
  exact hsum

theorem run_lengthsM (seed : UInt64) (index : Nat) (fields : List PlacedField) :
    Id.run (lengthsM seed index fields) = lengths seed index fields := by
  induction fields generalizing index with
  | nil => rfl
  | cons f rest ih =>
    rw [lengthsM, lengths]
    cases f.sizeField? with
    | none => exact ih (index + 1)
    | some size =>
      have hcount (n : UInt64) : Id.run (behindM 1 (n % 3).toNat) = 1 + n % 3 := by
        rw [run_behindM, UInt64.ofNat_toNat]
      rw [← run_behindM, ← hcount, ← ih]
      rfl

theorem run_itemsM (count : Nat) (n : UInt64) (item : UInt64 → Value) :
    Id.run (itemsM count n fun k => pure (item k)) = items count n item := by
  rw [itemsM, List.idRun_mapM, items]
  exact List.map_congr_left fun k _ => congrArg item (run_behindM n k)

theorem run_fieldM (lengths : List (String × UInt64)) (struct : Option String → UInt64 → Value)
    (f : PlacedField) (n : UInt64) :
    Id.run (fieldM lengths (fun name? k => pure (struct name? k)) f n) =
      field lengths struct f n := by
  unfold fieldM field
  cases f.format with
  | array _ | structArray | refStructArray => exact congrArg Value.array (run_itemsM _ n _)
  | _ => rfl

theorem run_fieldsFromM (seed : UInt64) (lengths : List (String × UInt64))
    (struct : Option String → UInt64 → Value) (index : Nat) (fields : List PlacedField)
    (values : Fields) :
    Id.run (fieldsFromM seed lengths (fun name? k => pure (struct name? k)) index fields values) =
      fieldsFrom seed lengths struct index fields values := by
  induction fields generalizing index values with
  | nil => rfl
  | cons f rest ih =>
    rw [fieldsFrom, ← ih, ← run_fieldM]
    rfl

theorem run_listM (struct : Option String → UInt64 → Value) (fields : List PlacedField)
    (seed : UInt64) :
    Id.run (listM (fun name? k => pure (struct name? k)) fields seed) =
      fieldsFrom seed (lengths seed 0 fields) struct 0 fields [] := by
  rw [← run_lengthsM, ← run_fieldsFromM]
  rfl

theorem structM_eq (plan : Plan) (depth : Nat) :
    structM plan depth = fun name? seed => (pure (struct plan depth name? seed) : Id Value) := by
  induction depth with
  | zero => rfl
  | succ depth ih =>
    funext name? seed
    rw [structM, struct]
    cases name?.bind plan.struct? with
    | none => rfl
    | some layout => exact congrArg Value.struct (ih ▸ run_listM _ layout.members seed)

end Sample

theorem Plan.sample_eq (plan : Plan) (fields : List PlacedField) (seed : UInt64) :
    plan.sample fields seed =
      Sample.fieldsFrom seed (Sample.lengths seed 0 fields)
        (Sample.struct plan plan.structs.length) 0 fields [] := by
  rw [sample, sampleM, Sample.structM_eq, Sample.run_listM]

end WirePlan
