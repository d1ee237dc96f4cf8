import WirePlan.Codec.Basic

/-!
# Sample values

Values for every field of a list, made from a seed: integers and bytes follow the seed and the place
of the field, arrays have one to three elements, and a field that counts elements holds their
number. All numbers are 64-bit words. The number of a field is its seed times 31 plus its place and
wraps; the sums of a seed and a place, and of a number and the place of an element, are left to the
build.
-/

namespace WirePlan

namespace Sample

/-- A value without parts. -/
def element (name : String) (n : UInt64) : Element → Value
  | .int i => .ofNat i n.toNat
  | .uuid => .uuid (.replicate 16 n.toUInt8)
  | .ipv4 => .ipv4 ⟨[10, 0, n.toUInt8, 1], rfl⟩
  | .ipv6 => .ipv6 (.replicate 16 n.toUInt8)
  | .string => .string (name ++ "-" ++ toString n.toNat)

section Build

variable {m : Type → Type} [Monad m] [Arithmetic m]

/-- A number that stands so many places behind another. -/
def behindM (n : UInt64) (k : Nat) : m UInt64 := return .ofNat (← addWord n.toNat k)

/-- The number of elements of the arrays that name each size field; the first of several arrays
decides. `index` is the place of the first field. -/
def lengthsM (seed : UInt64) : (index : Nat) → List PlacedField → m (List (String × UInt64))
  | _, [] => return []
  | index, f :: rest =>
    match f.sizeField? with
    | some size => do
      let n ← behindM seed index
      let count ← behindM 1 (n % 3).toNat
      let others ← lengthsM seed (index + 1) rest
      return (size, count) :: others
    | none => lengthsM seed (index + 1) rest

/-- Elements made from consecutive numbers. -/
def itemsM (count : Nat) (n : UInt64) (item : UInt64 → m Value) : m (List Value) :=
  (List.range count).mapM fun k => do item (← behindM n k)

/-- The value of a field, made from a number; `struct` makes the structs it needs. -/
def fieldM (lengths : List (String × UInt64)) (struct : Option String → UInt64 → m Value)
    (f : PlacedField) (n : UInt64) : m Value :=
  let count := ((f.sizeField?.bind fun s => List.lookup s lengths).getD 0).toNat
  match f.format with
  | .int i => return .ofNat i ((List.lookup f.name lengths).getD n).toNat
  | .array e => .array <$> itemsM count n fun k => return element f.name k e
  | .struct | .refStruct => struct f.structType? n
  | .structArray | .refStructArray => .array <$> itemsM count n (struct f.structType?)
  | .uuid => return element f.name n .uuid
  | .string => return element f.name n .string
  | .ipv4 | .refIpv4 => return element f.name n .ipv4
  | .ipv6 | .refIpv6 => return element f.name n .ipv6

/-- The values of fields; `index` is the place of the first one. -/
def fieldsFromM (seed : UInt64) (lengths : List (String × UInt64))
    (struct : Option String → UInt64 → m Value) :
    (index : Nat) → List PlacedField → Fields → m Fields
  | _, [], values => return values
  | index, f :: rest, values => do
    let value ← fieldM lengths struct f (seed * 31 + .ofNat index)
    fieldsFromM seed lengths struct (index + 1) rest (values.insert f.name value)

/-- The values of a list of fields. -/
def listM (struct : Option String → UInt64 → m Value) (fields : List PlacedField) (seed : UInt64) :
    m Fields := do
  fieldsFromM seed (← lengthsM seed 0 fields) struct 0 fields []

/-- The values of the struct with a name; inside it structs nest less deep than `depth`. -/
def structM (plan : Plan) : (depth : Nat) → (name? : Option String) → (seed : UInt64) → m Value
  | 0, _, _ => return .struct []
  | depth + 1, name?, seed =>
    match name?.bind plan.struct? with
    | none => return .struct []
    | some layout => .struct <$> listM (structM plan depth) layout.members seed

end Build

end Sample

/-- Values for the fields of a list of the plan. -/
def Plan.sampleM {m : Type → Type} [Monad m] [Arithmetic m] (plan : Plan)
    (fields : List PlacedField) (seed : UInt64) : m Fields :=
  Sample.listM (Sample.structM plan plan.structs.length) fields seed

/-- Values for the fields of a list of the plan, where sums wrap. -/
def Plan.sample (plan : Plan) (fields : List PlacedField) (seed : UInt64) : Fields :=
  Id.run (plan.sampleM fields seed)

end WirePlan
