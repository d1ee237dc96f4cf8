import WirePlan.Layout.Session

/-!
# Layouts where sums wrap

In a build where sums wrap no sum ends a run, and what is written with sums is a function. These are
the functions: evaluation adds terms up (`Offset.evaluate?_eq`), and a list is placed by one walk
(`placeFields`) once the sizes of its fields are found (`layoutList_eq`). The proofs about layouts
are about them.
-/

namespace WirePlan

namespace Offset

/-- The sum of a total and terms over signed 128-bit integers that wrap. -/
def sumFrom? (known : Known) : Int → List Term → Option Int
  | total, [] => some total
  | total, t :: rest =>
    match t.value? known with
    | some v => sumFrom? known ((total + v).bmod size128) rest
    | none => none

theorem run_sumFromM (known : Known) (total : Int) (terms : List Term) :
    Id.run (sumFromM known total terms) = sumFrom? known total terms := by
  induction terms generalizing total with
  | nil => rfl
  | cons t rest ih =>
    rw [sumFromM, sumFrom?]
    cases t.value? known with
    | none => rfl
    | some v => exact ih _

theorem evaluate?_eq (o : Offset) (known : Known) :
    o.evaluate? known = (sumFrom? known o.constant o.terms).bind word? := by
  rw [← run_sumFromM]
  rfl

theorem word?_eq_some_iff {total : Int} {n : Nat} :
    word? total = some n ↔ n < UInt64.size ∧ total = n := by
  unfold word?
  split
  · next h =>
    rw [Option.some.injEq]
    omega
  · next h =>
    simp only [reduceCtorEq, false_iff]
    omega

/-- The offset a number of bytes further on. -/
def advance (o : Offset) (bytes : Nat) : Offset :=
  { o with constant := wrap64 (o.constant + bytes) }

/-- The place past a field whose value stands at an offset. -/
def past (o : Offset) (header : Nat) (f : Field) (size : WireSize) : Offset :=
  ((o.advance size.fixedPart).plus (size.term? f.name)).plus
    (f.correction? (wrap64 (header + size.fixedPart)))

theorem run_advanceM (o : Offset) (bytes : Nat) : Id.run (o.advanceM bytes) = o.advance bytes := rfl

theorem run_pastM (o : Offset) (header : Nat) (f : Field) (size : WireSize) :
    Id.run (o.pastM header f size) = o.past header f size := by
  unfold pastM past Field.correction?
  cases f.isConditional <;> rfl

end Offset

/-- The layouts of fields with their sizes from an offset on, and the place past the last one. -/
def placeFields (header : Nat) : Offset → List (Field × WireSize) → List PlacedField × Offset
  | o, [] => ([], o)
  | o, (f, size) :: rest =>
    let offset := o.advance header
    let (layouts, endOffset) := placeFields header (offset.past header f size) rest
    ({ f with header, offset, size } :: layouts, endOffset)

/-- The fields of a list with their sizes; `placed` holds the names of the fields before. -/
def sizeFields (sizes : StructSizes Id) (place : Place) :
    (placed : List String) → List Field → LayoutM (List (Field × WireSize))
  | _, [] => return []
  | placed, f :: rest => do
    let size ← fieldSize sizes placed place f
    let others ← sizeFields sizes place (f.name :: placed) rest
    return (f, size) :: others

theorem layoutFrom_eq (sizes : StructSizes Id) (header : Nat) (place : Place) (placed : List String)
    (o : Offset) (fields : List Field) :
    layoutFrom sizes header place placed o fields =
      placeFields header o <$> sizeFields sizes place placed fields := by
  induction fields generalizing placed o with
  | nil => rfl
  | cons f rest ih =>
    have hsums {α : Type} (x : Id α) : (LayoutT.ofSums x : LayoutM α) = pure x.run := rfl
    simp only [layoutFrom, sizeFields, hsums, pure_bind, Offset.run_advanceM, Offset.run_pastM, ih,
      map_bind, bind_map_left, map_pure]
    rfl

/-- Where sums wrap, the sizes of a list may be found before its fields are placed. -/
theorem layoutList_eq (sizes : StructSizes Id) (ordered : List Field) (header : Nat)
    (place : Place) :
    layoutList sizes ordered header place =
      placeFields header {} <$> sizeFields sizes place [] ordered :=
  layoutFrom_eq ..

end WirePlan
