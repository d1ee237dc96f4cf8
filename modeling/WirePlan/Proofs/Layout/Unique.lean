import WirePlan.Proofs.Layout.LaidOut

/-!
# A list is laid out in one way

The size that fits a field can be told from its format and the structs it is made of
(`SizeFits.eq_wireSize?`), and the offsets can be told from the sizes (`PlacedFrom.placeFields_eq`).
So the layouts of declared fields are settled by the sizes of the structs that the fields are made
of (`LaidOut.unique`), however the session went that found them, and so is the layout of a struct
(`StructLaidOut.unique`).
-/

namespace WirePlan

/-- The size of a field, as its format calls for it. -/
def Field.wireSize? (structs : StructLayouts) (f : Field) : Option WireSize :=
  match f.format with
  | .string => some (.lengthPrefixed f.lengthFormat.size)
  | .array e => f.sizeField?.map fun count => .repeated count (match e.size? with
      | some n => .fixed n
      | none => .lengthPrefixed f.lengthFormat.size)
  | .struct | .refStruct => (f.structType?.bind structs).map (·.size)
  | .structArray => f.sizeField?.bind fun count =>
      (f.structType?.bind structs).map fun layout => .repeated count layout.size
  | .refStructArray => f.sizeField?.map fun count => .repeated count (.fixed Format.slotSize)
  | format => format.scalar?.bind fun e => e.size?.map .fixed

variable {structs structs' : StructLayouts}

/-- No other size fits. -/
theorem SizeFits.eq_wireSize? {f : Field} {size : WireSize} (h : SizeFits structs f size) :
    f.wireSize? structs = some size := by
  unfold Field.wireSize?
  cases h with
  | scalar hformat hsize =>
    cases hf : f.format with
    | string =>
      rw [hf] at hformat
      cases hformat
      cases hsize
    | _ => simp_all [Format.scalar?]
  | string hformat => simp [hformat]
  | array hformat hsize hcount => simp [hformat, hsize, hcount]
  | strings hformat hcount => simp [hformat, hcount, Element.size?]
  | struct hformat htype hstruct => rcases hformat with hformat | hformat <;> simp [*]
  | structArray hformat hcount htype hstruct => simp [*]
  | slots hformat hcount htype hstruct => simp [*]

/-- The structs that fields are made of have the same sizes in two tables. -/
def StructLayouts.SameSizes (structs structs' : StructLayouts) (fields : List Field) : Prop :=
  ∀ f ∈ fields, ∀ t, f.structType? = some t →
    (structs' t).map (·.size) = (structs t).map (·.size)

theorem StructLayouts.SameSizes.refl (structs : StructLayouts) (fields : List Field) :
    structs.SameSizes structs fields :=
  fun _ _ _ _ => rfl

/-- The size of a field depends on the size of the struct that it is made of only. -/
theorem Field.wireSize?_congr {f : Field} {fields : List Field}
    (hsame : structs.SameSizes structs' fields) (hf : f ∈ fields) :
    f.wireSize? structs' = f.wireSize? structs := by
  have hbind : (f.structType?.bind structs').map (·.size) =
      (f.structType?.bind structs).map (·.size) := by
    cases htype : f.structType? with
    | none => rfl
    | some t => exact hsame f hf t htype
  have hrepeated : ∀ count,
      (f.structType?.bind structs').map (fun layout => .repeated count layout.size) =
        (f.structType?.bind structs).map fun layout => WireSize.repeated count layout.size := by
    intro count
    have hmap := congrArg (Option.map (WireSize.repeated count)) hbind
    rwa [Option.map_map, Option.map_map] at hmap
  unfold wireSize?
  simp only [hbind, hrepeated]

/-- Offsets follow from the sizes. -/
theorem PlacedFrom.placeFields_eq {header : Nat} {o endOffset : Offset}
    {layouts : List PlacedField} (h : PlacedFrom header o layouts endOffset) :
    placeFields header o (layouts.map fun f => (f.toField, f.size)) = (layouts, endOffset) := by
  induction h with
  | nil => rfl
  | cons hheader hoffset _ ih =>
    subst hheader
    rw [List.map_cons, placeFields]
    dsimp only
    rw [← hoffset, ih]

/-- **There is one way to lay out a list**: the layouts of declared fields are settled by the sizes
of the structs that the fields are made of. -/
theorem LaidOut.unique {header : Nat} {declared : List Field} {place : Place}
    {layouts layouts' : List PlacedField} {endOffset endOffset' : Offset}
    (h : LaidOut structs header declared place layouts endOffset)
    (h' : LaidOut structs' header declared place layouts' endOffset')
    (hsame : structs.SameSizes structs' declared) :
    layouts' = layouts ∧ endOffset' = endOffset := by
  have horder : layouts'.map (·.toField) = layouts.map (·.toField) :=
    Except.ok.inj (h'.order.symm.trans h.order)
  have hsizes : layouts'.map (·.size) = layouts.map (·.size) := by
    have hperm : (layouts.map (·.toField)).Perm declared := WireOrder.perm_of_wireOrder h.order
    have hfound : ∀ f ∈ layouts.map (·.toField), f.wireSize? structs' = f.wireSize? structs :=
      fun f hf => Field.wireSize?_congr hsame (hperm.mem_iff.1 hf)
    refine List.map_injective_iff.2 (Option.some_injective _) ?_
    calc (layouts'.map (·.size)).map some
      _ = (layouts'.map (·.toField)).map (·.wireSize? structs') := by
        rw [List.map_map, List.map_map]
        exact List.map_congr_left fun f hf => (h'.sized f hf).eq_wireSize?.symm
      _ = (layouts.map (·.toField)).map (·.wireSize? structs) := by
        rw [horder]
        exact List.map_congr_left hfound
      _ = (layouts.map (·.size)).map some := by
        rw [List.map_map, List.map_map]
        exact List.map_congr_left fun f hf => (h.sized f hf).eq_wireSize?
  have hplaced : (layouts', endOffset') = (layouts, endOffset) := by
    rw [← h'.placed.placeFields_eq, ← h.placed.placeFields_eq, ← List.zip_map', ← List.zip_map',
      horder, hsizes]
  exact Prod.mk.inj hplaced

/-- A struct is laid out in one way but for its usage, which is the declared one: by its members,
given the sizes of the structs that it embeds. -/
theorem StructLaidOut.unique {s s' : Schema} {layout layout' : StructLayout} {t t' : Struct}
    (h : StructLaidOut s structs layout) (h' : StructLaidOut s' structs' layout')
    (hname : layout'.name = layout.name) (ht : s.struct? layout.name = some t)
    (ht' : s'.struct? layout'.name = some t') (hmembers : t'.members = t.members)
    (hsame : structs.SameSizes structs' t.members) :
    layout' = { layout with usage := t'.usage } := by
  obtain ⟨_, hfound, -, hlaid⟩ := h.declared
  cases hfound.symm.trans ht
  obtain ⟨_, hfound', husage', hlaid'⟩ := h'.declared
  cases hfound'.symm.trans ht'
  rw [hname, hmembers] at hlaid'
  obtain ⟨hlayouts, hend⟩ := hlaid.unique hlaid' hsame
  have hsize := h.size_eq
  have hsize' := h'.size_eq
  cases layout
  cases layout'
  simp_all

end WirePlan
