import WirePlan.Proofs.Layout.Placement
import WirePlan.Proofs.Layout.Precedence

/-!
# What a session lays out

A list of fields is laid out when it is in wire order, its fields stand one behind the other, and
each has the size that its format calls for (`LaidOut`), which for a struct is that of the struct's
own layout (`SizeFits`). A session keeps every struct that it has laid out; what it keeps is sound
(`LayoutProgress.Sound`) and only grows (`LayoutProgress.Grown`), so a size that was right stays
right. Each step is shown to keep it so (`LayoutT.Lays`), given that the sizes it asks for are good
(`StructSizes.Good`); by induction on the nesting the session's own sizes are
(`sizeOfStruct_good`).
-/

namespace WirePlan

/-- The layouts of structs by name. -/
abbrev StructLayouts := String → Option StructLayout

/-- More structs are laid out, and those laid out before are as they were. -/
def StructLayouts.Extends (before after : StructLayouts) : Prop :=
  ∀ name layout, before name = some layout → after name = some layout

theorem StructLayouts.Extends.refl (structs : StructLayouts) : structs.Extends structs :=
  fun _ _ h => h

theorem StructLayouts.Extends.trans {a b c : StructLayouts} (hab : a.Extends b)
    (hbc : b.Extends c) : a.Extends c :=
  fun name layout h => hbc name layout (hab name layout h)

/-- A size is the one that the format of a field calls for. -/
inductive SizeFits (structs : StructLayouts) (f : Field) : WireSize → Prop where
  | scalar {e : Element} {n : Nat} (hformat : f.format.scalar? = some e)
      (hsize : e.size? = some n) : SizeFits structs f (.fixed n)
  | string (hformat : f.format = .string) :
      SizeFits structs f (.lengthPrefixed f.lengthFormat.size)
  | array {e : Element} {n : Nat} {count : String} (hformat : f.format = .array e)
      (hsize : e.size? = some n) (hcount : f.sizeField? = some count) :
      SizeFits structs f (.repeated count (.fixed n))
  | strings {count : String} (hformat : f.format = .array .string)
      (hcount : f.sizeField? = some count) :
      SizeFits structs f (.repeated count (.lengthPrefixed f.lengthFormat.size))
  | struct {t : String} {layout : StructLayout}
      (hformat : f.format = .struct ∨ f.format = .refStruct) (htype : f.structType? = some t)
      (hstruct : structs t = some layout) : SizeFits structs f layout.size
  | structArray {t count : String} {layout : StructLayout} (hformat : f.format = .structArray)
      (hcount : f.sizeField? = some count) (htype : f.structType? = some t)
      (hstruct : structs t = some layout) : SizeFits structs f (.repeated count layout.size)
  | slots {t count : String} {layout : StructLayout} (hformat : f.format = .refStructArray)
      (hcount : f.sizeField? = some count) (htype : f.structType? = some t)
      (hstruct : structs t = some layout) :
      SizeFits structs f (.repeated count (.fixed Format.slotSize))

/-- A size that fits still fits when more structs are laid out. -/
theorem SizeFits.mono {before after : StructLayouts} {f : Field} {size : WireSize}
    (h : SizeFits before f size) (hle : before.Extends after) : SizeFits after f size := by
  cases h with
  | scalar hformat hsize => exact .scalar hformat hsize
  | string hformat => exact .string hformat
  | array hformat hsize hcount => exact .array hformat hsize hcount
  | strings hformat hcount => exact .strings hformat hcount
  | struct hformat htype hstruct => exact .struct hformat htype (hle _ _ hstruct)
  | structArray hformat hcount htype hstruct =>
    exact .structArray hformat hcount htype (hle _ _ hstruct)
  | slots hformat hcount htype hstruct => exact .slots hformat hcount htype (hle _ _ hstruct)

/-- A field counts the elements of an array that has a size. -/
theorem SizeFits.counted {structs : StructLayouts} {f : Field} {size : WireSize}
    (h : SizeFits structs f size) (harray : f.format.isArray = true) : f.sizeField?.isSome := by
  cases h with
  | scalar hformat _ => cases hf : f.format <;> simp_all [Format.scalar?, Format.isArray]
  | string hformat => simp [hformat, Format.isArray] at harray
  | struct hformat _ _ =>
    rcases hformat with hformat | hformat <;> simp [hformat, Format.isArray] at harray
  | array _ _ hcount | strings _ hcount | structArray _ hcount _ _ | slots _ hcount _ _ =>
    exact Option.isSome_iff_exists.2 ⟨_, hcount⟩

/-- A field that holds structs has the layout of its type. -/
theorem SizeFits.exists_layout {structs : StructLayouts} {f : Field} {size : WireSize}
    (h : SizeFits structs f size) (hshape : f.format.isStructShaped = true) :
    ∃ t layout, f.structType? = some t ∧ structs t = some layout := by
  cases h with
  | struct _ htype hstruct | structArray _ _ htype hstruct | slots _ _ htype hstruct =>
    exact ⟨_, _, htype, hstruct⟩
  | scalar hformat _ => cases hf : f.format <;> simp_all [Format.scalar?, Format.isStructShaped]
  | string hformat | array hformat _ _ | strings hformat _ =>
    rw [hformat] at hshape
    cases hshape

/-- The layouts of declared fields: in wire order, one behind the other, each of the size that fits.
-/
structure LaidOut (structs : StructLayouts) (header : Nat) (declared : List Field) (place : Place)
    (layouts : List PlacedField) (endOffset : Offset) : Prop where
  order : wireOrder declared place = .ok (layouts.map (·.toField))
  placed : PlacedFrom header {} layouts endOffset
  sized : ∀ f ∈ layouts, SizeFits structs f.toField f.size

/-- A list that is laid out is still laid out when more structs are. -/
theorem LaidOut.mono {before after : StructLayouts} {header : Nat} {declared : List Field}
    {place : Place} {layouts : List PlacedField} {endOffset : Offset}
    (h : LaidOut before header declared place layouts endOffset) (hle : before.Extends after) :
    LaidOut after header declared place layouts endOffset :=
  ⟨h.order, h.placed, fun f hf => (h.sized f hf).mono hle⟩

/-- The layout of a struct of the schema. -/
structure StructLaidOut (schema : Schema) (structs : StructLayouts) (layout : StructLayout) : Prop
    where
  declared : ∃ s, schema.struct? layout.name = some s ∧ layout.usage = s.usage ∧
    LaidOut structs 0 s.members (.struct layout.name) layout.members layout.endOffset
  size_eq : layout.size = .ofStruct layout.name layout.endOffset

/-- A struct that is laid out is still laid out when more structs are. -/
theorem StructLaidOut.mono {schema : Schema} {before after : StructLayouts} {layout : StructLayout}
    (h : StructLaidOut schema before layout) (hle : before.Extends after) :
    StructLaidOut schema after layout := by
  obtain ⟨s, hs, husage, hlaid⟩ := h.declared
  exact ⟨⟨s, hs, husage, hlaid.mono hle⟩, h.size_eq⟩

namespace LayoutProgress

/-- Every finished struct is one of the schema, laid out, and kept under its name. -/
def Sound (schema : Schema) (p : LayoutProgress) : Prop :=
  ∀ name layout, p.struct? name = some layout →
    layout.name = name ∧ StructLaidOut schema p.struct? layout

/-- More structs are finished, none of them under way before, and those under way are the same. -/
structure Grown (p p' : LayoutProgress) : Prop where
  underWay : p'.underWay = p.underWay
  extends_ : StructLayouts.Extends p.struct? p'.struct?
  kept : ∀ name ∈ p.underWay, p'.struct? name = p.struct? name

theorem Grown.refl (p : LayoutProgress) : p.Grown p := ⟨rfl, .refl _, fun _ _ => rfl⟩

theorem Grown.trans {p p' p'' : LayoutProgress} (h : p.Grown p') (h' : p'.Grown p'') :
    p.Grown p'' where
  underWay := h'.underWay.trans h.underWay
  extends_ := h.extends_.trans h'.extends_
  kept name hname := (h'.kept name (h.underWay ▸ hname)).trans (h.kept name hname)

/-- A session that has done nothing is sound. -/
theorem sound_empty (schema : Schema) : ({} : LayoutProgress).Sound schema :=
  fun _ _ h => nomatch h

/-- A struct that is finished is found under its name, and the others are found as before. -/
theorem struct?_cons (layout : StructLayout) (structs : List StructLayout)
    (underWay others : List String) (name : String) :
    (⟨layout :: structs, underWay⟩ : LayoutProgress).struct? name =
      if layout.name = name then some layout
      else (⟨structs, others⟩ : LayoutProgress).struct? name := by
  unfold struct?
  rw [List.find?_cons]
  split <;> simp_all

end LayoutProgress

/-- A step keeps a sound session sound, lets it grow, and its result suits the structs that are then
laid out. -/
def LayoutT.Lays {α : Type} (schema : Schema) (step : LayoutM α)
    (suits : StructLayouts → α → Prop) : Prop :=
  ∀ ⦃p p' : LayoutProgress⦄ ⦃a : α⦄, step.Yields p a p' → p.Sound schema →
    p'.Sound schema ∧ p.Grown p' ∧ suits p'.struct? a

/-- A struct whose size a step finds is finished with this size. -/
def StructSizes.Good (schema : Schema) (sizes : StructSizes Id) : Prop :=
  ∀ name user : String, (sizes name user).Lays schema fun structs size =>
    ∃ layout, structs name = some layout ∧ layout.size = size

/-- What a step does for each item of a list suits the structs laid out in the end. -/
theorem LayoutT.lays_mapM {α β : Type} {schema : Schema} {step : α → LayoutM β}
    {suits : α → StructLayouts → β → Prop} {xs : List α}
    (hstep : ∀ x ∈ xs, (step x).Lays schema (suits x))
    (hmono : ∀ ⦃x : α⦄ ⦃before after : StructLayouts⦄ ⦃y : β⦄, suits x before y →
      before.Extends after → suits x after y) :
    (xs.mapM step).Lays schema fun structs ys =>
      List.Forall₂ (fun x y => suits x structs y) xs ys := by
  induction xs with
  | nil =>
    intro p p' ys h hsound
    rw [List.mapM_nil] at h
    obtain ⟨rfl, rfl⟩ := yields_pure.1 h
    exact ⟨hsound, .refl _, .nil⟩
  | cons x xs ih =>
    intro p p' ys h hsound
    rw [List.mapM_cons] at h
    obtain ⟨y, q, hy, h⟩ := yields_bind.1 h
    obtain ⟨zs, r, hzs, h⟩ := yields_bind.1 h
    obtain ⟨rfl, rfl⟩ := yields_pure.1 h
    obtain ⟨hsound, hgrown, hsuits⟩ := hstep x (.head _) hy hsound
    obtain ⟨hsound', hgrown', hrest⟩ := ih (fun z hz => hstep z (.tail _ hz)) hzs hsound
    exact ⟨hsound', hgrown.trans hgrown', .cons (hmono hsuits hgrown'.extends_) hrest⟩

/-- A field that is placed is required with no effect on the session. -/
theorem yields_requirePlaced {f : Field} {count : String} {placed : List String} {place : Place}
    {u : Unit} {p p' : LayoutProgress} (h : (requirePlaced f count placed place).Yields p u p') :
    p = p' := by
  rw [requirePlaced] at h
  split at h
  · exact (LayoutT.yields_pure.1 h).2
  · exact absurd h LayoutT.yields_throw

/-- A format of a fixed number of bytes is that of a value without parts. -/
theorem Format.exists_scalar {format : Format} (h : 0 < format.fixedSize) :
    ∃ e, format.scalar? = some e ∧ e.size? = some format.fixedSize := by
  cases format with
  | int i => exact ⟨.int i, rfl, rfl⟩
  | uuid => exact ⟨.uuid, rfl, rfl⟩
  | ipv4 | refIpv4 => exact ⟨.ipv4, rfl, rfl⟩
  | ipv6 | refIpv6 => exact ⟨.ipv6, rfl, rfl⟩
  | string | array _ | struct | refStruct | structArray | refStructArray =>
    exact absurd h (Nat.lt_irrefl 0)

section Sizes

variable {schema : Schema} {sizes : StructSizes Id}

/-- The size found for a field fits. -/
theorem lays_fieldSize (hgood : sizes.Good schema) (placed : List String) (place : Place)
    (f : Field) :
    (fieldSize sizes placed place f).Lays schema fun structs size => SizeFits structs f size := by
  intro p p' size h hsound
  unfold fieldSize at h
  split at h
  · next hformat =>
    obtain ⟨rfl, rfl⟩ := LayoutT.yields_pure.1 h
    exact ⟨hsound, .refl _, .string hformat⟩
  · next e count hformat hcount htype =>
    obtain ⟨_, q, hrequired, h⟩ := LayoutT.yields_bind.1 h
    obtain rfl := yields_requirePlaced hrequired
    obtain ⟨rfl, rfl⟩ := LayoutT.yields_pure.1 h
    refine ⟨hsound, .refl _, ?_⟩
    cases e with
    | string => exact .strings hformat hcount
    | int i => exact .array hformat rfl hcount
    | uuid => exact .array hformat rfl hcount
    | ipv4 => exact .array hformat rfl hcount
    | ipv6 => exact .array hformat rfl hcount
  · next t hformat hcount htype =>
    obtain ⟨hsound, hgrown, layout, hlayout, rfl⟩ := hgood t f.name h hsound
    exact ⟨hsound, hgrown, .struct (.inl hformat) htype hlayout⟩
  · next t hformat hcount htype =>
    obtain ⟨hsound, hgrown, layout, hlayout, rfl⟩ := hgood t f.name h hsound
    exact ⟨hsound, hgrown, .struct (.inr hformat) htype hlayout⟩
  · next count t hformat hcount htype =>
    obtain ⟨_, q, hrequired, h⟩ := LayoutT.yields_bind.1 h
    obtain rfl := yields_requirePlaced hrequired
    obtain ⟨element, q, hsize, h⟩ := LayoutT.yields_bind.1 h
    obtain ⟨rfl, rfl⟩ := LayoutT.yields_pure.1 h
    obtain ⟨hsound, hgrown, layout, hlayout, rfl⟩ := hgood t f.name hsize hsound
    exact ⟨hsound, hgrown, .structArray hformat hcount htype hlayout⟩
  · next count t hformat hcount htype =>
    obtain ⟨_, q, hrequired, h⟩ := LayoutT.yields_bind.1 h
    obtain rfl := yields_requirePlaced hrequired
    obtain ⟨_, q, hdiscard, h⟩ := LayoutT.yields_bind.1 h
    obtain ⟨rfl, rfl⟩ := LayoutT.yields_pure.1 h
    obtain ⟨element, hsize, -⟩ := LayoutT.yields_map.1 hdiscard
    obtain ⟨hsound, hgrown, layout, hlayout, rfl⟩ := hgood t f.name hsize hsound
    exact ⟨hsound, hgrown, .slots hformat hcount htype hlayout⟩
  · split at h
    · next hfixed =>
      obtain ⟨rfl, rfl⟩ := LayoutT.yields_pure.1 h
      obtain ⟨e, hscalar, hsize⟩ := Format.exists_scalar hfixed.2.2
      exact ⟨hsound, .refl _, .scalar hscalar hsize⟩
    · split at h
      · exact absurd h LayoutT.yields_throw
      · exact absurd h LayoutT.yields_throw

/-- The sizes found for a list of fields fit. -/
theorem lays_sizeFields (hgood : sizes.Good schema) (place : Place) (placed : List String)
    (fields : List Field) :
    (sizeFields sizes place placed fields).Lays schema fun structs sized =>
      ∀ x ∈ sized, SizeFits structs x.1 x.2 := by
  induction fields generalizing placed with
  | nil =>
    intro p p' sized h hsound
    obtain ⟨rfl, rfl⟩ := LayoutT.yields_pure.1 h
    exact ⟨hsound, .refl _, fun _ hx => nomatch hx⟩
  | cons f rest ih =>
    intro p p' sized h hsound
    obtain ⟨size, q, hsize, h⟩ := LayoutT.yields_bind.1 h
    obtain ⟨others, r, hothers, h⟩ := LayoutT.yields_bind.1 h
    obtain ⟨rfl, rfl⟩ := LayoutT.yields_pure.1 h
    obtain ⟨hsound, hgrown, hfits⟩ := lays_fieldSize hgood placed place f hsize hsound
    obtain ⟨hsound', hgrown', hothers'⟩ := ih (f.name :: placed) hothers hsound
    refine ⟨hsound', hgrown.trans hgrown', fun x hx => ?_⟩
    cases hx with
    | head => exact hfits.mono hgrown'.extends_
    | tail _ hx => exact hothers' x hx

/-- Fields in wire order are laid out. -/
theorem lays_layoutList (hgood : sizes.Good schema) {declared ordered : List Field} {place : Place}
    (horder : wireOrder declared place = .ok ordered) (header : Nat) :
    (layoutList sizes ordered header place).Lays schema fun structs result =>
      LaidOut structs header declared place result.1 result.2 := by
  intro p p' result h hsound
  obtain ⟨sized, hsized, rfl⟩ := yields_layoutList.1 h
  obtain ⟨hsound, hgrown, hfits⟩ := lays_sizeFields hgood place [] ordered hsized hsound
  have hmap : (placeFields header {} sized).1.map (fun f => (f.toField, f.size)) = sized :=
    map_placeFields {} sized
  refine ⟨hsound, hgrown, ?_, placedFrom_placeFields {} sized, fun f hf => ?_⟩
  · rw [horder, ← map_sizeFields hsized]
    conv_lhs => rw [← hmap, List.map_map]
    rfl
  · exact hfits (f.toField, f.size) (hmap ▸ List.mem_map_of_mem hf)

end Sizes

/-- A struct that is laid out while it is under way is finished once, under its name. The structs
under way are what keeps the members from finishing it first. -/
theorem sound_finish {schema : Schema} {p q : LayoutProgress} {name : String} {s : Struct}
    {members : List PlacedField} {endOffset : Offset} (hnew : p.struct? name = none)
    (hfree : name ∉ p.underWay)
    (hgrown : LayoutProgress.Grown { p with underWay := name :: p.underWay } q)
    (hsound : q.Sound schema) (hs : schema.struct? name = some s)
    (hlaid : LaidOut q.struct? 0 s.members (.struct name) members endOffset) :
    let layout : StructLayout :=
      ⟨name, members, endOffset, .ofStruct name endOffset, s.usage⟩
    let p' : LayoutProgress := ⟨layout :: q.structs, q.underWay.tail⟩
    p'.Sound schema ∧ p.Grown p' ∧ p'.struct? name = some layout := by
  intro layout p'
  have hlookup : ∀ n, p'.struct? n = if name = n then some layout else q.struct? n :=
    fun n => LayoutProgress.struct?_cons layout q.structs _ q.underWay n
  have hnewq : q.struct? name = none := (hgrown.kept name (.head _)).trans hnew
  have hle : StructLayouts.Extends q.struct? p'.struct? := by
    intro n l hl
    rw [hlookup]
    split
    · next hname =>
      subst hname
      rw [hnewq] at hl
      cases hl
    · exact hl
  refine ⟨fun n l hl => ?_, ⟨?_, ?_, fun n hn => ?_⟩, ?_⟩
  · rw [hlookup] at hl
    split at hl
    · next hname =>
      cases hl
      exact ⟨hname, ⟨s, hs, rfl, hlaid.mono hle⟩, rfl⟩
    · exact ⟨(hsound n l hl).1, (hsound n l hl).2.mono hle⟩
  · exact congrArg List.tail hgrown.underWay
  · exact StructLayouts.Extends.trans hgrown.extends_ hle
  · rw [hlookup]
    split
    · next hname =>
      subst hname
      exact absurd hn hfree
    · exact hgrown.kept n (.tail _ hn)
  · rw [hlookup, if_pos rfl]

/-- A struct whose size is found was finished before, or is one that is laid out now. -/
theorem yields_sizeOfStruct {schema : Schema} {depth : Nat} {name user : String}
    {p p' : LayoutProgress} {size : WireSize}
    (h : (sizeOfStruct schema depth name user).Yields p size p') :
    (∃ layout, p.struct? name = some layout ∧ layout.size = size ∧ p' = p) ∨
      ∃ depth' s ordered q members endOffset, depth = depth' + 1 ∧ schema.struct? name = some s ∧
        p.struct? name = none ∧ name ∉ p.underWay ∧
        wireOrder s.members (.struct name) = .ok ordered ∧
        (layoutList (sizeOfStruct schema depth') ordered 0 (.struct name)).Yields
          { p with underWay := name :: p.underWay } (members, endOffset) q ∧
        size = .ofStruct name endOffset ∧
        p' = ⟨⟨name, members, endOffset, size, s.usage⟩ :: q.structs, q.underWay.tail⟩ := by
  unfold sizeOfStruct at h
  obtain ⟨_, _, hget, h⟩ := LayoutT.yields_bind.1 h
  obtain ⟨rfl, rfl⟩ := LayoutT.yields_get.1 hget
  dsimp only at h
  split at h
  · next layout hlayout =>
    obtain ⟨hsize, hp⟩ := LayoutT.yields_pure.1 h
    exact .inl ⟨layout, hlayout, hsize, hp.symm⟩
  · next hnew =>
    split at h
    · obtain ⟨_, _, hthrow, -⟩ := LayoutT.yields_bind.1 h
      exact absurd hthrow LayoutT.yields_throw
    · next hfree =>
      split at h
      · exact absurd h LayoutT.yields_throw
      · exact absurd h LayoutT.yields_throw
      · next s depth' hs _ =>
        obtain ⟨_, _, hbegin, h⟩ := LayoutT.yields_bind.1 h
        obtain rfl := LayoutT.yields_begin.1 hbegin
        obtain ⟨ordered, _, hordered, h⟩ := LayoutT.yields_bind.1 h
        obtain ⟨horder, rfl⟩ := LayoutT.yields_ofExcept.1 hordered
        obtain ⟨⟨members, endOffset⟩, q, hlist, h⟩ := LayoutT.yields_bind.1 h
        obtain ⟨_, _, hfinish, h⟩ := LayoutT.yields_bind.1 h
        obtain rfl := LayoutT.yields_finish.1 hfinish
        obtain ⟨rfl, rfl⟩ := LayoutT.yields_pure.1 h
        exact .inr ⟨depth', s, ordered, q, members, endOffset, rfl, hs, hnew, hfree, horder, hlist,
          rfl, rfl⟩

/-- **The sizes of a session are good.** The induction is on how deep structs may nest. -/
theorem sizeOfStruct_good (schema : Schema) (depth : Nat) :
    (sizeOfStruct schema depth).Good schema := by
  induction depth with
  | zero =>
    intro name user p p' size h hsound
    rcases yields_sizeOfStruct h with ⟨layout, hlayout, hsize, rfl⟩ | ⟨_, _, _, _, _, _, hdepth, -⟩
    · exact ⟨hsound, .refl _, layout, hlayout, hsize⟩
    · cases hdepth
  | succ depth ih =>
    intro name user p p' size h hsound
    rcases yields_sizeOfStruct h with ⟨layout, hlayout, hsize, rfl⟩ |
      ⟨_, s, ordered, q, members, endOffset, hdepth, hs, hnew, hfree, horder, hlist, rfl, rfl⟩
    · exact ⟨hsound, .refl _, layout, hlayout, hsize⟩
    · cases hdepth
      obtain ⟨hsound', hgrown, hlaid⟩ := lays_layoutList ih horder 0 hlist hsound
      obtain ⟨hsound, hgrown, hfound⟩ := sound_finish hnew hfree hgrown hsound' hs hlaid
      exact ⟨hsound, hgrown, _, hfound, rfl⟩

end WirePlan
