import WirePlan.Proofs.Layout.Step
import WirePlan.Proofs.Layout.Wrapping
import WirePlan.Proofs.Schema.Restyling

/-!
# Looks that layouts do not see

A session for a restyled schema goes step by step as the session for the schema goes: each step ends
the same way, and its result and the session after it are restyled (`LayoutT.Mirrors`). The order of
fields has this (`wireOrder_restyle`), so have the sizes and offsets of a list, and by induction on
how deep structs nest the sizes of structs (`mirrors_sizeOfStruct`).
-/

namespace WirePlan

/-- The layout restyled. -/
def PlacedField.restyle (r : Restyling) (f : PlacedField) : PlacedField :=
  { f with toField := f.toField.restyle r }

/-- The layout restyled. -/
def StructLayout.restyle (r : Restyling) (s : StructLayout) : StructLayout :=
  { s with members := s.members.map (·.restyle r) }

/-- What a session has done, restyled. -/
def LayoutProgress.restyle (r : Restyling) (p : LayoutProgress) : LayoutProgress :=
  { p with structs := p.structs.map (·.restyle r) }

/-- A struct is found restyled where it is found. -/
theorem LayoutProgress.struct?_restyle (r : Restyling) (p : LayoutProgress) (name : String) :
    (p.restyle r).struct? name = (p.struct? name).map (StructLayout.restyle r) :=
  List.find?_map

/-! ## Steps -/

namespace LayoutT

variable {α α' β β' : Type} {r : Restyling} {see : α → α'} {see' : β → β'}

/-- In the restyled session the step `mirror` ends as the step does: with the same error, or with
what is to be seen of its result. -/
structure Mirrors (r : Restyling) (step : LayoutM α) (mirror : LayoutM α') (see : α → α') :
    Prop where
  run_eq : ∀ p : LayoutProgress, mirror.run.run (p.restyle r) =
    ((step.run.run p).1.map see, (step.run.run p).2.restyle r)

theorem mirrors_pure {a : α} {a' : α'} (h : see a = a') : Mirrors r (pure a) (pure a') see := by
  subst h
  exact ⟨fun _ => rfl⟩

theorem mirrors_throw (e : SchemaError) : Mirrors r (throw e) (throw e) see := ⟨fun _ => rfl⟩

theorem mirrors_get : Mirrors r get get (LayoutProgress.restyle r) := ⟨fun _ => rfl⟩

theorem mirrors_begin (name : String) : Mirrors r (begin name) (begin name) id := ⟨fun _ => rfl⟩

theorem mirrors_finish (layout : StructLayout) :
    Mirrors r (finish layout) (finish (layout.restyle r)) id := ⟨fun _ => rfl⟩

theorem mirrors_ofExcept (result : Except SchemaError α) :
    Mirrors r (ofExcept result) (ofExcept (result.map see)) see := by
  cases result with
  | ok a => exact mirrors_pure rfl
  | error e => exact mirrors_throw e

theorem mirrors_bind {x : LayoutM α} {x' : LayoutM α'} {f : α → LayoutM β} {f' : α' → LayoutM β'}
    (hx : Mirrors r x x' see) (hf : ∀ a, Mirrors r (f a) (f' (see a)) see') :
    Mirrors r (x >>= f) (x' >>= f') see' := by
  refine ⟨fun p => ?_⟩
  rw [run_bind, run_bind, hx.run_eq p]
  cases (x.run.run p).1 with
  | error e => rfl
  | ok a => exact (hf a).run_eq _

theorem mirrors_throw_bind {e : SchemaError} {f : α → LayoutM β} {f' : α → LayoutM β'} :
    Mirrors r (throw e >>= f) (throw e >>= f') see' := ⟨fun _ => rfl⟩

theorem mirrors_discard {x : LayoutM α} {x' : LayoutM α'} (hx : Mirrors r x x' see) :
    Mirrors r (discard x) (discard x') id := by
  rw [Functor.discard, Functor.discard, map_const, map_const, Function.comp_apply,
    Function.comp_apply, ← bind_pure_comp, ← bind_pure_comp]
  exact mirrors_bind hx fun _ => mirrors_pure rfl

/-- A step for every item of a list is mirrored where that for each item is. -/
theorem mirrors_mapM {step : α → LayoutM β} {mirror : α' → LayoutM β'}
    (hstep : ∀ a, Mirrors r (step a) (mirror (see a)) see') (xs : List α) :
    Mirrors r (xs.mapM step) ((xs.map see).mapM mirror) (List.map see') := by
  induction xs with
  | nil => exact mirrors_pure rfl
  | cons x xs ih =>
    rw [List.map_cons, List.mapM_cons, List.mapM_cons]
    exact mirrors_bind (hstep x) fun y => mirrors_bind ih fun ys => mirrors_pure rfl

end LayoutT

open LayoutT

variable (r : Restyling)

/-! ## The order of fields -/

theorem lastIndex?_restyle (fields : List Field) (name : String) :
    lastIndex? (fields.map (Field.restyle r)) name = lastIndex? fields name := by
  induction fields with
  | nil => rfl
  | cons f rest ih =>
    rw [List.map_cons, lastIndex?, lastIndex?, ih]
    rfl

theorem WireOrder.dependencies_restyle (fields : List Field) (place : Place) (f : Field) :
    dependencies (fields.map (Field.restyle r)) place (f.restyle r) =
      dependencies fields place f := by
  have hcounter : counterIndex (fields.map (Field.restyle r)) place (f.restyle r) =
      counterIndex fields place f := by
    unfold counterIndex
    simp only [lastIndex?_restyle]
    rfl
  have hsibling : siblingIndex (fields.map (Field.restyle r)) place (f.restyle r) =
      siblingIndex fields place f := by
    funext p
    unfold siblingIndex
    rw [lastIndex?_restyle]
    rfl
  unfold dependencies
  rw [hcounter, hsibling]
  rfl

theorem WireOrder.names_restyle (fields : List Field) (indices : List Nat) :
    names (fields.map (Field.restyle r)) indices = names fields indices := by
  unfold names
  refine List.filterMap_congr fun i _ => ?_
  rw [List.getElem?_map, Option.map_map]
  rfl

/-- Fields are ordered without regard to their looks. -/
theorem wireOrder_restyle (fields : List Field) (place : Place) :
    wireOrder (fields.map (Field.restyle r)) place =
      (wireOrder fields place).map (List.map (Field.restyle r)) := by
  have hgraph : (fields.map (Field.restyle r)).mapM
      (WireOrder.dependencies (fields.map (Field.restyle r)) place) =
        fields.mapM (WireOrder.dependencies fields place) := by
    rw [List.mapM_map]
    exact congrArg (List.mapM · fields) (funext (WireOrder.dependencies_restyle r fields place))
  unfold wireOrder
  rw [hgraph, List.length_map]
  refine bind_eq_map fun graph => ?_
  dsimp only
  split
  · refine congrArg Except.ok ?_
    rw [List.map_filterMap]
    exact List.filterMap_congr fun i _ => List.getElem?_map ..
  · rw [WireOrder.names_restyle]
    rfl

/-! ## Sizes and offsets -/

/-- Fields are placed without regard to their looks. -/
theorem placeFields_restyle (header : Nat) (o : Offset) (sized : List (Field × WireSize)) :
    placeFields header o (sized.map fun x => (x.1.restyle r, x.2)) =
      ((placeFields header o sized).1.map (PlacedField.restyle r),
        (placeFields header o sized).2) := by
  induction sized generalizing o with
  | nil => rfl
  | cons x rest ih =>
    obtain ⟨f, size⟩ := x
    rw [List.map_cons, placeFields, placeFields]
    dsimp only
    have hpast : (o.advance header).past header (f.restyle r) size =
      (o.advance header).past header f size := rfl
    rw [hpast, ih]
    rfl

/-- The size of a field does not depend on its box. -/
theorem fieldSize_unboxed (sizes : StructSizes Id) (placed : List String) (place : Place)
    (f : Field) (format : Format) :
    fieldSize sizes placed place { f with format := format.unboxed } =
      fieldSize sizes placed place { f with format } := by
  cases format with
  | refStruct =>
    obtain ⟨_, _, _, _, count?, type?, _, _, _⟩ := f
    cases count? <;> cases type? <;> rfl
  | _ => rfl

theorem fieldSize_restyle (sizes : StructSizes Id) (placed : List String) (place : Place)
    (f : Field) :
    fieldSize sizes placed place (f.restyle r) = fieldSize sizes placed place f :=
  r.apply_format (fun format => fieldSize sizes placed place { f with format })
    (fieldSize_unboxed sizes placed place f) f.format

section Sizes

variable {r} {sizes sizes' : StructSizes Id}

theorem mirrors_requirePlaced (f : Field) (count : String) (placed : List String) (place : Place) :
    Mirrors r (requirePlaced f count placed place) (requirePlaced f count placed place) id := by
  unfold requirePlaced
  split
  · exact mirrors_pure rfl
  · exact mirrors_throw _

theorem mirrors_fieldSize (hsizes : ∀ t user, Mirrors r (sizes t user) (sizes' t user) id)
    (placed : List String) (place : Place) (f : Field) :
    Mirrors r (fieldSize sizes placed place f) (fieldSize sizes' placed place (f.restyle r))
      id := by
  rw [fieldSize_restyle]
  unfold fieldSize
  split
  · exact mirrors_pure rfl
  · exact mirrors_bind (mirrors_requirePlaced ..) fun _ => mirrors_pure rfl
  · exact hsizes ..
  · exact hsizes ..
  · refine mirrors_bind (mirrors_requirePlaced ..) fun _ => mirrors_bind (hsizes ..) fun _ => ?_
    exact mirrors_pure rfl
  · refine mirrors_bind (mirrors_requirePlaced ..) fun _ => ?_
    exact mirrors_bind (mirrors_discard (hsizes ..)) fun _ => mirrors_pure rfl
  · split
    · exact mirrors_pure rfl
    · split
      · exact mirrors_throw _
      · exact mirrors_throw _

theorem mirrors_sizeFields (hsizes : ∀ t user, Mirrors r (sizes t user) (sizes' t user) id)
    (place : Place) (placed : List String) (fields : List Field) :
    Mirrors r (sizeFields sizes place placed fields)
      (sizeFields sizes' place placed (fields.map (Field.restyle r)))
      (List.map fun x => (x.1.restyle r, x.2)) := by
  induction fields generalizing placed with
  | nil => exact mirrors_pure rfl
  | cons f rest ih =>
    exact mirrors_bind (mirrors_fieldSize hsizes placed place f) fun size =>
      mirrors_bind (ih (f.name :: placed)) fun others => mirrors_pure rfl

/-- A list that is laid out, restyled. -/
def restyleList (r : Restyling) (result : List PlacedField × Offset) : List PlacedField × Offset :=
  (result.1.map (PlacedField.restyle r), result.2)

theorem mirrors_layoutList (hsizes : ∀ t user, Mirrors r (sizes t user) (sizes' t user) id)
    (ordered : List Field) (header : Nat) (place : Place) :
    Mirrors r (layoutList sizes ordered header place)
      (layoutList sizes' (ordered.map (Field.restyle r)) header place) (restyleList r) := by
  rw [layoutList_eq, layoutList_eq, ← bind_pure_comp, ← bind_pure_comp]
  refine mirrors_bind (mirrors_sizeFields hsizes place [] ordered) fun sized => ?_
  rw [placeFields_restyle]
  exact mirrors_pure rfl

end Sizes

theorem Schema.struct?_restyle (schema : Schema) (name : String) :
    (schema.restyle r).struct? name = (schema.struct? name).map (Struct.restyle r) :=
  List.find?_map

theorem Schema.nesting_restyle (schema : Schema) : (schema.restyle r).nesting = schema.nesting :=
  congrArg (· + 1) (List.length_map _)

/-- **The sizes of structs do not depend on the looks of fields.** The induction is on how deep
structs may nest. -/
theorem mirrors_sizeOfStruct (schema : Schema) (depth : Nat) (name user : String) :
    Mirrors r (sizeOfStruct schema depth name user)
      (sizeOfStruct (schema.restyle r) depth name user) id := by
  induction depth using Nat.strongRecOn generalizing name user with
  | ind depth ih =>
    unfold sizeOfStruct
    refine mirrors_bind mirrors_get fun p => ?_
    rw [LayoutProgress.struct?_restyle, Schema.struct?_restyle]
    cases p.struct? name with
    | some layout => exact mirrors_pure rfl
    | none =>
      -- The same structs are under way in both sessions.
      change Mirrors r (if _ then _ else _) (if name ∈ p.underWay then _ else _) _
      split
      · exact mirrors_throw_bind
      · cases schema.struct? name with
        | none => exact mirrors_throw _
        | some s =>
          cases depth with
          | zero => exact mirrors_throw _
          | succ depth =>
            refine mirrors_bind (mirrors_begin name) fun _ => ?_
            dsimp only [Struct.restyle]
            rw [wireOrder_restyle]
            refine mirrors_bind (mirrors_ofExcept _) fun ordered => ?_
            refine mirrors_bind (mirrors_layoutList (ih depth (Nat.lt_succ_self _)) ..) fun _ => ?_
            exact mirrors_bind (mirrors_finish _) fun _ => mirrors_pure rfl

theorem mirrors_layoutStruct (schema : Schema) (name : String) :
    Mirrors r (layoutStruct schema name) (layoutStruct (schema.restyle r) name)
      (StructLayout.restyle r) := by
  unfold layoutStruct
  rw [Schema.nesting_restyle]
  refine mirrors_bind (mirrors_discard (mirrors_sizeOfStruct ..)) fun _ => ?_
  refine mirrors_bind mirrors_get fun p => ?_
  rw [LayoutProgress.struct?_restyle]
  cases p.struct? name with
  | some layout => exact mirrors_pure rfl
  | none => exact mirrors_throw _

end WirePlan
