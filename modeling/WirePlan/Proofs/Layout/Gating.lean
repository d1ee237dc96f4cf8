import WirePlan.Proofs.Layout.Evaluation
import WirePlan.Proofs.Layout.Placement

/-!
# Gates and offsets

Whether a field is gated has no part in the size of any field, in the step of a session or in the
constant of any offset: a list without its gates is laid out as the list is, but for the corrections
among the terms (`LayoutSession.fields_ungated`). Corrections count nothing where every field is
there, so that both layouts are then evaluated alike (`Offset.evaluate?_uncorrected`).

The constant of a field therefore counts every field before it as if it were there. As long as it
does not wrap it is the headers up to the field's own and the fixed parts before it
(`PlacedFrom.constant_getElem`), and so constants rise from each field to the next.
-/

namespace WirePlan

/-! ## Without gates -/

/-- The field without its prerequisites. -/
def Field.ungated (f : Field) : Field := { f with prerequisites := [] }

/-- The term takes back the bytes of an absent field. -/
def Offset.Term.isCorrection : Term → Bool
  | absence .. => true
  | _ => false

/-- The offset without its corrections. -/
def Offset.uncorrected (o : Offset) : Offset :=
  { o with terms := o.terms.filter fun t => !t.isCorrection }

/-- The layout without the prerequisites of the field and the corrections in its offset. -/
def PlacedField.ungated (f : PlacedField) : PlacedField :=
  { f with prerequisites := [], offset := f.offset.uncorrected }

/-- The term of a size is no correction. -/
theorem WireSize.filter_term? (size : WireSize) (field : String) :
    (size.term? field).toList.filter (fun t => !t.isCorrection) = (size.term? field).toList := by
  cases size with
  | fixed n | lengthPrefixed n | composite t => rfl
  | repeated c e => cases e <;> rfl

/-- The correction of a field is one. -/
theorem Field.filter_correction? (f : Field) (bytes : Nat) :
    (f.correction? bytes).toList.filter (fun t => !t.isCorrection) = [] := by
  unfold correction?
  split <;> rfl

/-- One step of the walk, without the gate of the field. -/
theorem Offset.past_ungated (o : Offset) (header : Nat) (f : Field) (size : WireSize) :
    o.uncorrected.past header f.ungated size = (o.past header f size).uncorrected := by
  have hnone : f.ungated.correction? (wrap64 (header + size.fixedPart)) = none := rfl
  simp only [past, hnone, uncorrected, plus, advance, List.filter_append, size.filter_term?,
    f.filter_correction?, Option.toList_none]
  rfl

/-- Fields without gates are placed as they are with them, but for the corrections. -/
theorem placeFields_ungated (header : Nat) (o : Offset) (sized : List (Field × WireSize)) :
    placeFields header o.uncorrected (sized.map fun x => (x.1.ungated, x.2)) =
      ((placeFields header o sized).1.map PlacedField.ungated,
        (placeFields header o sized).2.uncorrected) := by
  induction sized generalizing o with
  | nil => rfl
  | cons x rest ih =>
    obtain ⟨f, size⟩ := x
    have hadvance : o.uncorrected.advance header = (o.advance header).uncorrected := rfl
    rw [List.map_cons, placeFields, placeFields]
    dsimp only
    rw [hadvance, Offset.past_ungated, ih]
    rfl

/-- The sizes of fields are found without regard to gates. -/
theorem sizeFields_ungated (sizes : StructSizes Id) (place : Place) (placed : List String)
    (fields : List Field) :
    sizeFields sizes place placed (fields.map Field.ungated) =
      List.map (fun x => (x.1.ungated, x.2)) <$> sizeFields sizes place placed fields := by
  induction fields generalizing placed with
  | nil => simp [sizeFields]
  | cons f rest ih =>
    have hsize : fieldSize sizes placed place f.ungated = fieldSize sizes placed place f := rfl
    have hname : f.ungated.name = f.name := rfl
    simp [sizeFields, hsize, hname, ih, map_bind]

/-- A list without gates is laid out as it is with them, but for the corrections. -/
theorem layoutList_ungated (sizes : StructSizes Id) (ordered : List Field) (header : Nat)
    (place : Place) :
    layoutList sizes (ordered.map Field.ungated) header place =
      (fun r => (r.1.map PlacedField.ungated, r.2.uncorrected)) <$>
        layoutList sizes ordered header place := by
  have hplaced := placeFields_ungated header {}
  simp only [layoutList_eq, sizeFields_ungated, Functor.map_map, ← hplaced]
  rfl

/-- A step with its result changed ends as the step does. -/
theorem LayoutT.run_map {α β : Type} (see : α → β) (step : LayoutM α) (p : LayoutProgress) :
    (see <$> step).run.run p = ((step.run.run p).1.map see, (step.run.run p).2) := by
  rw [← bind_pure_comp, run_bind]
  cases (step.run.run p).1 <;> rfl

/-- A session ends the same way on a list without its gates, and has done the same. -/
theorem LayoutSession.fields_ungated (l : LayoutSession) (ordered : List Field) (header : Nat)
    (place : Place) :
    l.fields (ordered.map Field.ungated) header place =
      ((l.fields ordered header place).1.map
          (fun r => (r.1.map PlacedField.ungated, r.2.uncorrected)),
        (l.fields ordered header place).2) := by
  have hrun : ∀ ordered, l.fields ordered header place =
      l.run (layoutList (sizeOfStruct l.schema l.schema.nesting) ordered header place) :=
    fun _ => rfl
  simp only [hrun, run_eq, layoutList_ungated, LayoutT.run_map]

/-! ## Evaluation -/

/-- Corrections add nothing where every field is there. -/
theorem Offset.Term.sum?_filter {known : Known} {ts : List Term}
    (h : ∀ t ∈ ts, known.isPresent t.owner = true) :
    sum? known (ts.filter fun t => !t.isCorrection) = sum? known ts := by
  induction ts with
  | nil => rfl
  | cons t rest ih =>
    obtain ⟨ht, hrest⟩ := List.forall_mem_cons.1 h
    cases t with
    | absence f bytes =>
      have hp : known.isPresent f = true := ht
      rw [List.filter_cons_of_neg (by simp [isCorrection]), ih hrest]
      simp [sum?, value?, hp]
    | stringBytes f | elements f size c | bytesOf f =>
      rw [List.filter_cons_of_pos rfl, sum?, sum?, ih hrest]

/-- Where every field is there an offset and what it is without its corrections are evaluated
alike. -/
theorem Offset.evaluate?_uncorrected {o : Offset} {known : Known}
    (hconstant : o.constant < UInt64.size)
    (h : ∀ t ∈ o.terms, known.isPresent t.owner = true) :
    o.uncorrected.evaluate? known = o.evaluate? known := by
  have hamount : o.uncorrected.amount? known = o.amount? known := by
    simp only [amount?, uncorrected, Term.sum?_filter h]
  have hconstant' : o.uncorrected.constant < UInt64.size := hconstant
  ext n
  rw [evaluate?_eq_some_iff_amount? hconstant', hamount, evaluate?_eq_some_iff_amount? hconstant]

variable {header : Nat}

/-- A term of the offset past a field was there before or stands for the field. -/
theorem Offset.mem_terms_past {o : Offset} {f : Field} {size : WireSize} {t : Term}
    (h : t ∈ (o.past header f size).terms) : t ∈ o.terms ∨ t.owner = f.name := by
  simp only [past, plus_terms, advance_terms, List.mem_append, Option.mem_toList] at h
  rcases h with (h | h) | h
  · exact .inl h
  · right
    cases size with
    | fixed n => cases h
    | lengthPrefixed n | composite type => cases h; rfl
    | repeated c e => cases e <;> cases h <;> rfl
  · right
    unfold Field.correction? at h
    split at h <;> cases h
    rfl

/-- A term of the offset past a list was there before or stands for a field of the list. -/
theorem PlacedFrom.owner_mem {o endOffset : Offset} {fields : List PlacedField}
    (h : PlacedFrom header o fields endOffset) {t : Offset.Term} (ht : t ∈ endOffset.terms) :
    t ∈ o.terms ∨ ∃ f ∈ fields, t.owner = f.name := by
  induction h with
  | nil => exact .inl ht
  | @cons o endOffset f rest _ hoffset _ ih =>
    rcases ih ht with hmem | ⟨g, hg, howner⟩
    · rw [hoffset] at hmem
      rcases Offset.mem_terms_past hmem with hmem | howner
      · exact .inl hmem
      · exact .inr ⟨f, .head _, howner⟩
    · exact .inr ⟨g, .tail _ hg, howner⟩

/-- The constant past a list is a word if that before the list is. -/
theorem PlacedFrom.constant_lt {o endOffset : Offset} {fields : List PlacedField}
    (h : PlacedFrom header o fields endOffset) (ho : o.constant < UInt64.size) :
    endOffset.constant < UInt64.size := by
  induction h with
  | nil => exact ho
  | cons _ _ _ ih => exact ih (Nat.mod_lt _ (by decide))

/-! ## Constants -/

/-- The fixed bytes of a list are those before a field, its own and those behind it. -/
theorem fixedBytes_getElem {fields : List PlacedField} {i : Nat} (hi : i < fields.length) :
    fixedBytes fields = fixedBytes (fields.take i) +
      (fields[i].header + fields[i].size.fixedPart + fixedBytes (fields.drop (i + 1))) := by
  rw [← fixedBytes_cons, ← List.drop_eq_getElem_cons hi, ← fixedBytes_append,
    List.take_append_drop]

/-- The fixed bytes of fields are their headers and their fixed parts. -/
theorem PlacedFrom.fixedBytes_eq {o endOffset : Offset} {fields : List PlacedField}
    (h : PlacedFrom header o fields endOffset) :
    fixedBytes fields = fields.length * header + (fields.map (·.size.fixedPart)).sum := by
  induction h with
  | nil => simp [fixedBytes]
  | cons hheader _ _ ih =>
    rw [fixedBytes_cons, ih, hheader, List.length_cons, List.map_cons, List.sum_cons, Nat.succ_mul]
    omega

/-- The constant of a field counts the headers up to its own and the fixed parts before it. -/
theorem PlacedFrom.constant_getElem {endOffset : Offset} {fields : List PlacedField}
    (h : PlacedFrom header {} fields endOffset) (hwords : fixedBytes fields < UInt64.size) {i : Nat}
    (hi : i < fields.length) :
    fields[i].offset.constant =
      (i + 1) * header + ((fields.take i).map (·.size.fixedPart)).sum := by
  obtain ⟨past, hpast, hoffset⟩ := h.take hi
  have hheader : fields[i].header = header := h.header_eq (List.getElem_mem hi)
  have hsplit := fixedBytes_getElem hi
  have hconstant := hpast.constant (by simp only [Nat.zero_add]; omega)
  have hbefore := hpast.fixedBytes_eq
  rw [List.length_take_of_le hi.le] at hbefore
  rw [hoffset, Offset.advance_constant, hconstant, wrap64_of_lt (by simp only; omega), Nat.succ_mul]
  simp only
  omega

/-- Constants rise from a field to a later one by the fixed part and the header at least. -/
theorem PlacedFrom.constant_add_le {endOffset : Offset} {fields : List PlacedField}
    (h : PlacedFrom header {} fields endOffset) (hwords : fixedBytes fields < UInt64.size)
    {i j : Nat} (hi : i < fields.length) (hij : i < j) (hj : j < fields.length) :
    fields[i].offset.constant + fields[i].size.fixedPart + header ≤ fields[j].offset.constant := by
  rw [h.constant_getElem hwords hi, h.constant_getElem hwords hj]
  obtain ⟨k, rfl⟩ : ∃ k, j = i + 1 + k := Nat.exists_eq_add_of_le hij
  have hsum : ((fields.take (i + 1 + k)).map (·.size.fixedPart)).sum =
      ((fields.take i).map (·.size.fixedPart)).sum + fields[i].size.fixedPart +
        (((fields.drop (i + 1)).take k).map (·.size.fixedPart)).sum := by
    rw [List.take_add, List.take_succ_eq_append_getElem hi]
    simp only [List.map_append, List.sum_append, List.map_cons, List.map_nil, List.sum_cons,
      List.sum_nil, Nat.add_zero]
  have hheaders : (i + 1 + k + 1) * header = (i + 1) * header + header + k * header := by
    simp only [Nat.add_mul, Nat.one_mul]
    omega
  rw [hsum, hheaders]
  omega

/-- **Gates have no part in constants.** Let a session lay out a list of fields so that no constant
exceeds a 64-bit word. The constant of a field counts the headers up to its own and the fixed parts
of all fields before it. Without its gates the list is laid out with the same sizes and offsets, but
for the corrections among the terms. So constants rise by the fixed part and the header at least,
and where every field is there both layouts are evaluated alike. -/
theorem LayoutSession.fields_gates {l l' : LayoutSession} {ordered : List Field} {place : Place}
    {layouts : List PlacedField} {endOffset : Offset}
    (hl : l.fields ordered header place = (.ok (layouts, endOffset), l'))
    (hwords : fixedBytes layouts < UInt64.size) :
    (∀ (i : Nat) (hi : i < layouts.length), layouts[i].offset.constant =
      (i + 1) * header + ((layouts.take i).map (·.size.fixedPart)).sum) ∧
    l.fields (ordered.map Field.ungated) header place =
      (.ok (layouts.map PlacedField.ungated, endOffset.uncorrected), l') ∧
    (∀ (i j : Nat) (hij : i < j) (hj : j < layouts.length),
      layouts[i].offset.constant + layouts[i].size.fixedPart + header ≤
        layouts[j].offset.constant) ∧
    (∀ known : Known, (∀ f ∈ ordered, known.isPresent f.name = true) →
      (∀ f ∈ layouts, f.ungated.offset.evaluate? known = f.offset.evaluate? known) ∧
        endOffset.uncorrected.evaluate? known = endOffset.evaluate? known) := by
  obtain ⟨hfields, hwalk⟩ := LayoutSession.placedFrom_fields hl
  have hconstant := fun (i : Nat) (hi : i < layouts.length) => hwalk.constant_getElem hwords hi
  refine ⟨hconstant, ?_, fun i j hij hj => ?_, fun known hpresent => ?_⟩
  · rw [LayoutSession.fields_ungated, hl]
    rfl
  · exact hwalk.constant_add_le hwords (hij.trans hj) hij hj
  · have hpresent' : ∀ f ∈ layouts, known.isPresent f.name = true :=
      fun f hf => hpresent f.toField (hfields ▸ List.mem_map_of_mem hf)
    have hterms : ∀ {past : Offset} {before : List PlacedField}, before ⊆ layouts →
        PlacedFrom header {} before past → ∀ t ∈ past.terms, known.isPresent t.owner = true := by
      intro past before hbefore hpast t ht
      rcases hpast.owner_mem ht with hmem | ⟨f, hf, howner⟩
      · cases hmem
      · rw [howner]
        exact hpresent' f (hbefore hf)
    refine ⟨fun f hf => ?_, ?_⟩
    · obtain ⟨i, hi, rfl⟩ := List.getElem_of_mem hf
      obtain ⟨past, hpast, hoffset⟩ := hwalk.take hi
      refine Offset.evaluate?_uncorrected ?_ ?_
      · rw [hoffset]
        exact Nat.mod_lt _ (by decide)
      · rw [hoffset]
        exact fun t ht => hterms (List.take_subset _ _) hpast t ht
    · exact Offset.evaluate?_uncorrected (hwalk.constant_lt (by decide))
        (hterms (List.Subset.refl _) hwalk)

/-- With its gates and without, the last of the gated fields has the constant of six headers and
eight fixed bytes. -/
theorem fields_gates_gated :
    let l : LayoutSession := { schema := ⟨"s", .tlv, none, none, [], []⟩ }
    fixedBytes gatedLayouts.1 < UInt64.size ∧ gatedLayouts.1[5].offset.constant = 26 ∧
      l.fields (gatedFields.map Field.ungated) 3 (.container "m" .request) =
        (.ok (gatedLayouts.1.map PlacedField.ungated, gatedLayouts.2.uncorrected), l) := by
  intro l
  have hl : l.fields gatedFields 3 (.container "m" .request) = (.ok gatedLayouts, l) := rfl
  have hwords : fixedBytes gatedLayouts.1 < UInt64.size := by decide
  obtain ⟨hconstant, hungated, -, -⟩ := LayoutSession.fields_gates hl hwords
  exact ⟨hwords, hconstant 5 (by decide), hungated⟩

end WirePlan
