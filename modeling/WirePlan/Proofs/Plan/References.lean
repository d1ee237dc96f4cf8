import WirePlan.Proofs.Plan.WellFormed

/-!
# Offsets look back

The terms that a field adds to the offsets behind it look up the field itself and the field that
counts its elements, which stands before it (`Offset.references_past`). So every term of an offset
looks up fields that stand before it (`PlacedFrom.mem_take_of_reference`).
-/

namespace WirePlan

variable {structs : StructLayouts} {before : List String}

/-- The size of an array names the field that counts its elements. -/
theorem SizeFits.sizeField?_eq (hstructs : structs.WellFormed) {f : Field} {count : String}
    {element : WireSize} (h : SizeFits structs f (.repeated count element)) :
    f.sizeField? = some count := by
  generalize hsize : WireSize.repeated count element = size at h
  cases h with
  | array _ _ hcount | strings _ hcount | structArray _ hcount _ _ | slots _ hcount _ _ =>
    cases hsize
    exact hcount
  | struct _ _ hstruct =>
    rw [(hstructs hstruct).size_eq, WireSize.ofStruct] at hsize
    split at hsize <;> cases hsize
  | scalar _ _ | string _ => cases hsize

/-- What counts the elements of a field is among its dependencies. -/
theorem SizeFits.mem_dependencies (hstructs : structs.WellFormed) {f : Field} {count : String}
    {element : WireSize} (h : SizeFits structs f (.repeated count element)) :
    count ∈ f.dependencies :=
  List.mem_append_left _ (Option.mem_toList.2 (h.sizeField?_eq hstructs))

/-- The term for the bytes of a field looks up the field and what counts its elements. -/
theorem WireSize.references_term? {size : WireSize} {field : String} {t : Offset.Term}
    (h : size.term? field = some t) {r : String} (hr : r ∈ t.references) :
    r = field ∨ ∃ element, size = .repeated r element := by
  cases size with
  | fixed n => cases h
  | lengthPrefixed n | composite s =>
    cases h
    exact .inl (by simpa [Offset.Term.references, Offset.Term.owner] using hr)
  | repeated count element =>
    cases element with
    | fixed n =>
      cases h
      simp only [Offset.Term.references, List.mem_cons, List.not_mem_nil, or_false] at hr
      exact hr.imp_right fun heq => ⟨.fixed n, by rw [heq]⟩
    | lengthPrefixed _ | repeated _ _ | composite _ =>
      cases h
      exact .inl (by simpa [Offset.Term.references, Offset.Term.owner] using hr)

/-- The correction for a field looks up the field. -/
theorem Field.references_correction? {f : Field} {bytes : Nat} {t : Offset.Term}
    (h : f.correction? bytes = some t) {r : String} (hr : r ∈ t.references) : r = f.name := by
  unfold correction? at h
  split at h
  · cases h
    simpa [Offset.Term.references, Offset.Term.owner] using hr
  · cases h

/-- The terms past a field look up the field and the fields before it. -/
theorem Offset.references_past {o : Offset} {f : PlacedField} (hstructs : structs.WellFormed)
    (hsized : SizeFits structs f.toField f.size) (hdeps : ∀ d ∈ f.dependencies, d ∈ before)
    (h : ∀ t ∈ o.terms, ∀ r ∈ t.references, r ∈ before) (header : Nat) :
    ∀ t ∈ (o.past header f.toField f.size).terms, ∀ r ∈ t.references, r ∈ f.name :: before := by
  intro t ht r hr
  simp only [Offset.past, Offset.plus_terms, Offset.advance_terms, List.mem_append,
    Option.mem_toList] at ht
  rcases ht with (ht | ht) | ht
  · exact .tail _ (h t ht r hr)
  · rcases WireSize.references_term? ht hr with rfl | ⟨element, hsize⟩
    · exact .head _
    · exact .tail _ (hdeps _ ((hsize ▸ hsized).mem_dependencies hstructs))
  · rw [Field.references_correction? ht hr]
    exact .head _

/-- **Offsets look back.** In a list in order the terms of an offset look up fields before the list
and fields before the one that stands at the offset. -/
theorem PlacedFrom.mem_take_of_reference (hstructs : structs.WellFormed) {header : Nat}
    {o endOffset : Offset} {fields : List PlacedField} (h : PlacedFrom header o fields endOffset)
    (hinOrder : Field.InOrder before (fields.map (·.toField)))
    (hsized : ∀ f ∈ fields, SizeFits structs f.toField f.size)
    (ho : ∀ t ∈ o.terms, ∀ r ∈ t.references, r ∈ before) {i : Nat} {f : PlacedField}
    (hf : fields[i]? = some f) {t : Offset.Term} (ht : t ∈ f.offset.terms) {r : String}
    (hr : r ∈ t.references) : r ∈ before ∨ ∃ g ∈ fields.take i, g.name = r := by
  induction h generalizing before i with
  | nil => cases hf
  | @cons o endOffset g rest _ hoffset _ ih =>
    have hstart : ∀ t ∈ g.offset.terms, ∀ r ∈ t.references, r ∈ before := by
      rw [hoffset]
      exact ho
    cases i with
    | zero =>
      cases hf
      exact .inl (hstart t ht r hr)
    | succ i =>
      have hpast := Offset.references_past hstructs (hsized g (.head _)) hinOrder.2.1 hstart header
      rcases ih hinOrder.2.2 (fun k hk => hsized k (.tail _ hk)) hpast hf with hmem | ⟨k, hk, hname⟩
      · rcases List.mem_cons.1 hmem with rfl | hmem
        · exact .inr ⟨g, .head _, rfl⟩
        · exact .inl hmem
      · exact .inr ⟨k, .tail _ hk, hname⟩

end WirePlan
