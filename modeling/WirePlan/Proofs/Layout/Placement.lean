import WirePlan.Proofs.Layout.Amount
import WirePlan.Proofs.Layout.Step
import WirePlan.Proofs.Overflow

/-!
# Where fields stand

A list of fields is placed by one walk that keeps an offset (`placeFields`). The offset counts every
field as if it were there, adds a term for the bytes that depend on a value, and takes the fixed
bytes of an absent field back. What it amounts to is nevertheless simple: the bytes of the fields
that are there. `Offset.amount?_past_present` and `Offset.amount?_past_absent` say what one field
does to the amount; both hold with constants that wrap at 64 bits. As long as no constant wraps, the
amounts add up to the bytes of the fields that are there (`PlacedFrom.amount?`), and so every field
stands behind the header and the bytes before it, under every pattern of presence
(`LayoutSession.evaluate?_fields`).

The walk itself is a relation between the offset it starts from, the layouts, and the offset it ends
at (`PlacedFrom`), with one rule for each step; proofs about layouts go by its rules.
-/

namespace WirePlan

/-- The bytes on the wire of a field of this size, if what they depend on is known. -/
def WireSize.bytes? (known : Known) (field : String) : WireSize → Option Nat
  | fixed n => some n
  | lengthPrefixed n => (known.stringLength? field).map (n + ·)
  | repeated count (fixed n) => (known.count? count).map (n * ·)
  | repeated .. | composite _ => known.consumed? field

theorem wrap64_modEq (n : Nat) : (wrap64 n : Int) ≡ n [ZMOD UInt64.size] := by
  rw [wrap64, Int.natCast_emod]
  exact Int.mod_modEq _ _

namespace Offset

/-! ## One step of the walk -/

@[simp] theorem advance_terms (o : Offset) (n : Nat) : (o.advance n).terms = o.terms := rfl

@[simp] theorem advance_constant (o : Offset) (n : Nat) :
    (o.advance n).constant = wrap64 (o.constant + n) := rfl

@[simp] theorem plus_constant (o : Offset) (t? : Option Term) :
    (o.plus t?).constant = o.constant := rfl

@[simp] theorem plus_terms (o : Offset) (t? : Option Term) :
    (o.plus t?).terms = o.terms ++ t?.toList := rfl

@[simp] theorem past_constant (o : Offset) (header : Nat) (f : Field) (size : WireSize) :
    (o.past header f size).constant = wrap64 (o.constant + size.fixedPart) := rfl

/-- Advancing adds what the constant grows by. -/
theorem amount?_advance (o : Offset) (known : Known) (n : Nat) :
    (o.advance n).amount? known =
      (o.amount? known).map (· + ((wrap64 (o.constant + n) : Int) - o.constant)) := by
  rw [amount?, amount?, advance_terms, advance_constant]
  cases Term.sum? known o.terms with
  | none => rfl
  | some a =>
    simp only [Option.map_some, Option.some.injEq]
    omega

/-- A further term adds its value. -/
theorem amount?_plus (o : Offset) (known : Known) (t? : Option Term) :
    (o.plus t?).amount? known =
      (o.amount? known).bind fun a => (Term.sum? known t?.toList).map (a + ·) := by
  rw [amount?, amount?, plus_terms, plus_constant, Term.sum?_append]
  cases Term.sum? known o.terms with
  | none => rfl
  | some a =>
    cases Term.sum? known t?.toList with
    | none => rfl
    | some b =>
      simp only [Option.map_some, Option.bind_some, Option.some.injEq]
      omega

namespace Term

/-- An absent field adds nothing by its own term. -/
theorem sum?_term_absent {known : Known} {field : String} (h : known.isPresent field = false)
    (size : WireSize) : sum? known (size.term? field).toList = some 0 := by
  cases size with
  | fixed n => rfl
  | lengthPrefixed n | composite t => simp [WireSize.term?, sum?, value?, h]
  | repeated c e => cases e <;> simp [WireSize.term?, sum?, value?, h]

/-- A field that is there adds by its own term the bytes that are not fixed. -/
theorem sum?_term_present {known : Known} {field : String} (h : known.isPresent field = true)
    {size : WireSize} {bytes : Nat} (hb : size.bytes? known field = some bytes)
    (hlt : bytes < size128 / 2) :
    sum? known (size.term? field).toList = some ((bytes : Int) - size.fixedPart) := by
  cases size with
  | fixed n =>
    cases hb
    simp [WireSize.term?, sum?, WireSize.fixedPart]
  | lengthPrefixed n =>
    obtain ⟨length, hl, rfl⟩ := Option.map_eq_some_iff.1 hb
    simp [WireSize.term?, sum?, value?, h, hl, WireSize.fixedPart]
  | composite t =>
    have hc : known.consumed? field = some bytes := hb
    simp [WireSize.term?, sum?, value?, h, hc, WireSize.fixedPart]
  | repeated c e =>
    cases e with
    | fixed n =>
      obtain ⟨count, hc, rfl⟩ := Option.map_eq_some_iff.1 hb
      simp [WireSize.term?, sum?, value?, h, hc, hlt, WireSize.fixedPart]
    | lengthPrefixed _ | repeated _ _ | composite _ =>
      have hc : known.consumed? field = some bytes := hb
      simp [WireSize.term?, sum?, value?, h, hc, WireSize.fixedPart]

/-- Whatever a field that is there adds by its own term are the bytes that are not fixed. -/
theorem eq_of_sum?_term {known : Known} {field : String} (h : known.isPresent field = true)
    {size : WireSize} {bytes : Nat} (hb : size.bytes? known field = some bytes) {a : Int}
    (ha : sum? known (size.term? field).toList = some a) : a = (bytes : Int) - size.fixedPart := by
  cases size with
  | fixed n =>
    cases hb
    cases ha
    simp [WireSize.fixedPart]
  | lengthPrefixed n =>
    obtain ⟨length, hl, rfl⟩ := Option.map_eq_some_iff.1 hb
    simp [WireSize.term?, sum?, value?, h, hl] at ha
    simp [WireSize.fixedPart, ha]
  | composite t =>
    have hc : known.consumed? field = some bytes := hb
    simp [WireSize.term?, sum?, value?, h, hc] at ha
    simp [WireSize.fixedPart, ha]
  | repeated c e =>
    cases e with
    | fixed n =>
      obtain ⟨count, hc, rfl⟩ := Option.map_eq_some_iff.1 hb
      simp [WireSize.term?, sum?, value?, h, hc] at ha
      simp [WireSize.fixedPart, ← ha.2]
    | lengthPrefixed _ | repeated _ _ | composite _ =>
      have hc : known.consumed? field = some bytes := hb
      simp [WireSize.term?, sum?, value?, h, hc] at ha
      simp [WireSize.fixedPart, ha]

/-- Nothing is taken back from a field that is there. -/
theorem sum?_correction_present {known : Known} {f : Field} (h : known.isPresent f.name = true)
    (bytes : Nat) : sum? known (f.correction? bytes).toList = some 0 := by
  unfold Field.correction?
  split
  · simp [sum?, value?, h]
  · rfl

/-- The fixed bytes of an absent field are taken back. -/
theorem sum?_correction_absent {known : Known} {f : Field} (h : known.isPresent f.name = false)
    (hgated : f.isConditional = true) (bytes : Nat) :
    sum? known (f.correction? bytes).toList = some (-(bytes : Int)) := by
  unfold Field.correction?
  split
  · simp [sum?, value?, h]
  · next hzero =>
    have : bytes = 0 := by simpa [hgated] using hzero
    subst this
    rfl

end Term

/-- Past a field that is there the amount has grown by its bytes, up to a wrap of the constant. -/
theorem amount?_past_present {o : Offset} {known : Known} {f : Field} {size : WireSize}
    {amount : Int} {bytes : Nat} (ha : o.amount? known = some amount)
    (hp : known.isPresent f.name = true) (hb : size.bytes? known f.name = some bytes)
    (hlt : bytes < size128 / 2) (header : Nat) :
    (o.past header f size).amount? known =
      some (amount + (wrap64 (o.constant + size.fixedPart) - o.constant) +
        (bytes - size.fixedPart)) := by
  rw [past, amount?_plus, amount?_plus, amount?_advance, ha, Term.sum?_term_present hp hb hlt,
    Term.sum?_correction_present hp]
  simp

/-- Past an absent field the amount is what it was before the header, up to wraps. -/
theorem amount?_past_absent {o : Offset} {known : Known} {f : Field} {amount : Int}
    (ha : o.amount? known = some amount) (hp : known.isPresent f.name = false)
    (hgated : f.isConditional = true) (header : Nat) (size : WireSize) :
    (o.past header f size).amount? known =
      some (amount + (wrap64 (o.constant + size.fixedPart) - o.constant) -
        wrap64 (header + size.fixedPart)) := by
  rw [past, amount?_plus, amount?_plus, amount?_advance, ha, Term.sum?_term_absent hp,
    Term.sum?_correction_absent hp hgated]
  simp [Int.sub_eq_add_neg]

/-- An amount past a field that is there has grown from one before it. -/
theorem exists_of_amount?_past_present {o : Offset} {known : Known} {f : Field} {size : WireSize}
    {bytes : Nat} (hp : known.isPresent f.name = true)
    (hb : size.bytes? known f.name = some bytes) {header : Nat} {a : Int}
    (ha : (o.past header f size).amount? known = some a) :
    ∃ b, o.amount? known = some b ∧
      a = b + (wrap64 (o.constant + size.fixedPart) - o.constant) + (bytes - size.fixedPart) := by
  rw [past, amount?_plus, amount?_plus, amount?_advance, Term.sum?_correction_present hp] at ha
  cases hbefore : o.amount? known with
  | none => simp [hbefore] at ha
  | some b =>
    cases hterm : Term.sum? known (size.term? f.name).toList with
    | none => simp [hbefore, hterm] at ha
    | some n =>
      simp [hbefore, hterm] at ha
      exact ⟨b, rfl, by rw [← ha, Term.eq_of_sum?_term hp hb hterm]⟩

/-- An amount past an absent field comes from one before it. -/
theorem exists_of_amount?_past_absent {o : Offset} {known : Known} {f : Field}
    (hp : known.isPresent f.name = false) (hgated : f.isConditional = true) {header : Nat}
    {size : WireSize} {a : Int} (ha : (o.past header f size).amount? known = some a) :
    ∃ b, o.amount? known = some b ∧
      a = b + (wrap64 (o.constant + size.fixedPart) - o.constant) -
        wrap64 (header + size.fixedPart) := by
  cases hbefore : o.amount? known with
  | none => simp [past, amount?_plus, amount?_advance, hbefore] at ha
  | some b =>
    rw [amount?_past_absent hbefore hp hgated] at ha
    exact ⟨b, rfl, (Option.some.inj ha).symm⟩

end Offset

/-! ## The whole walk -/

/-- Layouts of fields that stand one behind the other from an offset on, and the place past the last
one. -/
inductive PlacedFrom (header : Nat) : Offset → List PlacedField → Offset → Prop where
  | nil {o : Offset} : PlacedFrom header o [] o
  | cons {o endOffset : Offset} {f : PlacedField} {rest : List PlacedField}
      (hheader : f.header = header) (hoffset : f.offset = o.advance header)
      (hrest : PlacedFrom header (f.offset.past header f.toField f.size) rest endOffset) :
      PlacedFrom header o (f :: rest) endOffset

variable {header : Nat}

/-- The walk places fields one behind the other. -/
theorem placedFrom_placeFields (o : Offset) (sized : List (Field × WireSize)) :
    PlacedFrom header o (placeFields header o sized).1 (placeFields header o sized).2 := by
  induction sized generalizing o with
  | nil => exact .nil
  | cons x rest ih => exact .cons rfl rfl (ih _)

/-- The layouts are of the fields given, in order, with the sizes given. -/
theorem map_placeFields (o : Offset) (sized : List (Field × WireSize)) :
    (placeFields header o sized).1.map (fun f => (f.toField, f.size)) = sized := by
  induction sized generalizing o with
  | nil => rfl
  | cons x rest ih => exact congrArg (x :: ·) (ih _)

/-- The first field has the header of the list, stands behind it, and the others stand past it. -/
theorem PlacedFrom.cons_inv {o endOffset : Offset} {f : PlacedField} {rest : List PlacedField}
    (h : PlacedFrom header o (f :: rest) endOffset) :
    f.header = header ∧ f.offset = o.advance header ∧
      PlacedFrom header (f.offset.past header f.toField f.size) rest endOffset := by
  cases h with
  | cons hheader hoffset hrest => exact ⟨hheader, hoffset, hrest⟩

/-- Every field has the header of the list. -/
theorem PlacedFrom.header_eq {o endOffset : Offset} {fields : List PlacedField}
    (h : PlacedFrom header o fields endOffset) {f : PlacedField} (hf : f ∈ fields) :
    f.header = header := by
  induction h with
  | nil => cases hf
  | cons hheader _ _ ih =>
    cases hf with
    | head => exact hheader
    | tail _ hf => exact ih hf

/-- The offset past a list keeps the terms from before the list. -/
theorem PlacedFrom.subset_terms {o endOffset : Offset} {fields : List PlacedField}
    (h : PlacedFrom header o fields endOffset) : o.terms ⊆ endOffset.terms := by
  induction h with
  | nil => exact List.Subset.refl _
  | @cons o endOffset f rest _ hoffset _ ih =>
    refine List.Subset.trans ?_ ih
    rw [hoffset, Offset.past, Offset.plus_terms, Offset.plus_terms, List.append_assoc]
    exact List.subset_append_left _ _

/-- The offset past a list has the term of every field. -/
theorem PlacedFrom.mem_terms {o endOffset : Offset} {fields : List PlacedField}
    (h : PlacedFrom header o fields endOffset) {f : PlacedField} (hf : f ∈ fields)
    {t : Offset.Term} (ht : f.size.term? f.name = some t) : t ∈ endOffset.terms := by
  induction h with
  | nil => cases hf
  | cons _ _ hrest ih =>
    cases hf with
    | head =>
      apply hrest.subset_terms
      rw [Offset.past, Offset.plus_terms, Offset.plus_terms, List.append_assoc]
      exact List.mem_append_right _ (List.mem_append_left _ (Option.mem_toList.2 ht))
    | tail _ hf => exact ih hf

/-- Every field stands a header behind the end of the fields before it. -/
theorem PlacedFrom.take {o endOffset : Offset} {fields : List PlacedField}
    (h : PlacedFrom header o fields endOffset) {i : Nat} (hi : i < fields.length) :
    ∃ past, PlacedFrom header o (fields.take i) past ∧ fields[i].offset = past.advance header := by
  induction h generalizing i with
  | nil => cases hi
  | cons hheader hoffset _ ih =>
    cases i with
    | zero => exact ⟨_, .nil, hoffset⟩
    | succ i =>
      obtain ⟨past, hpast, hnext⟩ := ih (Nat.lt_of_succ_lt_succ hi)
      exact ⟨past, .cons hheader hoffset hpast, hnext⟩

/-- The bytes of fields that are all there, with their headers but without those that depend on a
value. -/
def fixedBytes (fields : List PlacedField) : Nat :=
  (fields.map fun f => f.header + f.size.fixedPart).sum

theorem fixedBytes_append (xs ys : List PlacedField) :
    fixedBytes (xs ++ ys) = fixedBytes xs + fixedBytes ys := by
  simp [fixedBytes]

theorem fixedBytes_cons (f : PlacedField) (rest : List PlacedField) :
    fixedBytes (f :: rest) = f.header + f.size.fixedPart + fixedBytes rest := rfl

/-- The bytes of the fields that are there, with their headers; the values take `bytes`. -/
def presentBytes (known : Known) (bytes : PlacedField → Nat) (fields : List PlacedField) : Nat :=
  ((fields.filter fun f => known.isPresent f.name).map fun f => f.header + bytes f).sum

/-- As long as it does not wrap, the constant counts the header and the fixed bytes of every field.
-/
theorem PlacedFrom.constant {o endOffset : Offset} {fields : List PlacedField}
    (h : PlacedFrom header o fields endOffset)
    (hword : o.constant + fixedBytes fields < UInt64.size) :
    endOffset.constant = o.constant + fixedBytes fields := by
  induction h with
  | nil => rfl
  | @cons o endOffset f rest hheader hoffset _ ih =>
    rw [fixedBytes_cons] at hword ⊢
    have hstep : (f.offset.past header f.toField f.size).constant =
        o.constant + (f.header + f.size.fixedPart) := by
      rw [Offset.past_constant, hoffset, Offset.advance_constant, ← hheader,
        wrap64_of_lt (n := o.constant + f.header) (by omega), wrap64_of_lt (by omega),
        Nat.add_assoc]
    rw [ih (by omega), hstep, Nat.add_assoc]

/-- **Amounts add up.** As long as no constant wraps, the place past a list of fields amounts to the
bytes of those that are there. -/
theorem PlacedFrom.amount? {known : Known} {bytes : PlacedField → Nat} {o endOffset : Offset}
    {amount : Int} {fields : List PlacedField} (h : PlacedFrom header o fields endOffset)
    (ha : o.amount? known = some amount)
    (hungated : ∀ f ∈ fields, f.isConditional = false → known.isPresent f.name = true)
    (hbytes : ∀ f ∈ fields, known.isPresent f.name = true →
      f.size.bytes? known f.name = some (bytes f))
    (hconstant : o.constant + fixedBytes fields < UInt64.size)
    (htotal : presentBytes known bytes fields < UInt64.size) :
    endOffset.amount? known = some (amount + presentBytes known bytes fields) := by
  induction h generalizing amount with
  | nil => simpa [presentBytes] using ha
  | @cons o endOffset f rest hheader hoffset _ ih =>
    rw [fixedBytes_cons] at hconstant
    have hstart : f.offset.constant = o.constant + header := by
      rw [hoffset, Offset.advance_constant, wrap64_of_lt (by omega)]
    have hoffsetAmount : f.offset.amount? known = some (amount + header) := by
      rw [hoffset, Offset.amount?_advance, ha, wrap64_of_lt (by omega)]
      simp
    have hconstantPast : wrap64 (f.offset.constant + f.size.fixedPart) =
        o.constant + header + f.size.fixedPart := by
      rw [hstart, wrap64_of_lt (by omega)]
    have hrest : (f.offset.past header f.toField f.size).constant + fixedBytes rest <
        UInt64.size := by
      rw [Offset.past_constant, hconstantPast]
      omega
    cases hp : known.isPresent f.name with
    | true =>
      have hcons : presentBytes known bytes (f :: rest) =
          header + bytes f + presentBytes known bytes rest := by
        simp [presentBytes, hp, hheader]
      have hsmall : bytes f < size128 / 2 := by
        have : UInt64.size ≤ size128 / 2 := by decide
        omega
      have hpast := Offset.amount?_past_present hoffsetAmount hp (hbytes f (.head _) hp) hsmall
        header
      rw [ih hpast (fun g hg => hungated g (.tail _ hg)) (fun g hg => hbytes g (.tail _ hg)) hrest
        (by omega), hcons, hconstantPast, hstart]
      simp only [Option.some.injEq]
      omega
    | false =>
      have hcons : presentBytes known bytes (f :: rest) = presentBytes known bytes rest := by
        simp [presentBytes, hp]
      have hgated : f.isConditional = true := by
        cases hg : f.isConditional with
        | true => rfl
        | false => exact absurd (hungated f (.head _) hg) (by simp [hp])
      have hpast := Offset.amount?_past_absent hoffsetAmount hp hgated header f.size
      rw [wrap64_of_lt (n := header + f.size.fixedPart) (by omega)] at hpast
      rw [ih hpast (fun g hg => hungated g (.tail _ hg)) (fun g hg => hbytes g (.tail _ hg)) hrest
        (by omega), hcons, hconstantPast, hstart]
      simp only [Option.some.injEq]
      omega

/-! ## The fields of a session -/

/-- The sizes found are those of the fields given, in order. -/
theorem map_sizeFields {sizes : StructSizes Id} {place : Place} {placed : List String}
    {fields : List Field} {sized : List (Field × WireSize)} {p p' : LayoutProgress}
    (h : (sizeFields sizes place placed fields).Yields p sized p') :
    sized.map (·.1) = fields := by
  induction fields generalizing placed sized p with
  | nil =>
    obtain ⟨rfl, -⟩ := LayoutT.yields_pure.1 h
    rfl
  | cons f rest ih =>
    obtain ⟨size, q, -, h⟩ := LayoutT.yields_bind.1 h
    obtain ⟨others, r, hrest, h⟩ := LayoutT.yields_bind.1 h
    obtain ⟨rfl, rfl⟩ := LayoutT.yields_pure.1 h
    simp [ih hrest]

/-- A list that a session lays out is placed with the sizes found. -/
theorem yields_layoutList {sizes : StructSizes Id} {ordered : List Field} {place : Place}
    {result : List PlacedField × Offset} {p p' : LayoutProgress} :
    (layoutList sizes ordered header place).Yields p result p' ↔
      ∃ sized, (sizeFields sizes place [] ordered).Yields p sized p' ∧
        placeFields header {} sized = result := by
  rw [layoutList_eq, LayoutT.yields_map]

/-- The fields that a session lays out stand one behind the other from the start of the list on. -/
theorem LayoutSession.placedFrom_fields {l l' : LayoutSession} {ordered : List Field}
    {place : Place} {layouts : List PlacedField} {endOffset : Offset}
    (h : l.fields ordered header place = (.ok (layouts, endOffset), l')) :
    layouts.map (·.toField) = ordered ∧ PlacedFrom header {} layouts endOffset := by
  obtain ⟨sized, hsized, hplaced⟩ := yields_layoutList.1 (LayoutSession.yields_of_run h)
  have hmap : (placeFields header {} sized).1.map (fun f => (f.toField, f.size)) = sized :=
    map_placeFields {} sized
  have hwalk : PlacedFrom header {} (placeFields header {} sized).1
      (placeFields header {} sized).2 := placedFrom_placeFields {} sized
  rw [hplaced] at hmap hwalk
  refine ⟨?_, hwalk⟩
  rw [← map_sizeFields hsized, ← hmap, List.map_map]
  rfl

/-- **Fields stand where they should under every pattern of presence.** Let a session lay out a list
of fields, and let the ungated ones be there. If each field that is there takes a known number of
bytes and no constant exceeds a 64-bit word, then a field, there itself or not, stands a header
behind the headers and values of the fields before it that are there, and the list ends behind all
of them, as far as these places are 64-bit words. -/
theorem LayoutSession.evaluate?_fields {l l' : LayoutSession} {ordered : List Field}
    {place : Place} {layouts : List PlacedField} {endOffset : Offset}
    (hl : l.fields ordered header place = (.ok (layouts, endOffset), l')) {known : Known}
    (hungated : ∀ f ∈ ordered, f.isConditional = false → known.isPresent f.name = true)
    {bytes : PlacedField → Nat}
    (hbytes : ∀ f ∈ layouts, known.isPresent f.name = true →
      f.size.bytes? known f.name = some (bytes f))
    (hconstants : fixedBytes layouts < UInt64.size) :
    layouts.map (·.toField) = ordered ∧
      (∀ (i : Nat) (hi : i < layouts.length),
        header + presentBytes known bytes (layouts.take i) < UInt64.size →
        layouts[i].offset.evaluate? known =
          some (header + presentBytes known bytes (layouts.take i))) ∧
      (presentBytes known bytes layouts < UInt64.size →
        endOffset.evaluate? known = some (presentBytes known bytes layouts)) := by
  obtain ⟨hfields, hwalk⟩ := LayoutSession.placedFrom_fields hl
  have hungated' : ∀ f ∈ layouts, f.isConditional = false → known.isPresent f.name = true :=
    fun f hf => hungated f.toField (hfields ▸ List.mem_map_of_mem hf)
  have hstart : ({} : Offset).amount? known = some 0 := rfl
  refine ⟨hfields, fun i hi htotal => ?_, fun htotal => ?_⟩
  · obtain ⟨past, hpast, hoffset⟩ := hwalk.take hi
    have hsplit : fixedBytes layouts = fixedBytes (layouts.take i) +
        (layouts[i].header + layouts[i].size.fixedPart + fixedBytes (layouts.drop (i + 1))) := by
      rw [← fixedBytes_cons, ← List.drop_eq_getElem_cons hi, ← fixedBytes_append,
        List.take_append_drop]
    have hheader : layouts[i].header = header := hwalk.header_eq (List.getElem_mem hi)
    have hconstant := hpast.constant (by simp only [Nat.zero_add]; omega)
    have hamount := hpast.amount? hstart (fun f hf => hungated' f (List.mem_of_mem_take hf))
      (fun f hf => hbytes f (List.mem_of_mem_take hf)) (by simp only [Nat.zero_add]; omega)
      (by omega)
    apply Offset.evaluate?_of_amount? _ htotal
    rw [hoffset, Offset.amount?_advance, hamount, wrap64_of_lt (by simp only [hconstant]; omega)]
    simp only [Option.map_some, Option.some.injEq]
    omega
  · have hamount := hwalk.amount? hstart hungated' hbytes (by simpa using hconstants) htotal
    apply Offset.evaluate?_of_amount? _ htotal
    simpa using hamount

/-- A count, a flag, a note and a code that the flag gates, an array between them, and a number at
the end. -/
def gatedFields : List Field := [
  { name := "count", format := .int .u8 },
  { name := "flag", format := .int .u8 },
  { name := "note", format := .string, prerequisites := [⟨"flag", .eq, .int 1⟩]
    lengthPrefix? := some .u16 },
  { name := "items", format := .array (.int .u16), sizeField? := some "count" },
  { name := "code", format := .int .u32, prerequisites := [⟨"flag", .eq, .int 0⟩] },
  { name := "last", format := .int .u8 }]

/-- Three elements, and no note. -/
def withoutNote : Known where
  isPresent f := f ≠ "note"
  count? f := if f = "count" then some 3 else none
  stringLength? _ := none
  consumed? _ := none

/-- The layouts of these fields under headers. -/
def gatedLayouts : List PlacedField × Offset :=
  placeFields 3 {} (gatedFields.zip
    [.fixed 1, .fixed 1, .lengthPrefixed 2, .repeated "count" (.fixed 2), .fixed 4, .fixed 1])

/-- The bytes of their values. -/
def gatedBytes (f : PlacedField) : Nat := (f.size.bytes? withoutNote f.name).getD 0

/-- Without the note, the last of these fields stands a header behind twenty-four bytes: two
numbers, three elements and a code, each under its header. -/
theorem evaluate?_fields_gated :
    let l : LayoutSession := { schema := ⟨"s", .tlv, none, none, [], []⟩ }
    l.fields gatedFields 3 (.container "m" .request) = (.ok gatedLayouts, l) ∧
      gatedLayouts.1[5].offset.evaluate? withoutNote = some 27 ∧
      gatedLayouts.2.evaluate? withoutNote = some 28 := by
  intro l
  have hl : l.fields gatedFields 3 (.container "m" .request) = (.ok gatedLayouts, l) := rfl
  have hungated : ∀ f ∈ gatedFields, f.isConditional = false →
      withoutNote.isPresent f.name = true := by decide
  have hbytes : ∀ f ∈ gatedLayouts.1, withoutNote.isPresent f.name = true →
      f.size.bytes? withoutNote f.name = some (gatedBytes f) := by decide
  have h := LayoutSession.evaluate?_fields hl hungated hbytes (by decide)
  exact ⟨hl, h.2.1 5 (by decide) (by decide), h.2.2 (by decide)⟩

end WirePlan
