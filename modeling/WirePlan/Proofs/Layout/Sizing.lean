import WirePlan.Proofs.Layout.Nesting

/-!
# What constants stand for

The sizes of structs over the integers, where nothing wraps, are given by one equation for each
struct: where all members are of fixed size the struct is as great as they are together
(`Schema.Sizing`). If no struct embeds itself the equations have a solution
(`Schema.exists_sizing`), and by them alone every number in a layout is known (`Sums`): the constant
of an offset counts the headers and the fixed bytes of the fields before it.

The walk over a list adds 64-bit words. One of its constants is therefore the low 64 bits of the
exact sum (`PlacedFrom.constant_eq`), and so are the sizes of structs
(`StructLaidOut.size_eq_of_members`) and all that is made of them (`PlacedFrom.sums`).
-/

namespace WirePlan

/-! ## Exact sizes -/

/-- The size of a field, given those of structs. -/
def Field.sizeBy (sizes : String → WireSize) (f : Field) : WireSize :=
  let structSize := (f.structType?.map sizes).getD (.fixed 0)
  let count := f.sizeField?.getD ""
  match f.format with
  | .string => .lengthPrefixed f.lengthFormat.size
  | .array .string => .repeated count (.lengthPrefixed f.lengthFormat.size)
  | .array e => .repeated count (.fixed (e.size?.getD 0))
  | .struct | .refStruct => structSize
  | .structArray => .repeated count structSize
  | .refStructArray => .repeated count (.fixed Format.slotSize)
  | format => .fixed format.fixedSize

/-- The size of a struct, given those of its members: their sum, if all of them are fixed. -/
def WireSize.ofMembers (name : String) (members : List WireSize) : WireSize :=
  if members.all (·.fixed?.isSome) then .fixed (members.map (·.fixedPart)).sum else .composite name

/-- The sizes of all declared structs come from those of their members. -/
def Schema.Sizing (schema : Schema) (sizes : String → WireSize) : Prop :=
  ∀ t ∈ schema.structs, sizes t.name = .ofMembers t.name (t.members.map (·.sizeBy sizes))

/-- A field has a size by that of the struct which it names. -/
theorem Field.sizeBy_congr {sizes sizes' : String → WireSize} {f : Field}
    (h : ∀ t, f.structType? = some t → sizes t = sizes' t) : f.sizeBy sizes = f.sizeBy sizes' := by
  have hsame : f.structType?.map sizes = f.structType?.map sizes' := Option.map_congr h
  unfold sizeBy
  rw [hsame]

/-- The size of a struct does not depend on the order of its members. -/
theorem WireSize.ofMembers_of_perm {name : String} {xs ys : List WireSize} (h : xs.Perm ys) :
    ofMembers name xs = ofMembers name ys := by
  rw [ofMembers, ofMembers, h.all_eq, (h.map _).sum_nat]

section Sizing

variable {schema : Schema}

open scoped Classical in
/-- The size of a struct, given those of the structs that it embeds. -/
noncomputable def Schema.sizeStep (schema : Schema) (name : String)
    (inner : ∀ b, schema.Embeds name b → WireSize) : WireSize :=
  match schema.struct? name with
  | none => .fixed 0
  | some t => .ofMembers name (t.members.map (·.sizeBy fun b =>
      if h : schema.Embeds name b then inner b h else .fixed 0))

/-- **Structs that do not embed themselves have exact sizes.** -/
theorem Schema.exists_sizing (hnodup : (schema.structs.map (·.name)).Nodup)
    (hwf : WellFounded fun b a => schema.Embeds a b) : ∃ sizes, schema.Sizing sizes := by
  refine ⟨hwf.fix schema.sizeStep, fun t ht => ?_⟩
  rw [hwf.fix_eq, sizeStep, Schema.struct?_of_mem hnodup ht]
  refine congrArg (WireSize.ofMembers t.name) (List.map_congr_left fun f hf => ?_)
  exact Field.sizeBy_congr fun b hb => dif_pos ⟨t, ht, rfl, f, hf, hb⟩

end Sizing

/-! ## Sizes as words -/

/-- The size with each of its numbers as a word. -/
def WireSize.mapBytes (word : Nat → Nat) : WireSize → WireSize
  | fixed n => .fixed (word n)
  | lengthPrefixed n => .lengthPrefixed (word n)
  | repeated count element => .repeated count (element.mapBytes word)
  | composite t => .composite t

namespace WireSize

@[simp] theorem mapBytes_id (size : WireSize) : size.mapBytes id = size := by
  induction size with
  | fixed _ | lengthPrefixed _ | composite _ => rfl
  | repeated count element ih => rw [mapBytes, ih]

@[simp] theorem isSome_fixed?_mapBytes (word : Nat → Nat) (size : WireSize) :
    (size.mapBytes word).fixed?.isSome = size.fixed?.isSome := by
  cases size <;> rfl

theorem fixedPart_mapBytes (size : WireSize) :
    (size.mapBytes wrap64).fixedPart = wrap64 size.fixedPart := by
  cases size <;> rfl

/-- A size has no term of its own exactly if it is fixed. -/
theorem isEmpty_term? (field : String) (size : WireSize) :
    (size.term? field).toList.isEmpty = size.fixed?.isSome := by
  cases size with
  | fixed _ | lengthPrefixed _ | composite _ => rfl
  | repeated _ element => cases element <;> rfl

end WireSize

theorem wrap64_add_left (m n : Nat) : wrap64 (wrap64 m + n) = wrap64 (m + n) :=
  Nat.mod_add_mod m _ n

theorem wrap64_add_right (m n : Nat) : wrap64 (m + wrap64 n) = wrap64 (m + n) :=
  Nat.add_mod_mod m n _

theorem IntFormat.wrap64_size (i : IntFormat) : wrap64 i.size = i.size := by cases i <;> rfl

/-- **A size that fits is the exact one as words**, if the size of the struct that it may come from
is. -/
theorem SizeFits.eq_sizeBy {structs : StructLayouts} {f : Field} {size : WireSize}
    (h : SizeFits structs f size) {sizes : String → WireSize}
    (hstructs : ∀ t layout, f.structType? = some t → structs t = some layout →
      layout.size = (sizes t).mapBytes wrap64) : size = (f.sizeBy sizes).mapBytes wrap64 := by
  unfold Field.sizeBy
  cases h with
  | @scalar e n hformat hsize =>
    cases hf : f.format with
    | int i =>
      rw [hf] at hformat
      cases hformat
      cases hsize
      rw [WireSize.mapBytes, Format.fixedSize, i.wrap64_size]
    | uuid | ipv4 | ipv6 | refIpv4 | refIpv6 =>
      rw [hf] at hformat
      cases hformat
      cases hsize
      rfl
    | string =>
      rw [hf] at hformat
      cases hformat
      cases hsize
    | array _ | struct | refStruct | structArray | refStructArray =>
      rw [hf] at hformat
      cases hformat
  | string hformat => rw [hformat, WireSize.mapBytes, f.lengthFormat.wrap64_size]
  | @array e n count hformat hsize hcount =>
    rw [hformat, hcount]
    cases e with
    | int i =>
      cases hsize
      exact congrArg (fun n => WireSize.repeated count (.fixed n)) i.wrap64_size.symm
    | uuid | ipv4 | ipv6 =>
      cases hsize
      rfl
    | string => cases hsize
  | strings hformat hcount =>
    rw [hformat, hcount]
    exact congrArg (fun n => WireSize.repeated _ (.lengthPrefixed n))
      f.lengthFormat.wrap64_size.symm
  | struct hformat htype hstruct =>
    rcases hformat with hformat | hformat <;> rw [hformat, htype] <;>
      exact hstructs _ _ htype hstruct
  | structArray hformat hcount htype hstruct =>
    rw [hformat, hcount, htype, hstructs _ _ htype hstruct]
    rfl
  | slots hformat hcount _ _ =>
    rw [hformat, hcount]
    rfl

/-! ## Lists -/

/-- The exact number of bytes of fields that are all there, with their headers but without those
that depend on a value. -/
def exactBytes (sizes : String → WireSize) (fields : List PlacedField) : Nat :=
  (fields.map fun f => f.header + (f.sizeBy sizes).fixedPart).sum

/-- The number in a term, as a word, is that of bytes of a field of the list. -/
def Offset.Term.Counts (word : Nat → Nat) (sizes : String → WireSize) (fields : List PlacedField) :
    Offset.Term → Prop
  | stringBytes _ | bytesOf _ => True
  | elements field n count => ∃ f ∈ fields, f.name = field ∧
      ∃ exact, f.sizeBy sizes = .repeated count (.fixed exact) ∧ n = word exact
  | absence field n => ∃ f ∈ fields, f.name = field ∧
      n = word (f.header + (f.sizeBy sizes).fixedPart)

/-- The numbers in the layout of a list are exact ones as words. -/
structure Sums (word : Nat → Nat) (sizes : String → WireSize) (fields : List PlacedField)
    (endOffset : Offset) : Prop where
  size : ∀ f ∈ fields, f.size = (f.sizeBy sizes).mapBytes word
  offset : ∀ (i : Nat) (hi : i < fields.length),
    fields[i].offset.constant = word (exactBytes sizes (fields.take i) + fields[i].header)
  endConstant : endOffset.constant = word (exactBytes sizes fields)
  terms : ∀ o ∈ endOffset :: fields.map (·.offset), ∀ t ∈ o.terms, t.Counts word sizes fields

section List

variable {header : Nat} {o endOffset : Offset} {fields : List PlacedField}
  {sizes : String → WireSize}

theorem exactBytes_cons (f : PlacedField) (rest : List PlacedField) :
    exactBytes sizes (f :: rest) = f.header + (f.sizeBy sizes).fixedPart + exactBytes sizes rest :=
  rfl

theorem exactBytes_append (xs ys : List PlacedField) :
    exactBytes sizes (xs ++ ys) = exactBytes sizes xs + exactBytes sizes ys := by
  simp [exactBytes]

/-- **A constant is the low 64 bits of the exact sum.** -/
theorem PlacedFrom.constant_eq (h : PlacedFrom header o fields endOffset)
    (hsizes : ∀ f ∈ fields, f.size = (f.sizeBy sizes).mapBytes wrap64) {before : Nat}
    (hbefore : o.constant = wrap64 before) :
    endOffset.constant = wrap64 (before + exactBytes sizes fields) := by
  induction h generalizing before with
  | nil => simpa [exactBytes] using hbefore
  | @cons o endOffset f rest hheader hoffset _ ih =>
    have hpast : (f.offset.past header f.toField f.size).constant =
        wrap64 (before + (f.header + (f.sizeBy sizes).fixedPart)) := by
      rw [Offset.past_constant, hoffset, Offset.advance_constant, hbefore, hsizes f (.head _),
        WireSize.fixedPart_mapBytes, wrap64_add_right, wrap64_add_left, Nat.add_assoc,
        wrap64_add_left, hheader]
    rw [ih (fun g hg => hsizes g (.tail _ hg)) hpast, exactBytes_cons, Nat.add_assoc]

theorem constant_start : ({} : Offset).constant = wrap64 0 := rfl

/-- What counts bytes of a field of a list does so in a longer one. -/
theorem Offset.Term.Counts.mono {word : Nat → Nat} {fields fields' : List PlacedField}
    {t : Offset.Term} (h : t.Counts word sizes fields) (hsub : fields ⊆ fields') :
    t.Counts word sizes fields' := by
  cases t with
  | stringBytes _ | bytesOf _ => trivial
  | elements _ _ _ | absence _ _ =>
    obtain ⟨f, hf, hcounts⟩ := h
    exact ⟨f, hsub hf, hcounts⟩

/-- The term for the bytes of a field counts them. -/
theorem WireSize.counts_term? {f : PlacedField} (hf : f ∈ fields)
    (hsize : f.size = (f.sizeBy sizes).mapBytes wrap64) {t : Offset.Term}
    (ht : f.size.term? f.name = some t) : t.Counts wrap64 sizes fields := by
  generalize hexact : f.sizeBy sizes = exact at hsize
  cases exact with
  | fixed _ =>
    rw [hsize] at ht
    cases ht
  | lengthPrefixed _ | composite _ =>
    rw [hsize] at ht
    cases ht
    trivial
  | repeated count element =>
    rw [hsize] at ht
    cases element with
    | fixed n =>
      cases ht
      exact ⟨f, hf, rfl, n, hexact, rfl⟩
    | lengthPrefixed _ | repeated _ _ | composite _ =>
      cases ht
      trivial

/-- The correction for a field takes back its header and its fixed bytes. -/
theorem Field.counts_correction? {f : PlacedField} (hf : f ∈ fields)
    (hsize : f.size = (f.sizeBy sizes).mapBytes wrap64) {t : Offset.Term}
    (ht : f.toField.correction? (wrap64 (f.header + f.size.fixedPart)) = some t) :
    t.Counts wrap64 sizes fields := by
  unfold correction? at ht
  split at ht
  · cases ht
    refine ⟨f, hf, rfl, ?_⟩
    rw [hsize, WireSize.fixedPart_mapBytes, wrap64_add_right]
  · cases ht

/-- A term past a list was there before, or it counts bytes of a field of the list. -/
theorem PlacedFrom.counts_of_mem (h : PlacedFrom header o fields endOffset)
    (hsizes : ∀ f ∈ fields, f.size = (f.sizeBy sizes).mapBytes wrap64) {t : Offset.Term}
    (ht : t ∈ endOffset.terms) : t ∈ o.terms ∨ t.Counts wrap64 sizes fields := by
  induction h with
  | nil => exact .inl ht
  | @cons o endOffset f rest hheader hoffset _ ih =>
    rcases ih (fun g hg => hsizes g (.tail _ hg)) ht with hpast | hcounts
    · subst hheader
      rw [Offset.past, Offset.plus_terms, Offset.plus_terms, Offset.advance_terms, hoffset,
        Offset.advance_terms, List.mem_append, List.mem_append, Option.mem_toList,
        Option.mem_toList] at hpast
      rcases hpast with (hbefore | hterm) | hcorrection
      · exact .inl hbefore
      · exact .inr (WireSize.counts_term? (.head _) (hsizes f (.head _)) hterm)
      · exact .inr (Field.counts_correction? (.head _) (hsizes f (.head _)) hcorrection)
    · exact .inr (hcounts.mono (List.subset_cons_self f rest))

/-- **The numbers of a list are the exact ones as words**, if those in the sizes of its fields are.
-/
theorem PlacedFrom.sums (h : PlacedFrom header {} fields endOffset)
    (hsizes : ∀ f ∈ fields, f.size = (f.sizeBy sizes).mapBytes wrap64) :
    Sums wrap64 sizes fields endOffset where
  size := hsizes
  offset i hi := by
    obtain ⟨past, hpast, hoffset⟩ := h.take hi
    have hbefore :=
      hpast.constant_eq (fun f hf => hsizes f (List.mem_of_mem_take hf)) constant_start
    rw [hoffset, Offset.advance_constant, hbefore, wrap64_add_left, Nat.zero_add,
      h.header_eq (List.getElem_mem hi)]
  endConstant := by rw [h.constant_eq hsizes constant_start, Nat.zero_add]
  terms := by
    refine List.forall_mem_cons.2 ⟨fun t ht => ?_, fun o ho t ht => ?_⟩
    · exact (h.counts_of_mem hsizes ht).resolve_left List.not_mem_nil
    · obtain ⟨f, hf, rfl⟩ := List.mem_map.1 ho
      obtain ⟨i, hi, rfl⟩ := List.getElem_of_mem hf
      obtain ⟨past, hpast, hoffset⟩ := h.take hi
      rw [hoffset, Offset.advance_terms] at ht
      have hcounts := hpast.counts_of_mem (fun f hf => hsizes f (List.mem_of_mem_take hf)) ht
      exact (hcounts.resolve_left List.not_mem_nil).mono (List.take_subset i fields)

/-- The offset past fields that are never absent is constant exactly if all sizes are fixed. -/
theorem PlacedFrom.isConstant_eq (h : PlacedFrom header o fields endOffset)
    (hungated : ∀ f ∈ fields, f.prerequisites = []) :
    endOffset.isConstant = (o.isConstant && fields.all (·.size.fixed?.isSome)) := by
  induction h with
  | nil => simp
  | @cons o endOffset f rest hheader hoffset _ ih =>
    have hconditional : f.isConditional = false := by
      simp [Field.isConditional, hungated f (.head _)]
    have hnone : f.toField.correction? (wrap64 (header + f.size.fixedPart)) = none := by
      simp [Field.correction?, hconditional]
    have hpast : (f.offset.past header f.toField f.size).isConstant =
        (o.isConstant && f.size.fixed?.isSome) := by
      rw [← WireSize.isEmpty_term? f.name]
      cases hterms : o.terms <;> simp [Offset.isConstant, Offset.past, hnone, hoffset, hterms]
    rw [ih fun g hg => hungated g (.tail _ hg), hpast, List.all_cons, Bool.and_assoc]

end List

/-! ## Numbers that are words -/

/-- All numbers of a size are 64-bit words. -/
def WireSize.IsWord (size : WireSize) : Prop := size.mapBytes wrap64 = size

/-- The size of a field consists of words, if that of its struct does. -/
theorem Field.isWord_sizeBy {sizes : String → WireSize} {f : Field}
    (h : ∀ t, f.structType? = some t → (sizes t).IsWord) : (f.sizeBy sizes).IsWord := by
  have hstruct : ((f.structType?.map sizes).getD (.fixed 0)).IsWord := by
    cases htype : f.structType? with
    | none => rfl
    | some t => exact h t htype
  unfold sizeBy
  cases f.format with
  | int i => exact congrArg WireSize.fixed i.wrap64_size
  | string => exact congrArg WireSize.lengthPrefixed f.lengthFormat.wrap64_size
  | uuid | ipv4 | ipv6 | refIpv4 | refIpv6 | refStructArray => rfl
  | array e =>
    cases e with
    | int i => exact congrArg (fun n => WireSize.repeated _ (.fixed n)) i.wrap64_size
    | string =>
      exact congrArg (fun n => WireSize.repeated _ (.lengthPrefixed n)) f.lengthFormat.wrap64_size
    | uuid | ipv4 | ipv6 => rfl
  | struct | refStruct => exact hstruct
  | structArray => exact congrArg (WireSize.repeated _) hstruct

section Exact

variable {sizes : String → WireSize} {fields : List PlacedField}

/-- The header and the fixed bytes of a field are part of the sum. -/
theorem le_exactBytes {f : PlacedField} (hf : f ∈ fields) :
    f.header + (f.sizeBy sizes).fixedPart ≤ exactBytes sizes fields := by
  obtain ⟨before, behind, rfl⟩ := List.append_of_mem hf
  rw [exactBytes_append, exactBytes_cons]
  omega

/-- The fields before one and its header are part of the sum. -/
theorem exactBytes_take_add_le {i : Nat} (hi : i < fields.length) :
    exactBytes sizes (fields.take i) + fields[i].header ≤ exactBytes sizes fields := by
  have hsplit : exactBytes sizes fields = exactBytes sizes (fields.take i) +
      (fields[i].header + (fields[i].sizeBy sizes).fixedPart +
        exactBytes sizes (fields.drop (i + 1))) := by
    rw [← exactBytes_cons, ← List.drop_eq_getElem_cons hi, ← exactBytes_append,
      List.take_append_drop]
  omega

/-- The fixed bytes of a list whose sizes are words do not exceed its exact sum. -/
theorem fixedBytes_le_exactBytes
    (hsizes : ∀ f ∈ fields, f.size = (f.sizeBy sizes).mapBytes wrap64) :
    fixedBytes fields ≤ exactBytes sizes fields := by
  induction fields with
  | nil => exact Nat.le_refl 0
  | cons f rest ih =>
    obtain ⟨hsize, hrest⟩ := List.forall_mem_cons.1 hsizes
    have hpart : f.size.fixedPart ≤ (f.sizeBy sizes).fixedPart := by
      rw [hsize, WireSize.fixedPart_mapBytes]
      exact Nat.mod_le _ _
    rw [fixedBytes_cons, exactBytes_cons]
    exact Nat.add_le_add (Nat.add_le_add_left hpart f.header) (ih hrest)

/-- The fixed bytes of a list whose exact sizes are words are its exact sum. -/
theorem fixedBytes_eq_exactBytes
    (hsizes : ∀ f ∈ fields, f.size = (f.sizeBy sizes).mapBytes wrap64)
    (hwords : ∀ f ∈ fields, (f.sizeBy sizes).IsWord) :
    fixedBytes fields = exactBytes sizes fields := by
  refine congrArg List.sum (List.map_congr_left fun f hf => ?_)
  rw [hsizes f hf, hwords f hf]

/-- The number in a term is exact, if the sum of the list and the sizes of its fields are words. -/
theorem Offset.Term.Counts.exact {t : Offset.Term} (h : t.Counts wrap64 sizes fields)
    (hbytes : exactBytes sizes fields < UInt64.size)
    (hwords : ∀ f ∈ fields, (f.sizeBy sizes).IsWord) : t.Counts id sizes fields := by
  cases t with
  | stringBytes _ | bytesOf _ => trivial
  | elements field n count =>
    obtain ⟨f, hf, hname, exact, hexact, rfl⟩ := h
    have hword := hwords f hf
    rw [hexact] at hword
    injection hword with _ hword
    injection hword with hword
    exact ⟨f, hf, hname, exact, hexact, hword⟩
  | absence field n =>
    obtain ⟨f, hf, hname, rfl⟩ := h
    exact ⟨f, hf, hname, wrap64_of_lt ((le_exactBytes hf).trans_lt hbytes)⟩

/-- **The numbers of a list are exact**, if its sum and the sizes of its fields are words. -/
theorem Sums.exact {endOffset : Offset} (h : Sums wrap64 sizes fields endOffset)
    (hbytes : exactBytes sizes fields < UInt64.size)
    (hwords : ∀ f ∈ fields, (f.sizeBy sizes).IsWord) : Sums id sizes fields endOffset where
  size f hf := by rw [h.size f hf, hwords f hf, WireSize.mapBytes_id]
  offset i hi := (h.offset i hi).trans (wrap64_of_lt ((exactBytes_take_add_le hi).trans_lt hbytes))
  endConstant := h.endConstant.trans (wrap64_of_lt hbytes)
  terms o ho t ht := (h.terms o ho t ht).exact hbytes hwords

end Exact

/-! ## Structs -/

section Struct

variable {schema : Schema} {structs : StructLayouts} {layout : StructLayout}
  {sizes : String → WireSize}

/-- The exact size of a struct is the sum of its list. -/
theorem StructLaidOut.sizes_eq (h : StructLaidOut schema structs layout)
    (hsizing : schema.Sizing sizes) :
    sizes layout.name =
      if layout.members.all fun f => (f.sizeBy sizes).fixed?.isSome then
        .fixed (exactBytes sizes layout.members) else .composite layout.name := by
  obtain ⟨s, hs, -, hlaid⟩ := h.declared
  have hname : s.name = layout.name := by simpa using List.find?_some hs
  have hperm := (WireOrder.perm_of_wireOrder hlaid.order).map (·.sizeBy sizes)
  have hheader : ∀ f ∈ layout.members, f.header = 0 := fun f hf => hlaid.placed.header_eq hf
  have hbytes : exactBytes sizes layout.members =
      (layout.members.map fun f => (f.sizeBy sizes).fixedPart).sum := by
    refine congrArg List.sum (List.map_congr_left fun f hf => ?_)
    rw [hheader f hf, Nat.zero_add]
  rw [← hname, hsizing s (List.mem_of_find?_eq_some hs), ← WireSize.ofMembers_of_perm hperm,
    WireSize.ofMembers, hbytes]
  simp [Function.comp_def]

/-- **The size of a struct is the exact one as words**, if the sizes of its members are. -/
theorem StructLaidOut.size_eq_of_members (h : StructLaidOut schema structs layout)
    (hsizing : schema.Sizing sizes) (hungated : ∀ f ∈ layout.members, f.prerequisites = [])
    (hsizes : ∀ f ∈ layout.members, f.size = (f.sizeBy sizes).mapBytes wrap64) :
    layout.size = (sizes layout.name).mapBytes wrap64 := by
  obtain ⟨s, -, -, hlaid⟩ := h.declared
  have hfixed : layout.endOffset.isConstant =
      layout.members.all fun f => (f.sizeBy sizes).fixed?.isSome := by
    rw [hlaid.placed.isConstant_eq hungated, Bool.eq_iff_iff]
    simp only [Offset.isConstant, List.isEmpty_nil, Bool.true_and, List.all_eq_true]
    refine forall₂_congr fun f hf => ?_
    rw [hsizes f hf, WireSize.isSome_fixed?_mapBytes]
  rw [h.size_eq, h.sizes_eq hsizing, WireSize.ofStruct, hfixed,
    (hlaid.placed.sums hsizes).endConstant]
  split <;> rfl

/-- The exact size of a struct consists of words, if the sum of its list is one. -/
theorem StructLaidOut.isWord_sizes (h : StructLaidOut schema structs layout)
    (hsizing : schema.Sizing sizes) (hbytes : exactBytes sizes layout.members < UInt64.size) :
    (sizes layout.name).IsWord := by
  rw [h.sizes_eq hsizing]
  split
  · exact congrArg WireSize.fixed (wrap64_of_lt hbytes)
  · rfl

end Struct

end WirePlan
