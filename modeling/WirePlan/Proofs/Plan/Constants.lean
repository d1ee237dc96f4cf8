import WirePlan.Proofs.Layout.Sizing
import WirePlan.Proofs.Plan.Cycles
import WirePlan.Proofs.Plan.Stopping

/-!
# The numbers in a plan

Every number in the plan of a checked schema is the low 64 bits of what it should be: the exact sum
of the headers and fixed bytes that it counts, with the structs among them at their exact size.
That a struct has its exact size as a word goes by induction on what it embeds
(`Plan.size_eq_of_struct?`), and all other numbers come from the sizes of structs.

So the numbers of a plan are exact if and only if the sum of every list is a 64-bit word, and only
then is the plan returned where sums are checked (`Plan.constants_ofSchemaM`). Nothing in the checks
of a schema makes sure of it: structs that hold the one before twice double their size each, and
sixty-five of them are enough for a sum of 2^64, at which planning stops
(`not_forall_constants`).
-/

namespace WirePlan

namespace Plan

/-- The numbers in a plan, as words, are those that the exact sizes of structs give. -/
structure Constants (word : Nat → Nat) (sizes : String → WireSize) (plan : Plan) : Prop where
  containers : ∀ m ∈ plan.messages, ∀ c ∈ m.containers, Sums word sizes c.fields c.endOffset
  structs : ∀ layout ∈ plan.structs, Sums word sizes layout.members layout.endOffset
  sizes : ∀ layout ∈ plan.structs, layout.size = (sizes layout.name).mapBytes word

/-- The exact sums of all lists of a plan are 64-bit words. -/
structure Fits (sizes : String → WireSize) (plan : Plan) : Prop where
  containers : ∀ m ∈ plan.messages, ∀ c ∈ m.containers, exactBytes sizes c.fields < UInt64.size
  structs : ∀ layout ∈ plan.structs, exactBytes sizes layout.members < UInt64.size

section Schema

variable {schema : Schema} (hlinked : schema.Linked) {plan : Plan} (h : ofSchema schema = .ok plan)

include hlinked h

/-- The fields of a container of the plan are linked ones that are laid out. -/
theorem exists_laidOut_container {m : MessageLayout} (hm : m ∈ plan.messages) {c : ContainerLayout}
    (hc : c ∈ m.containers) :
    ∃ header declared place, LaidOut plan.struct? header declared place c.fields c.endOffset ∧
      ∀ f ∈ declared, f.Linked (schema.structs.map (·.name)) declared := by
  obtain ⟨-, -, hmessages⟩ := laidOut_ofSchema h
  obtain ⟨m', hm', hmessage⟩ := exists_of_mem_right hmessages hm
  obtain ⟨c', hc', hcontainer⟩ := exists_of_mem_right hmessage.containers hc
  exact ⟨_, c'.fields, _, hcontainer.fields, hlinked.containers m' hm' c' hc'⟩

/-- The members of a struct of the plan are linked ones that are laid out. -/
theorem exists_laidOut_struct {layout : StructLayout} (hlayout : layout ∈ plan.structs) :
    plan.struct? layout.name = some layout ∧ ∃ header declared place,
      LaidOut plan.struct? header declared place layout.members layout.endOffset ∧
      ∀ f ∈ declared, f.Linked (schema.structs.map (·.name)) declared := by
  obtain ⟨hstructs, hall, -⟩ := laidOut_ofSchema h
  obtain ⟨s, hs, hfound⟩ := exists_of_mem_right hall hlayout
  obtain ⟨hname, ⟨s', hs', -, hlaid⟩, -⟩ := hstructs s.name layout hfound
  exact ⟨hname ▸ hfound, _, s'.members, _, hlaid,
    hlinked.members s' (List.mem_of_find?_eq_some hs')⟩

omit hlinked in
/-- A linked field that names a struct names one of the plan. -/
theorem exists_struct_of_linked {f : Field} {siblings : List Field}
    (hf : f.Linked (schema.structs.map (·.name)) siblings) {t : String}
    (ht : f.structType? = some t) : ∃ layout, plan.struct? t = some layout := by
  obtain ⟨s, hs, rfl⟩ := List.mem_map.1 (hf.mem_of_structType ht)
  obtain ⟨layout, -, hlayout⟩ := exists_of_mem_left (laidOut_ofSchema h).2.1 hs
  exact ⟨layout, hlayout⟩

variable {sizes : String → WireSize} (hsizing : schema.Sizing sizes)

include hsizing

omit hlinked in
/-- Where all sums are words, so are the exact sizes of linked fields. -/
theorem isWord_of_fits (hfits : plan.Fits sizes) {f : Field} {siblings : List Field}
    (hf : f.Linked (schema.structs.map (·.name)) siblings) : (f.sizeBy sizes).IsWord := by
  refine Field.isWord_sizeBy fun t ht => ?_
  obtain ⟨layout, hlayout⟩ := exists_struct_of_linked h hf ht
  obtain ⟨rfl, hlaid⟩ := (laidOut_ofSchema h).1 t layout hlayout
  exact hlaid.isWord_sizes hsizing (hfits.structs layout (List.mem_of_find?_eq_some hlayout))

omit hlinked in
/-- Where all sums are words, the numbers of linked fields that are laid out are exact. -/
theorem sums_of_fits (hfits : plan.Fits sizes) {header : Nat} {declared : List Field}
    {place : Place} {fields : List PlacedField} {endOffset : Offset}
    (hlaid : LaidOut plan.struct? header declared place fields endOffset)
    (hdeclared : ∀ f ∈ declared, f.Linked (schema.structs.map (·.name)) declared)
    (hsums : Sums wrap64 sizes fields endOffset)
    (hbytes : exactBytes sizes fields < UInt64.size) : Sums id sizes fields endOffset :=
  hsums.exact hbytes fun f hf => isWord_of_fits h hsizing hfits
    (hdeclared f.toField (WireOrder.mem_of_wireOrder hlaid.order (List.mem_map_of_mem hf)))

variable (hchecked : schema.Checked)

include hchecked

/-- **The size of a struct is the exact one as words.** The induction is on what structs embed. -/
theorem size_eq_of_struct? {name : String} {layout : StructLayout}
    (hlayout : plan.struct? name = some layout) : layout.size = (sizes name).mapBytes wrap64 := by
  induction name using (wellFounded_embeds hchecked hlinked h).induction generalizing layout with
  | _ name ih =>
    obtain ⟨rfl, hlaid⟩ := (laidOut_ofSchema h).1 name layout hlayout
    obtain ⟨s, hs, -, hmembers⟩ := hlaid.declared
    have hname : s.name = layout.name := by simpa using List.find?_some hs
    refine hlaid.size_eq_of_members hsizing
      ((wellFormed_ofSchema hchecked h).structs hlayout).ungated fun f hf => ?_
    have hdeclared := WireOrder.mem_of_wireOrder hmembers.order (List.mem_map_of_mem hf)
    exact (hmembers.sized f hf).eq_sizeBy fun t inner htype hinner =>
      ih t ⟨s, List.mem_of_find?_eq_some hs, hname, f.toField, hdeclared, htype⟩ hinner

/-- The numbers of fields that are laid out are exact ones as words. -/
theorem sums_of_laidOut {header : Nat} {declared : List Field} {place : Place}
    {fields : List PlacedField} {endOffset : Offset}
    (hlaid : LaidOut plan.struct? header declared place fields endOffset) :
    Sums wrap64 sizes fields endOffset :=
  hlaid.placed.sums fun f hf => (hlaid.sized f hf).eq_sizeBy fun _ _ _ hlayout =>
    size_eq_of_struct? hlinked h hsizing hchecked hlayout

/-- All numbers of the plan are exact ones as words. -/
theorem constants_wrap64 : plan.Constants wrap64 sizes where
  containers m hm c hc := by
    obtain ⟨_, _, _, hlaid, -⟩ := exists_laidOut_container hlinked h hm hc
    exact sums_of_laidOut hlinked h hsizing hchecked hlaid
  structs layout hlayout := by
    obtain ⟨-, _, _, _, hlaid, -⟩ := exists_laidOut_struct hlinked h hlayout
    exact sums_of_laidOut hlinked h hsizing hchecked hlaid
  sizes layout hlayout := by
    obtain ⟨hfound, -⟩ := exists_laidOut_struct hlinked h hlayout
    exact size_eq_of_struct? hlinked h hsizing hchecked hfound

/-- All numbers of the plan are exact, where all sums are words. -/
theorem constants_of_fits (hfits : plan.Fits sizes) : plan.Constants id sizes := by
  have hwords := constants_wrap64 hlinked h hsizing hchecked
  constructor
  · intro m hm c hc
    obtain ⟨_, _, _, hlaid, hdeclared⟩ := exists_laidOut_container hlinked h hm hc
    exact sums_of_fits h hsizing hfits hlaid hdeclared (hwords.containers m hm c hc)
      (hfits.containers m hm c hc)
  · intro layout hlayout
    obtain ⟨-, _, _, _, hlaid, hdeclared⟩ := exists_laidOut_struct hlinked h hlayout
    exact sums_of_fits h hsizing hfits hlaid hdeclared (hwords.structs layout hlayout)
      (hfits.structs layout hlayout)
  · intro layout hlayout
    obtain ⟨hfound, -⟩ := exists_laidOut_struct hlinked h hlayout
    obtain ⟨-, hlaid⟩ := (laidOut_ofSchema h).1 layout.name layout hfound
    rw [hwords.sizes layout hlayout, WireSize.mapBytes_id]
    exact hlaid.isWord_sizes hsizing (hfits.structs layout hlayout)

/-- Where all sums are words, all lists are bounded. -/
theorem bounded_of_fits (hfits : plan.Fits sizes) : plan.Bounded := by
  have hwords := constants_wrap64 hlinked h hsizing hchecked
  constructor
  · intro m hm c hc
    have hsizes := (hwords.containers m hm c hc).size
    exact (fixedBytes_le_exactBytes hsizes).trans_lt (hfits.containers m hm c hc)
  · intro layout hlayout
    have hsizes := (hwords.structs layout hlayout).size
    exact (fixedBytes_le_exactBytes hsizes).trans_lt (hfits.structs layout hlayout)

/-- A bounded list has a sum that is a word, if the exact sizes of its fields are words. -/
theorem exactBytes_lt_of_laidOut {header : Nat} {declared : List Field} {place : Place}
    {fields : List PlacedField} {endOffset : Offset}
    (hlaid : LaidOut plan.struct? header declared place fields endOffset)
    (hwords : ∀ f ∈ fields, (f.sizeBy sizes).IsWord) (hfits : fixedBytes fields < UInt64.size) :
    exactBytes sizes fields < UInt64.size := by
  have hsums := sums_of_laidOut hlinked h hsizing hchecked hlaid
  rwa [fixedBytes_eq_exactBytes hsums.size hwords] at hfits

/-- Where all lists are bounded, the exact sizes of structs are words. The induction is on what
structs embed. -/
theorem isWord_of_bounded (hbounded : plan.Bounded) {name : String} {layout : StructLayout}
    (hlayout : plan.struct? name = some layout) : (sizes name).IsWord := by
  induction name using (wellFounded_embeds hchecked hlinked h).induction generalizing layout with
  | _ name ih =>
    obtain ⟨rfl, hlaid⟩ := (laidOut_ofSchema h).1 name layout hlayout
    obtain ⟨s, hs, -, hmembers⟩ := hlaid.declared
    have hmem := List.mem_of_find?_eq_some hs
    have hname : s.name = layout.name := by simpa using List.find?_some hs
    have hwords : ∀ f ∈ layout.members, (f.sizeBy sizes).IsWord := by
      refine fun f hf => Field.isWord_sizeBy fun t ht => ?_
      have hdeclared := WireOrder.mem_of_wireOrder hmembers.order (List.mem_map_of_mem hf)
      obtain ⟨inner, hinner⟩ :=
        exists_struct_of_linked h (hlinked.members s hmem f.toField hdeclared) ht
      exact ih t ⟨s, hmem, hname, f.toField, hdeclared, ht⟩ hinner
    exact hlaid.isWord_sizes hsizing (exactBytes_lt_of_laidOut hlinked h hsizing hchecked hmembers
      hwords (hbounded.structs layout (List.mem_of_find?_eq_some hlayout)))

/-- Where all lists are bounded, all sums are words. -/
theorem fits_of_bounded (hbounded : plan.Bounded) : plan.Fits sizes := by
  have hwords : ∀ {header : Nat} {declared : List Field} {place : Place}
      {fields : List PlacedField} {endOffset : Offset},
      LaidOut plan.struct? header declared place fields endOffset →
      (∀ f ∈ declared, f.Linked (schema.structs.map (·.name)) declared) →
      ∀ f ∈ fields, (f.sizeBy sizes).IsWord := by
    refine fun hlaid hdeclared f hf => Field.isWord_sizeBy fun t ht => ?_
    have hf := hdeclared _ (WireOrder.mem_of_wireOrder hlaid.order (List.mem_map_of_mem hf))
    obtain ⟨layout, hlayout⟩ := exists_struct_of_linked h hf ht
    exact isWord_of_bounded hlinked h hsizing hchecked hbounded hlayout
  constructor
  · intro m hm c hc
    obtain ⟨_, _, _, hlaid, hdeclared⟩ := exists_laidOut_container hlinked h hm hc
    exact exactBytes_lt_of_laidOut hlinked h hsizing hchecked hlaid (hwords hlaid hdeclared)
      (hbounded.containers m hm c hc)
  · intro layout hlayout
    obtain ⟨-, _, _, _, hlaid, hdeclared⟩ := exists_laidOut_struct hlinked h hlayout
    exact exactBytes_lt_of_laidOut hlinked h hsizing hchecked hlaid (hwords hlaid hdeclared)
      (hbounded.structs layout hlayout)

end Schema

/-- Where the numbers of a plan are words and exact, all sums are words. -/
theorem fits_of_constants {sizes : String → WireSize} {plan : Plan}
    (hwords : plan.Constants wrap64 sizes) (hexact : plan.Constants id sizes) :
    plan.Fits sizes := by
  have hword : ∀ {fields : List PlacedField} {endOffset : Offset},
      Sums wrap64 sizes fields endOffset → Sums id sizes fields endOffset →
      exactBytes sizes fields < UInt64.size := by
    intro fields endOffset hsums hsums'
    have hsame := hsums'.endConstant.symm.trans hsums.endConstant
    rw [id_eq] at hsame
    rw [hsame]
    exact Nat.mod_lt _ (by decide)
  exact ⟨fun m hm c hc => hword (hwords.containers m hm c hc) (hexact.containers m hm c hc),
    fun layout hlayout => hword (hwords.structs layout hlayout) (hexact.structs layout hlayout)⟩

/-- **The numbers of a plan.** In the plan of a schema that passes the checks every number is, where
sums wrap, the low 64 bits of the exact one: of an exact sum of headers and fixed bytes, or of the
exact size of a struct, which there is. They are the exact ones themselves if and only if the sum of
every list is a 64-bit word. Where sums are checked nothing else is returned, and the plan is
returned if and only if its numbers are exact; otherwise planning stops. -/
theorem constants_ofSchemaM {e : Expanded} {options : Options} {schema : Schema}
    (hschema : Schema.ofExpanded e options = .ok schema) :
    (∀ result, (ofSchemaM schema : Stopping _) = .ok result → ofSchema schema = result) ∧
    ∀ plan, ofSchema schema = .ok plan →
      (∃ sizes, schema.Sizing sizes) ∧ ∀ sizes, schema.Sizing sizes →
        plan.Constants wrap64 sizes ∧ (plan.Constants id sizes ↔ plan.Fits sizes) ∧
        ((ofSchemaM schema : Stopping _) = .ok (.ok plan) ↔ plan.Fits sizes) := by
  have hchecked := (Schema.checked_ofExpanded hschema).1
  have hlinked := (Schema.linked_ofExpanded hschema).2
  refine ⟨fun result h => (ofSchema_of_ofSchemaM h).1, fun plan hplan => ?_⟩
  refine ⟨Schema.exists_sizing hlinked.nodup (wellFounded_embeds hchecked hlinked hplan),
    fun sizes hsizing => ?_⟩
  have hwords := constants_wrap64 hlinked hplan hsizing hchecked
  refine ⟨hwords, ⟨fits_of_constants hwords, constants_of_fits hlinked hplan hsizing hchecked⟩,
    fun h => ?_, fun hfits => ?_⟩
  · exact fits_of_bounded hlinked hplan hsizing hchecked (ofSchemaM_eq_ok_iff.1 h).2
  · exact ofSchemaM_eq_ok_iff.2 ⟨hplan, bounded_of_fits hlinked hplan hsizing hchecked hfits⟩

end Plan

/-- The name of the struct at a level. -/
def levelName (k : Nat) : String := toString k

/-- Levels of structs: a byte at the first one, and at each other one the struct below it twice. -/
def levelDeclarations (height : Nat) : Expanded where
  names := { service? := some "S" }
  messages := [{
    name := "M"
    service? := none
    id := 1
    containers := [(.request, [
      { name := "top", format := "struct", structType? := some (levelName (height - 1)) }])] }]
  structs := (List.range height).map fun k => ⟨levelName k, match k with
    | 0 => [{ name := "low", format := "guint8" }]
    | k + 1 => [
      { name := "low", format := "struct", structType? := some (levelName k) },
      { name := "high", format := "struct", structType? := some (levelName k) }]⟩

/-- The members at a level. -/
def levelMembers : Nat → List Field
  | 0 => [{ name := "low", format := .int .u8 }]
  | k + 1 => [
    { name := "low", format := .struct, structType? := some (levelName k) },
    { name := "high", format := .struct, structType? := some (levelName k) }]

/-- The schema that they become. -/
def levelSchema (height : Nat) : Schema where
  service := "S"
  variant := .fixed
  messages := [⟨"M", "S", 1, [⟨.request, [
    { name := "top", format := .struct, structType? := some (levelName (height - 1)) }]⟩]⟩]
  structs := (List.range height).map fun k =>
    { name := levelName k, members := levelMembers k, usage := { embedded := true } }

/-- The exact size doubles from level to level. -/
theorem sizes_level {height : Nat} {sizes : String → WireSize}
    (hsizing : (levelSchema height).Sizing sizes) {k : Nat} (hk : k < height) :
    sizes (levelName k) = .fixed (2 ^ k) := by
  have hlevel : ∀ k < height, sizes (levelName k) =
      .ofMembers (levelName k) ((levelMembers k).map (·.sizeBy sizes)) := fun k hk =>
    hsizing _ (List.mem_map.2 ⟨k, List.mem_range.2 hk, rfl⟩)
  induction k with
  | zero =>
    rw [hlevel 0 hk]
    rfl
  | succ k ih =>
    have hbelow := ih (Nat.lt_of_succ_lt hk)
    rw [hlevel (k + 1) hk]
    simp [levelMembers, Field.sizeBy, hbelow, WireSize.ofMembers, WireSize.fixed?,
      WireSize.fixedPart, Nat.pow_succ, Nat.mul_two]

set_option maxRecDepth 16384 in
theorem levelSchema_eq : Schema.ofExpanded (levelDeclarations 64) {} = .ok (levelSchema 64) ∧
    Schema.ofExpanded (levelDeclarations 65) {} = .ok (levelSchema 65) :=
  ⟨toOption_eq_some.1 (by decide +kernel), toOption_eq_some.1 (by decide +kernel)⟩

set_option maxRecDepth 16384 in
/-- Sixty-four levels are planned. -/
theorem exists_levelPlan :
    ∃ plan, (Plan.ofSchemaM (levelSchema 64) : Stopping _) = .ok (.ok plan) := by
  have hplan : ((Plan.ofSchemaM (levelSchema 64) : Stopping _).toOption.bind
      Except.toOption).isSome = true := by decide +kernel
  obtain ⟨plan, hplan⟩ := Option.isSome_iff_exists.1 hplan
  obtain ⟨result, hresult, hplan⟩ := Option.bind_eq_some_iff.1 hplan
  rw [toOption_eq_some.1 hplan] at hresult
  exact ⟨plan, toOption_eq_some.1 hresult⟩

set_option maxRecDepth 16384 in
/-- Sixty-five levels are planned only where sums wrap. -/
theorem levelPlan_stops : (∃ plan, Plan.ofSchema (levelSchema 65) = .ok plan) ∧
    ∀ result, (Plan.ofSchemaM (levelSchema 65) : Stopping _) ≠ .ok result := by
  have hplan : (Plan.ofSchema (levelSchema 65)).toOption.isSome = true := by decide +kernel
  have hstops : (Plan.ofSchemaM (levelSchema 65) : Stopping _).toOption = none := by decide +kernel
  obtain ⟨plan, hplan⟩ := Option.isSome_iff_exists.1 hplan
  refine ⟨⟨plan, toOption_eq_some.1 hplan⟩, fun result hresult => ?_⟩
  rw [toOption_eq_some.2 hresult] at hstops
  cases hstops

/-- All numbers of sixty-four levels are exact. Those of sixty-five, whose greatest struct has 2^64
bytes, are exact only as words. -/
theorem constants_level :
    (∃ plan sizes, (Plan.ofSchemaM (levelSchema 64) : Stopping _) = .ok (.ok plan) ∧
      (levelSchema 64).Sizing sizes ∧ plan.Constants id sizes) ∧
    ∃ plan sizes, Plan.ofSchema (levelSchema 65) = .ok plan ∧ (levelSchema 65).Sizing sizes ∧
      sizes (levelName 64) = .fixed (2 ^ 64) ∧ plan.Constants wrap64 sizes ∧
      ¬ plan.Constants id sizes := by
  obtain ⟨hreturned, hplanned⟩ := Plan.constants_ofSchemaM levelSchema_eq.1
  obtain ⟨-, hwrapped⟩ := Plan.constants_ofSchemaM levelSchema_eq.2
  obtain ⟨plan, hplan⟩ := exists_levelPlan
  obtain ⟨⟨plan', hplan'⟩, hstops⟩ := levelPlan_stops
  obtain ⟨⟨sizes, hsizing⟩, hall⟩ := hplanned plan (hreturned _ hplan)
  obtain ⟨⟨sizes', hsizing'⟩, hall'⟩ := hwrapped plan' hplan'
  obtain ⟨-, hexact, hfits⟩ := hall sizes hsizing
  obtain ⟨hwords', hexact', hfits'⟩ := hall' sizes' hsizing'
  have htop := sizes_level hsizing' (show 64 < 65 by decide)
  exact ⟨⟨plan, sizes, hplan, hsizing, hexact.2 (hfits.1 hplan)⟩, plan', sizes', hplan', hsizing',
    htop, hwords', fun hconstants => hstops _ (hfits'.2 (hexact'.1 hconstants))⟩

/-- It is not so that planning always ends, and with exact numbers if in a plan: it stops at the
sixty-five levels. -/
theorem not_forall_constants :
    ¬ ∀ (e : Expanded) (options : Options) (schema : Schema),
      Schema.ofExpanded e options = .ok schema →
      ∃ result, (Plan.ofSchemaM schema : Stopping _) = .ok result ∧
        ∀ plan, result = .ok plan → ∃ sizes, schema.Sizing sizes ∧ plan.Constants id sizes := by
  intro h
  obtain ⟨result, hresult, -⟩ := h _ {} _ levelSchema_eq.2
  exact levelPlan_stops.2 result hresult

end WirePlan
