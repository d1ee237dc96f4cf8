import WirePlan.Plan.Listing
import WirePlan.Proofs.Literal
import WirePlan.Proofs.Plan.Dependencies
import WirePlan.Proofs.Plan.Emission
import WirePlan.Proofs.Schema.Conditions

/-!
# What a listing tells

The backend that writes listings claims templates only, so it is called with every item of a plan
whose structs and messages stand once, and the listing is what it writes for each, in their order
(`Plan.listing_eq`). The line of every field stands in it, and with it the text of every condition
(`Plan.contains_listing`). As operands come from records, and survive printing, each is denoted by
its text in the listing (`Literal.ofText_text`).
-/

namespace WirePlan

/-! ## Texts within texts -/

/-- A text has a part somewhere. -/
def Text.Contains (whole part : String) : Prop :=
  ∃ before after, whole = before ++ part ++ after

namespace Text.Contains

variable {whole text part : String}

theorem refl (text : String) : Contains text text :=
  ⟨"", "", by rw [String.append_empty, String.empty_append]⟩

theorem trans (h : Contains whole text) (hpart : Contains text part) : Contains whole part := by
  obtain ⟨before, after, rfl⟩ := h
  obtain ⟨before', after', rfl⟩ := hpart
  exact ⟨before ++ before', after' ++ after, by simp only [String.append_assoc]⟩

theorem append_right (h : Contains text part) (after : String) : Contains (text ++ after) part :=
  trans ⟨"", after, by rw [String.empty_append]⟩ h

theorem append_left (h : Contains text part) (before : String) : Contains (before ++ text) part :=
  trans ⟨before, "", by rw [String.append_empty]⟩ h

/-- Texts one after the other have each of them. -/
theorem join {texts : List String} (hmem : text ∈ texts) (h : Contains text part) :
    Contains (.join texts) part := by
  induction texts with
  | nil => cases hmem
  | cons first rest ih =>
    rw [String.join_cons]
    rcases List.mem_cons.1 hmem with rfl | hmem
    · exact h.append_right _
    · exact (ih hmem).append_left first

/-- So they do with others between. -/
theorem intercalate {texts : List String} (hmem : text ∈ texts) (between : String) :
    Contains (between.intercalate texts) text := by
  induction texts with
  | nil => cases hmem
  | cons first rest ih =>
    cases rest with
    | nil =>
      cases List.mem_singleton.1 hmem
      rw [String.intercalate_singleton]
      exact refl text
    | cons second rest =>
      rw [String.intercalate_cons_cons]
      rcases List.mem_cons.1 hmem with rfl | hmem
      · exact ((refl text).append_right _).append_right _
      · exact (ih hmem).append_left _

end Text.Contains

/-! ## The paragraphs of a listing -/

namespace Listing

variable (verbose : Bool)

/-- What is written for an item of a plan. -/
def itemText : Item → String
  | .begin plan => headLine plan
  | .struct s => structText verbose s
  | .message m => messageText verbose m
  | .finish _ => ""

/-- What is claimed at an item. -/
def itemClaims : Item → List Claim
  | .message m => origins m
  | .begin _ | .struct _ | .finish _ => []

/-- No struct and no message is claimed. -/
theorem kind_of_mem_itemClaims {item : Item} {c : Claim} (h : c ∈ itemClaims item) :
    c.kind = .fragment := by
  cases item with
  | begin _ | struct _ | finish _ => cases h
  | message m =>
    obtain ⟨f, -, hf⟩ := List.mem_filterMap.1 h
    obtain ⟨name, -, rfl⟩ := Option.map_eq_some_iff.1 hf
    rfl

theorem kind_of_claim? {item : Item} {c : Claim} (h : item.claim? = some c) :
    c.kind ≠ .fragment := by
  cases item with
  | begin _ | finish _ => cases h
  | struct _ | message _ =>
    cases h
    exact nofun

theorem run_call (r : Registry) (item : Item) (s : String) :
    ((backend verbose).call r item).run s = (itemClaims item, s ++ itemText verbose item) := by
  cases item with
  | begin _ | struct _ | message _ => rfl
  | finish _ => exact congrArg (Prod.mk []) String.append_empty.symm

/-- Items that stand once and are new are all written, in their order. -/
theorem run_emitAll {items : List Item} (hnodup : (items.filterMap Item.claim?).Nodup)
    {r : Registry} (hnew : ∀ c ∈ items.filterMap Item.claim?, c ∉ r.claims) (s : String) :
    (((backend verbose).emitAll r items).run s).2 =
      s ++ .join (items.map (itemText verbose)) := by
  induction items generalizing r s with
  | nil => exact String.append_empty.symm
  | cons item rest ih =>
    have hunclaimed : item.isClaimed r = false := by
      rw [Bool.eq_false_iff]
      intro hclaimed
      obtain ⟨c, hc, hmem⟩ := Item.isClaimed_iff.1 hclaimed
      exact hnew c (List.mem_filterMap.2 ⟨item, .head _, hc⟩) hmem
    have hnodup' : (rest.filterMap Item.claim?).Nodup :=
      hnodup.sublist ((List.sublist_cons_self item rest).filterMap _)
    -- What is claimed on the way is the item itself and templates, none of which comes again.
    have hnew' : ∀ c ∈ rest.filterMap Item.claim?,
        c ∉ ((item.noted r).claimAll (itemClaims item)).claims := by
      intro c hc hmem
      obtain ⟨later, hlater, hclaim⟩ := List.mem_filterMap.1 hc
      rcases mem_claimAll_noted.1 hmem with hr | hitem | hclaims
      · exact hnew c (List.mem_filterMap.2 ⟨later, .tail _ hlater, hclaim⟩) hr
      · rw [List.filterMap_cons_some hitem] at hnodup
        exact (List.nodup_cons.1 hnodup).1 hc
      · exact kind_of_claim? hclaim (kind_of_mem_itemClaims hclaims)
    rw [Backend.emitAll, hunclaimed, if_neg Bool.false_ne_true, StateT.run_bind, run_call]
    exact (ih hnodup' hnew' _).trans (by rw [List.map_cons, String.join_cons, String.append_assoc])

/-- The line of a field has the text of each of its conditions. -/
theorem contains_fieldLine (indent : String) {f : PlacedField} {p : Prerequisite}
    (hp : p ∈ f.prerequisites) : Text.Contains (fieldLine verbose indent f) p.text := by
  have hgated : f.toField.isConditional = true := by
    rw [Field.isConditional, List.isEmpty_eq_false_iff.2 (List.ne_nil_of_mem hp)]
    rfl
  have hcondition : Text.Contains (conditionText f.toField) p.text := by
    rw [conditionText, if_pos hgated]
    exact (Text.Contains.intercalate (List.mem_map_of_mem hp) " && ").append_left "  if "
  exact ((hcondition.append_left _).append_right _).append_right "\n"

end Listing

namespace Plan

variable {plan : Plan}

/-- **The listing of a plan** whose structs and messages stand once is the line of its service and
the paragraphs of its structs and messages, in their order. -/
theorem listing_eq (hstructs : (plan.structs.map (·.name)).Nodup)
    (hmessages : (plan.messages.map (·.name)).Nodup) (verbose : Bool) :
    plan.listing verbose = Listing.headLine plan ++
      .join (plan.structs.map (Listing.structText verbose)) ++
      .join (plan.messages.map (Listing.messageText verbose)) := by
  have hnodup : (plan.agenda.filterMap Item.claim?).Nodup := by
    rw [agenda_claims, List.nodup_append]
    refine ⟨.of_map (·.name) (by rwa [List.map_map]), .of_map (·.name) (by rwa [List.map_map]), ?_⟩
    intro c hc d hd hsame
    obtain ⟨s, -, rfl⟩ := List.mem_map.1 hc
    obtain ⟨m, -, rfl⟩ := List.mem_map.1 hd
    cases hsame
  have hnew : ∀ c ∈ plan.agenda.filterMap Item.claim?, c ∉ ({} : Registry).claims :=
    fun _ _ => List.not_mem_nil
  rw [listing, list, Backend.emit_eq_emitAll, Listing.run_emitAll verbose hnodup hnew]
  simp [agenda, Listing.itemText, Function.comp_def, String.append_assoc]

/-- No struct and no message of a source is planned twice. -/
theorem nodup_ofSource {source : String} {options : Options}
    (h : ofSource source options = .ok plan) :
    (plan.structs.map (·.name)).Nodup ∧ (plan.messages.map (·.name)).Nodup := by
  rw [Plan.ofSource_eq] at h
  obtain ⟨schema, hschema, h⟩ := bind_eq_ok.1 h
  obtain ⟨declarations, -, hschema⟩ := bind_eq_ok.1 hschema
  obtain ⟨e, -, hschema⟩ := bind_eq_ok.1 hschema
  have harranged := arranged_ofExpanded hschema h
  have hnames : plan.messages.map (·.name) = e.messages.map (·.name) :=
    map_eq_of_forall₂ (harranged.messages.imp fun _ _ hm => hm.1)
  exact ⟨harranged.nodup, hnames ▸ (Schema.wellFormed_of_ofExpanded hschema).1.messageNames⟩

/-- **Every condition of a container stands in the listing.** -/
theorem contains_listing {source : String} {options : Options}
    (h : ofSource source options = .ok plan) (verbose : Bool) {m : MessageLayout}
    (hm : m ∈ plan.messages) {c : ContainerLayout} (hc : c ∈ m.containers) {f : PlacedField}
    (hf : f ∈ c.fields) {p : Prerequisite} (hp : p ∈ f.prerequisites) :
    Text.Contains (plan.listing verbose) p.text := by
  obtain ⟨hstructs, hmessages⟩ := nodup_ofSource h
  have hline := Listing.contains_fieldLine verbose "    " hp
  have hcontainer : Text.Contains (Listing.containerText verbose c) p.text :=
    (Text.Contains.join (List.mem_map_of_mem hf) hline).append_left _
  have hmessage : Text.Contains (Listing.messageText verbose m) p.text :=
    (Text.Contains.join (List.mem_map_of_mem hc) hcontainer).append_left _
  rw [listing_eq hstructs hmessages]
  exact (Text.Contains.join (List.mem_map_of_mem hm) hmessage).append_left _

end Plan

/-! ## Operands -/

/-- What is meant by the text of an operand is denoted by its own text: it is a number, a truth
value, or what a text denotes. -/
theorem OperandText.ofText_text_literal (o : OperandText) :
    Literal.ofText o.literal.text = o.literal := by
  cases o with
  | bool b => exact Literal.ofText_text_bool b
  | int i => exact Literal.ofText_text_int i
  | text t => rw [literal, Literal.ofText_text_ofText]

theorem PrerequisiteRecord.ofText_text_value (r : PrerequisiteRecord) (place : Place)
    (p : Prerequisite) (h : r.declared place = .ok p) : Literal.ofText p.value.text = p.value := by
  obtain ⟨field, -, h⟩ := bind_eq_ok.1 h
  obtain ⟨symbol, -, h⟩ := bind_eq_ok.1 h
  obtain ⟨operation, -, h⟩ := bind_eq_ok.1 h
  obtain ⟨operand, -, h⟩ := bind_eq_ok.1 h
  cases pure_eq_ok.1 h
  exact operand.ofText_text_literal

/-- **Literals survive printing.** What a text denotes is denoted by its own text too, and so is
every number and every truth value. So each operand that a source declares is denoted by its text,
which stands in the listing of the plan behind the field and the symbol of its condition. -/
theorem Literal.ofText_text :
    (∀ s, ofText (ofText s).text = ofText s) ∧ (∀ i, ofText (int i).text = int i) ∧
    (∀ h, ofText (hex h).text = hex h) ∧ (∀ b, ofText (bool b).text = bool b) ∧
    (∀ source declarations, Declarations.ofSource source = .ok declarations →
      declarations.EveryPrerequisite fun p => ofText p.value.text = p.value) ∧
    ∀ source options plan, Plan.ofSource source options = .ok plan →
      ∀ m ∈ plan.messages, ∀ c ∈ m.containers, ∀ f ∈ c.fields, ∀ p ∈ f.prerequisites,
        ofText p.value.text = p.value ∧ ∀ verbose, Text.Contains (plan.listing verbose)
          (p.field ++ " " ++ p.operation.symbol ++ " " ++ p.value.text) := by
  have hrecords := PrerequisiteRecord.ofText_text_value
  refine ⟨ofText_text_ofText, ofText_text_int, ofText_text_hex, ofText_text_bool, ?_, ?_⟩
  · intro source declarations h
    exact Declarations.everyPrerequisite_ofSource hrecords h
  · intro source options plan h m hm c hc f hf p hp
    refine ⟨Plan.forall_prerequisites_ofSource hrecords h m hm c hc f hf p hp, fun verbose => ?_⟩
    exact Plan.contains_listing h verbose hm hc hf hp

/-- A number is read back though it was written in capitals behind a blank. The operand of the rows
is read back from its text, which stands in the listing with its condition. -/
theorem Literal.ofText_text_rows :
    ofText " 0X1F" = hex 31 ∧ ofText (ofText " 0X1F").text = hex 31 ∧
      Plan.ofSource rowsSource {} = .ok rowsPlan ∧ ofText (int 1).text = int 1 ∧
      Text.Contains (rowsPlan.listing true) "flag == 1" := by
  have hwritten : ofText " 0X1F" = hex 31 := by decide
  have hcondition : (⟨"flag", .eq, .int 1⟩ : Prerequisite).text = "flag == 1" := by decide
  obtain ⟨htexts, -, -, -, -, hplans⟩ := ofText_text
  obtain ⟨hoperand, hlisted⟩ := hplans rowsSource {} rowsPlan rowsPlan_eq _ (.head _) _ (.head _)
    _ (.tail _ (.tail _ (.head _))) _ (.head _)
  exact ⟨hwritten, (htexts " 0X1F").trans hwritten, rowsPlan_eq, hoperand,
    hcondition ▸ hlisted true⟩

end WirePlan
