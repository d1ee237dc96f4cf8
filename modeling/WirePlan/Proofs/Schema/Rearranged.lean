import WirePlan.Proofs.Schema.Expansion
import WirePlan.Proofs.Schema.RecordOrder
import WirePlan.Proofs.Schema.WellFormed

/-!
# The order of declarations does not matter

Names stand once, so templates and structs are found in the same way in whatever order they are
declared. Rearranged declarations are expanded to the same, rearranged
(`Declarations.expand_of_rearranged`), and these are checked alike: a schema that passes does so in
every order, and each of its messages and structs is the same, the usage of structs included
(`Schema.ofExpanded_of_rearranged`).
-/

namespace WirePlan

/-- The same declarations in an order of their own. -/
structure Expanded.Rearranged (e e' : Expanded) : Prop where
  names : e.names = e'.names
  messages : e.messages.Perm e'.messages
  structs : e.structs.Perm e'.structs

/-- The same schema in an order of its own. -/
structure Schema.Rearranged (s s' : Schema) : Prop where
  service : s.service = s'.service
  variant : s.variant = s'.variant
  client? : s.client? = s'.client?
  messageIds? : s.messageIds? = s'.messageIds?
  messages : s.messages.Perm s'.messages
  structs : s.structs.Perm s'.structs

/-! ## Expansion -/

namespace Declarations

variable {d d' : Declarations}

section SameTemplates

variable (hfragment : d'.fragment? = d.fragment?)
  (hprerequisite : d'.prerequisite? = d.prerequisite?)

include hprerequisite in
theorem expandPrerequisites_congr (place : Place) (uses : List PrerequisiteUse) :
    d'.expandPrerequisites place uses = d.expandPrerequisites place uses := by
  refine congrArg (List.mapM · uses) (funext fun use => ?_)
  cases use with
  | inline p => rfl
  | shared name =>
    dsimp only [expandPrerequisite]
    rw [hprerequisite]

include hfragment hprerequisite in
theorem expandFields_congr (place : Place) (uses : List FieldUse) :
    d'.expandFields place uses = d.expandFields place uses := by
  refine congrArg (List.mapM · uses) (funext fun use => ?_)
  cases use with
  | inline f =>
    dsimp only [expandField]
    rw [expandPrerequisites_congr hprerequisite]
  | shared name own? =>
    dsimp only [expandField]
    rw [hfragment]
    cases d.fragment? name with
    | none => rfl
    | some f =>
      dsimp only
      rw [expandPrerequisites_congr hprerequisite]

include hfragment hprerequisite in
theorem expandStruct_congr : d'.expandStruct = d.expandStruct := by
  funext s
  rw [expandStruct, expandStruct, expandFields_congr hfragment hprerequisite]

include hfragment hprerequisite in
theorem expandMessage_congr : d'.expandMessage = d.expandMessage := by
  have hcontainer : d'.expandContainer = d.expandContainer := by
    funext message c
    rw [expandContainer, expandContainer, expandFields_congr hfragment hprerequisite]
  funext m
  rw [expandMessage, expandMessage, hcontainer]

end SameTemplates

/-- Templates are found in whatever order they are declared. -/
theorem Rearranged.fragment?_eq (h : d.Rearranged d') (hnodup : (d.fragments.map (·.name)).Nodup) :
    d'.fragment? = d.fragment? := by
  funext name
  exact congrArg (Option.map _) (find?_key_of_perm h.fragments hnodup name)

theorem Rearranged.prerequisite?_eq (h : d.Rearranged d')
    (hnodup : (d.prerequisites.map (·.name)).Nodup) : d'.prerequisite? = d.prerequisite? := by
  funext name
  exact congrArg (Option.map _) (find?_key_of_perm h.prerequisites hnodup name)

/-- **Rearranged declarations are expanded to the same, rearranged.** -/
theorem expand_of_rearranged (h : d.Rearranged d') {e : Expanded} (he : d.expand = .ok e) :
    ∃ e', d'.expand = .ok e' ∧ e.Rearranged e' := by
  obtain ⟨hnodup, hnodup', hformats, hstructs, hmessages, hnames⟩ := expand_eq_ok.1 he
  have hfragment := h.fragment?_eq hnodup
  have hprerequisite := h.prerequisite?_eq hnodup'
  obtain ⟨structs', hstructs', hsameStructs⟩ := exists_mapM_of_perm h.structs hstructs
  obtain ⟨messages', hmessages', hsameMessages⟩ := exists_mapM_of_perm h.messages hmessages
  rw [← expandStruct_congr hfragment hprerequisite] at hstructs'
  rw [← expandMessage_congr hfragment hprerequisite] at hmessages'
  refine ⟨⟨d'.names, messages', structs'⟩, expand_eq_ok.2 ⟨?_, ?_, ?_, hstructs', hmessages', rfl⟩,
    hnames.trans h.names, hsameMessages, hsameStructs⟩
  · exact (h.fragments.map _).nodup_iff.1 hnodup
  · exact (h.prerequisites.map _).nodup_iff.1 hnodup'
  · exact fun t ht => hformats t (h.fragments.mem_iff.2 ht)

/-- Messages and structs keep their order when templates are put in place. -/
theorem map_name_expand {e : Expanded} (h : d.expand = .ok e) :
    e.messages.map (·.name) = d.messages.map (·.name) ∧
      e.structs.map (·.name) = d.structs.map (·.name) := by
  obtain ⟨-, -, -, hstructs, hmessages, -⟩ := expand_eq_ok.1 h
  constructor
  · refine map_eq_of_forall₂ ((mapM_eq_ok.1 hmessages).imp fun m _ hm => ?_)
    obtain ⟨containers, -, hm⟩ := bind_eq_ok.1 hm
    cases pure_eq_ok.1 hm
    rfl
  · refine map_eq_of_forall₂ ((mapM_eq_ok.1 hstructs).imp fun t _ ht => ?_)
    obtain ⟨members, -, ht⟩ := bind_eq_ok.1 ht
    cases pure_eq_ok.1 ht
    rfl

end Declarations

/-! ## Checking -/

/-- The check of a list asks which structs are declared, not in what order. -/
theorem FieldChecker.fields_congr (c : FieldChecker) {names : List String}
    (hnames : ∀ t, t ∈ names ↔ t ∈ c.structNames) :
    fields { c with structNames := names } = c.fields := by
  have hdistinct : ∀ list used tags,
      distinct { c with structNames := names } used tags list = c.distinct used tags list := by
    intro list
    induction list with
    | nil => exact fun _ _ => rfl
    | cons f rest ih =>
      intro used tags
      simp only [distinct, ih]
      rfl
  have htype : ∀ f, structType { c with structNames := names } f = c.structType f := by
    intro f
    unfold structType
    cases f.structType? with
    | none => rfl
    | some t => simp only [hnames]
  have hlinks : ∀ siblings f format,
      links { c with structNames := names } siblings f format = c.links siblings f format := by
    intro siblings f format
    unfold links
    rw [htype]
    rfl
  have hfield : ∀ siblings, field { c with structNames := names } siblings = c.field siblings := by
    intro siblings
    funext f
    unfold field
    simp only [hlinks]
    rfl
  funext list
  rw [fields, fields, hdistinct, hfield]

namespace Expanded

variable {e e' : Expanded}

/-- The checkers of rearranged declarations accept the same lists. -/
theorem Rearranged.fields_checker (h : e.Rearranged e') (options : Options) (ofStruct : Bool)
    (place : Place) :
    (e'.checker options ofStruct place).fields = (e.checker options ofStruct place).fields :=
  (e.checker options ofStruct place).fields_congr fun _ => ((h.structs.map _).mem_iff).symm

theorem Rearranged.checkStruct_eq (h : e.Rearranged e') (options : Options) :
    e'.checkStruct options = e.checkStruct options := by
  funext s
  rw [checkStruct, checkStruct, h.fields_checker]

theorem Rearranged.checkMessage_eq (h : e.Rearranged e') (options : Options) (service : String) :
    e'.checkMessage options service = e.checkMessage options service := by
  have hcontainer : e'.checkContainer options = e.checkContainer options := by
    funext message c
    rw [checkContainer, checkContainer, h.fields_checker]
  funext m
  rw [checkMessage, checkMessage, hcontainer]

end Expanded

namespace Schema

/-- What fields use does not depend on their order. -/
theorem usageAmong_of_perm {fields fields' : List Field} (h : fields.Perm fields') (name : String) :
    usageAmong fields' name = usageAmong fields name := by
  have hany : ∀ p : Field → Bool, fields'.any p = fields.any p := by
    intro p
    rw [Bool.eq_iff_iff, List.any_eq_true, List.any_eq_true]
    exact exists_congr fun f => and_congr_left fun _ => h.mem_iff.symm
  rw [usageAmong, usageAmong, hany, hany]

/-- The usage noted in a rearranged schema is that noted in the schema. -/
theorem Rearranged.withUsage {s s' : Schema} (h : s.Rearranged s') :
    s.withUsage.Rearranged s'.withUsage where
  service := h.service
  variant := h.variant
  client? := h.client?
  messageIds? := h.messageIds?
  messages := h.messages
  structs := by
    have hfields : s.allFields.Perm s'.allFields :=
      (h.messages.flatMap_right _).append (h.structs.flatMap_right _)
    have hnote : ∀ t : Struct, { t with usage := usageAmong s'.allFields t.name } =
        { t with usage := usageAmong s.allFields t.name } := by
      intro t
      rw [usageAmong_of_perm hfields]
    dsimp only [Schema.withUsage]
    simp only [hnote]
    exact h.structs.map _

/-- **A schema passes the check in every order**, and what it becomes is the same, rearranged. -/
theorem ofExpanded_of_rearranged {e e' : Expanded} (h : e.Rearranged e') {options : Options}
    {s : Schema} (hs : ofExpanded e options = .ok s) :
    ∃ s', ofExpanded e' options = .ok s' ∧ s.Rearranged s' := by
  obtain ⟨service, structs, messages, hoptions, hservice, hnames, hstructs, hmessages, rfl⟩ :=
    ofExpanded_eq_ok.1 hs
  obtain ⟨structs', hstructs', hsameStructs⟩ := exists_mapM_of_perm h.structs hstructs
  obtain ⟨⟨hnodup, -⟩, hchecked⟩ := Expanded.checkMessages_eq_ok.1 hmessages
  obtain ⟨messages', hchecked', hsameMessages⟩ := exists_forall₂_of_perm h.messages hchecked
  rw [← h.checkStruct_eq] at hstructs'
  rw [← h.checkMessage_eq] at hchecked'
  have hservice' : e'.service options.variant = .ok service := by
    rw [← hservice, Expanded.service, Expanded.service, h.names]
  have hnames' : Expanded.distinctNames .struct (.service service) [] (e'.structs.map (·.name)) =
      .ok () :=
    Expanded.distinctNames_eq_ok.2 ⟨(h.structs.map _).nodup_iff.1
      (Expanded.distinctNames_eq_ok.1 hnames).1, fun _ _ => List.not_mem_nil⟩
  have hmessages' : e'.checkMessages options service [] e'.messages = .ok messages' :=
    Expanded.checkMessages_eq_ok.2 ⟨⟨(h.messages.map _).nodup_iff.1 hnodup,
      fun _ _ => List.not_mem_nil⟩, hchecked'⟩
  refine ⟨_, ofExpanded_eq_ok.2 ⟨service, structs', messages', hoptions, hservice', hnames',
    hstructs', hmessages', rfl⟩, ?_⟩
  refine Rearranged.withUsage ⟨rfl, rfl, ?_, ?_, hsameMessages, hsameStructs⟩
  · rw [h.names]
  · rw [h.names]

end Schema

end WirePlan
