import WirePlan.Plan.Generation
import WirePlan.Proofs.Plan.Unique
import WirePlan.Proofs.Schema.Rearranged

/-!
# The order of records does not matter

A schema is planned in one way, so two plans of the same schema in two orders find the same layout
for every struct (`Plan.struct?_of_rearranged`), and so for every container. There is a plan for one
order if there is for the other, since what keeps a schema from being planned is a cycle, which is
there in every order (`Plan.ofSchema_of_rearranged`). With what holds of declarations and of checks,
the records of a schema have the same plan in every order, but for the order of its messages and
structs, which is that of the records (`Plan.rearranged_of_perm`).
-/

namespace WirePlan

namespace Schema.Rearranged

variable {s s' : Schema}

/-- Structs are found in whatever order they are declared. -/
theorem struct?_eq (h : s.Rearranged s') (hnodup : (s.structs.map (·.name)).Nodup) :
    s'.struct? = s.struct? :=
  funext fun name => find?_key_of_perm h.structs hnodup name

theorem embeds_eq (h : s.Rearranged s') : s'.Embeds = s.Embeds := by
  funext a b
  exact propext (exists_congr fun t => and_congr_left fun _ => h.structs.mem_iff.symm)

/-- What keeps a schema from being planned keeps it so in every order. -/
theorem blocked (h : s.Rearranged s') {error : SchemaError} (hblocked : s'.Blocked error) :
    s.Blocked error := by
  refine hblocked.imp (fun hrecursive => ?_) fun ⟨m, hm, hcycle⟩ => ?_
  · rwa [Recursive, h.embeds_eq] at hrecursive
  · exact ⟨m, h.messages.mem_iff.2 hm, hcycle⟩

end Schema.Rearranged

/-- The same plan with messages and structs in an order of their own. -/
structure Plan.Rearranged (p p' : Plan) : Prop where
  service : p.service = p'.service
  variant : p.variant = p'.variant
  client? : p.client? = p'.client?
  messageIds? : p.messageIds? = p'.messageIds?
  messages : p.messages.Perm p'.messages
  structs : p.structs.Perm p'.structs

/-- Messages and structs of the plan stand in the order of the records that declare them. -/
structure Plan.Follows (p : Plan) (records : List Json) : Prop where
  messages : p.messages.map (·.name) = Json.messageNames records
  structs : p.structs.map (·.name) = Json.structNames records

namespace Plan

variable {s s' : Schema} {plan plan' : Plan}

theorem metadata_ofSchema (h : ofSchema s = .ok plan) : plan.service = s.service ∧
    plan.variant = s.variant ∧ plan.client? = s.client? ∧ plan.messageIds? = s.messageIds? := by
  rw [ofSchema_eq] at h
  unfold ofSession at h
  split at h
  · cases h
    exact ⟨rfl, rfl, rfl, rfl⟩
  · cases h

/-- **Every struct has the same layout in every order of the schema.** -/
theorem struct?_of_rearranged (hsame : s.Rearranged s') (hchecked : s.Checked) (hlinked : s.Linked)
    (h : ofSchema s = .ok plan) (h' : ofSchema s' = .ok plan') : plan'.struct? = plan.struct? := by
  obtain ⟨hsound, -, -⟩ := laidOut_ofSchema h
  have hfound := hsame.struct?_eq hlinked.nodup
  funext name
  cases hlayout : plan.struct? name with
  | none =>
    refine Option.eq_none_iff_forall_ne_some.2 fun layout' hlayout' => ?_
    have hdeclared := (exists_struct?_iff h').1 ⟨layout', hlayout'⟩
    rw [← (hsame.structs.map _).mem_iff] at hdeclared
    obtain ⟨layout, hlayout''⟩ := (exists_struct?_iff h).2 hdeclared
    cases hlayout.symm.trans hlayout''
  | some layout =>
    have hmembers : ∀ t ∈ s.structs, True →
        ∃ t', s'.struct? t.name = some t' ∧ t'.members = t.members :=
      fun t ht _ => ⟨t, hfound ▸ Schema.struct?_of_mem hlinked.nodup ht, rfl⟩
    obtain ⟨t, ht, hlayout'⟩ := struct?_of_members hchecked hlinked h h'
      (fun _ _ _ _ => trivial) hmembers trivial hlayout
    obtain ⟨hname, ⟨u, hu, husage, -⟩, -⟩ := hsound name layout hlayout
    rw [hname, ← hfound, ht] at hu
    cases hu
    rw [hlayout', ← husage]

/-- **A schema has the same plan in every order**, rearranged. -/
theorem ofSchema_of_rearranged (hsame : s.Rearranged s') (hchecked : s.Checked)
    (hlinked : s.Linked) (hchecked' : s'.Checked) (hlinked' : s'.Linked)
    (h : ofSchema s = .ok plan) : ∃ plan', ofSchema s' = .ok plan' ∧ plan.Rearranged plan' := by
  cases h' : ofSchema s' with
  | error error =>
    rcases hsame.blocked (blocked_of_ofSchema hchecked' hlinked' h') with
      ⟨name, -, hrecursive⟩ | ⟨m, hm, c, hc, cycle, -, hcycle⟩
    · exact absurd hrecursive (acyclic_embeds hchecked hlinked h name)
    · exact absurd (acyclic_dependsOn hchecked hlinked h hm hc) hcycle.not_acyclic
  | ok plan' =>
    -- Both plans lay out the declared structs and messages one by one, by the same structs.
    obtain ⟨-, hstructs, hmessages⟩ := laidOut_ofSchema h
    obtain ⟨-, hstructs', hmessages'⟩ := laidOut_ofSchema h'
    have hfound := struct?_of_rearranged hsame hchecked hlinked h h'
    obtain ⟨hservice, hvariant, hclient, hmessageIds⟩ := metadata_ofSchema h
    obtain ⟨hservice', hvariant', hclient', hmessageIds'⟩ := metadata_ofSchema h'
    rw [hfound] at hstructs' hmessages'
    rw [← hsame.variant] at hmessages'
    obtain ⟨structs, hstructs'', hpermStructs⟩ := exists_forall₂_of_perm hsame.structs hstructs
    obtain ⟨messages, hmessages'', hpermMessages⟩ :=
      exists_forall₂_of_perm hsame.messages hmessages
    obtain rfl : structs = plan'.structs :=
      List.right_unique_forall₂' (fun _ _ _ hl hl' => Option.some.inj (hl.symm.trans hl'))
        hstructs'' hstructs'
    obtain rfl : messages = plan'.messages :=
      eq_of_forall₂ hmessages' hmessages'' fun _ _ _ _ hl hl' =>
        hl.unique hl' fun _ _ => .refl _ _
    refine ⟨plan', rfl, ?_, ?_, ?_, ?_, hpermMessages, hpermStructs⟩
    · rw [hservice, hservice', hsame.service]
    · rw [hvariant, hvariant', hsame.variant]
    · rw [hclient, hclient', hsame.client?]
    · rw [hmessageIds, hmessageIds', hsame.messageIds?]

end Plan

/-! ## Records -/

/-- The plan of a list of records. -/
def Plan.ofRecords (records : List Json) (options : Options) : Except SchemaError Plan := do
  let declarations ← Declarations.ofRecords records
  ofSchema (← Schema.ofExpanded (← declarations.expand) options)

/-- The plan of a source is that of its records. -/
theorem Plan.ofSource_eq_ofRecords {source : String} {records : List Json}
    (h : Source.records source = .ok records) (options : Options) :
    ofSource source options = ofRecords records options := by
  have hdeclared : Declarations.ofSource source = Declarations.ofRecords records := by
    rw [Declarations.ofSource, h]
    rfl
  rw [ofSource_eq, Schema.ofSource, hdeclared, ofRecords]
  simp only [bind_assoc]

namespace Plan

variable {records records' : List Json} {options : Options} {plan : Plan}

/-- Messages and structs stand in the order of the records that declare them. -/
theorem follows_ofRecords (h : ofRecords records options = .ok plan) : plan.Follows records := by
  obtain ⟨d, hd, h⟩ := bind_eq_ok.1 h
  obtain ⟨e, he, h⟩ := bind_eq_ok.1 h
  obtain ⟨s, hs, h⟩ := bind_eq_ok.1 h
  obtain ⟨hdeclaredMessages, hdeclaredStructs⟩ := Declarations.map_name_addItems hd
  obtain ⟨hexpandedMessages, hexpandedStructs⟩ := Declarations.map_name_expand he
  obtain ⟨hkeeps, -⟩ := Schema.linked_ofExpanded hs
  obtain ⟨hsound, hstructs, hmessages⟩ := laidOut_ofSchema h
  have hmessageNames : plan.messages.map (·.name) = s.messages.map (·.name) :=
    map_eq_of_forall₂ (hmessages.imp fun _ _ hm => hm.name_eq)
  have hstructNames : plan.structs.map (·.name) = s.structs.map (·.name) :=
    map_eq_of_forall₂ (hstructs.imp fun _ _ hl => (hsound _ _ hl).1)
  have htypedMessages : s.messages.map (·.name) = e.messages.map (·.name) :=
    map_eq_of_forall₂ (hkeeps.messages.imp fun _ _ hm => hm.1)
  have htypedStructs : s.structs.map (·.name) = e.structs.map (·.name) :=
    map_eq_of_forall₂ (hkeeps.structs.imp fun _ _ ht => ht.1)
  constructor
  · rw [hmessageNames, htypedMessages, hexpandedMessages, hdeclaredMessages]
    rfl
  · rw [hstructNames, htypedStructs, hexpandedStructs, hdeclaredStructs]
    rfl

/-- Records that have a plan have it in every order, rearranged. -/
theorem ofRecords_of_perm (hperm : records.Perm records')
    (h : ofRecords records options = .ok plan) :
    ∃ plan', ofRecords records' options = .ok plan' ∧ plan.Rearranged plan' := by
  obtain ⟨d, hd, h⟩ := bind_eq_ok.1 h
  obtain ⟨e, he, h⟩ := bind_eq_ok.1 h
  obtain ⟨s, hs, h⟩ := bind_eq_ok.1 h
  obtain ⟨d', hd', hsameDeclared⟩ := Declarations.addItems_of_perm hperm (.refl {}) hd 1
  obtain ⟨e', he', hsameExpanded⟩ := Declarations.expand_of_rearranged hsameDeclared he
  obtain ⟨s', hs', hsame⟩ := Schema.ofExpanded_of_rearranged hsameExpanded hs
  obtain ⟨plan', hplan', hrearranged⟩ := ofSchema_of_rearranged hsame
    (Schema.checked_ofExpanded hs).1 (Schema.linked_ofExpanded hs).2
    (Schema.checked_ofExpanded hs').1 (Schema.linked_ofExpanded hs').2 h
  exact ⟨plan', bind_eq_ok.2 ⟨d', hd', bind_eq_ok.2 ⟨e', he', bind_eq_ok.2 ⟨s', hs', hplan'⟩⟩⟩,
    hrearranged⟩

end Plan

/-- **The order of records does not matter.** Records that are rearranged have a plan, under the
same options, exactly if they have one as they were. The two plans have the same names, the same
messages and the same structs, their usage included; only the order of messages and structs is not
the same, and in each plan it is that of its records. The plan of a source is that of its records.
-/
theorem Plan.rearranged_of_perm {records records' : List Json} (hperm : records.Perm records')
    (options : Options) :
    ((∃ plan, ofRecords records options = .ok plan) ↔
      ∃ plan', ofRecords records' options = .ok plan') ∧
    (∀ plan plan', ofRecords records options = .ok plan → ofRecords records' options = .ok plan' →
      plan.Rearranged plan' ∧ plan.Follows records ∧ plan'.Follows records') ∧
    ∀ source, Source.records source = .ok records →
      ofSource source options = ofRecords records options := by
  refine ⟨⟨fun ⟨plan, h⟩ => ?_, fun ⟨plan', h'⟩ => ?_⟩, fun plan plan' h h' => ?_,
    fun source h => ofSource_eq_ofRecords h options⟩
  · obtain ⟨plan', h', -⟩ := ofRecords_of_perm hperm h
    exact ⟨plan', h'⟩
  · obtain ⟨plan, h, -⟩ := ofRecords_of_perm hperm.symm h'
    exact ⟨plan, h⟩
  · obtain ⟨plan'', h'', hrearranged⟩ := ofRecords_of_perm hperm h
    cases h''.symm.trans h'
    exact ⟨hrearranged, follows_ofRecords h, follows_ofRecords h'⟩

/-- A record with a type and a name. -/
def namedRecord (type name : String) (others : List (String × Json)) : Json :=
  .object ([("type", .string type), ("name", .string name)] ++ others)

/-- A field of a struct type. -/
def structField (name structType : String) : List (String × Json) :=
  [("name", .string name), ("format", .string "struct"), ("struct-type", .string structType)]

/-- Every record comes before those that it refers to. -/
def drawingRecords : List Json := [
  namedRecord "Message" "Draw" [("id", .number (.integer 1)),
    ("request", .array [.object [("common-ref", .string "outline")]])],
  .object ([("type", .string "CommonFragment-TLV"), ("common-ref", .string "outline")] ++
    structField "outline" "Segment"),
  namedRecord "Struct" "Segment" [("contents", .array [
    .object (structField "from" "Point"), .object (structField "to" "Point")])],
  namedRecord "Struct" "Point" [("contents", .array [
    .object [("name", .string "x"), ("format", .string "guint16")]])],
  namedRecord "Service" "S" []]

/-- The structs that they declare. -/
def drawingStructs : List StructLayout := [
  { name := "Segment"
    members := [
      { name := "from", format := .struct, structType? := some "Point", header := 0, offset := {}
        size := .fixed 2 },
      { name := "to", format := .struct, structType? := some "Point", header := 0
        offset := { constant := 2 }, size := .fixed 2 }]
    endOffset := { constant := 4 }
    size := .fixed 4
    usage := { embedded := true } },
  { name := "Point"
    members := [
      { name := "x", format := .int .u16, header := 0, offset := {}, size := .fixed 2 }]
    endOffset := { constant := 2 }
    size := .fixed 2
    usage := { embedded := true } }]

/-- Their plan, with these structs. -/
def drawingPlan (structs : List StructLayout) : Plan where
  service := "S"
  variant := .fixed
  messages := [⟨"Draw", "S", 1, [⟨.request, [
    { name := "outline", format := .struct, structType? := some "Segment"
      origin? := some "outline", header := 0, offset := {}, size := .fixed 4 }],
    { constant := 4 }⟩]⟩]
  structs := structs

/-- The records have their plan forwards and backwards. -/
theorem rearranged_drawing :
    Plan.ofRecords drawingRecords {} = .ok (drawingPlan drawingStructs) ∧
      Plan.ofRecords drawingRecords.reverse {} = .ok (drawingPlan drawingStructs.reverse) ∧
        (drawingPlan drawingStructs).Rearranged (drawingPlan drawingStructs.reverse) ∧
          (drawingPlan drawingStructs).Follows drawingRecords ∧
            (drawingPlan drawingStructs.reverse).Follows drawingRecords.reverse := by
  have hplan : Plan.ofRecords drawingRecords {} = .ok (drawingPlan drawingStructs) :=
    toOption_eq_some.1 (by decide +kernel)
  have hplan' : Plan.ofRecords drawingRecords.reverse {} =
      .ok (drawingPlan drawingStructs.reverse) := toOption_eq_some.1 (by decide +kernel)
  have hperm : drawingRecords.Perm drawingRecords.reverse := (List.reverse_perm _).symm
  exact ⟨hplan, hplan', (Plan.rearranged_of_perm hperm {}).2.1 _ _ hplan hplan'⟩

end WirePlan
