import WirePlan.Proofs.Layout.Unique
import WirePlan.Proofs.Plan.Cycles

/-!
# A schema is planned in one way

Containers and messages are laid out in one way each, as structs and lists of fields are
(`LaidOut.unique`): by the sizes of the structs that their fields are made of, and not by where
these sizes come from. Structs are made of structs in turn, but embedding is well-founded where
there is a plan. So two plans, of one schema or of two, have the same layouts for structs that have
the same members in both (`Plan.struct?_of_members`).
-/

namespace WirePlan

variable {structs structs' : StructLayouts}

/-- A container is laid out in one way. -/
theorem ContainerLaidOut.unique {variant : Variant} {message : String} {declared : Container}
    {layout layout' : ContainerLayout}
    (h : ContainerLaidOut structs variant message declared layout)
    (h' : ContainerLaidOut structs' variant message declared layout')
    (hsame : structs.SameSizes structs' declared.fields) : layout' = layout := by
  obtain ⟨hfields, hend⟩ := h.fields.unique h'.fields hsame
  have hkind : layout'.kind = layout.kind := h'.kind_eq.trans h.kind_eq.symm
  cases layout
  cases layout'
  simp_all

/-- A message is laid out in one way. -/
theorem MessageLaidOut.unique {variant : Variant} {declared : Message}
    {layout layout' : MessageLayout} (h : MessageLaidOut structs variant declared layout)
    (h' : MessageLaidOut structs' variant declared layout')
    (hsame : ∀ c ∈ declared.containers, structs.SameSizes structs' c.fields) :
    layout' = layout := by
  have hname : layout'.name = layout.name := h'.name_eq.trans h.name_eq.symm
  have hservice : layout'.service = layout.service := h'.service_eq.trans h.service_eq.symm
  have hid : layout'.id = layout.id := h'.id_eq.trans h.id_eq.symm
  have hcontainers : layout'.containers = layout.containers :=
    eq_of_forall₂ h.containers h'.containers fun c hc _ _ hl hl' => hl.unique hl' (hsame c hc)
  cases layout
  cases layout'
  simp_all

namespace Plan

variable {s : Schema} {plan : Plan}

/-- The plan has a layout for the declared structs. -/
theorem exists_struct?_iff (h : ofSchema s = .ok plan) {name : String} :
    (∃ layout, plan.struct? name = some layout) ↔ name ∈ s.structs.map (·.name) := by
  obtain ⟨hsound, hstructs, -⟩ := laidOut_ofSchema h
  constructor
  · rintro ⟨layout, hlayout⟩
    obtain ⟨hname, ⟨t, ht, -⟩, -⟩ := hsound name layout hlayout
    have htname : t.name = layout.name := by simpa using List.find?_some ht
    exact hname ▸ htname ▸ List.mem_map_of_mem (List.mem_of_find?_eq_some ht)
  · intro hname
    obtain ⟨t, ht, rfl⟩ := List.mem_map.1 hname
    obtain ⟨layout, -, hlayout⟩ := exists_of_mem_left hstructs ht
    exact ⟨layout, hlayout⟩

/-- **Structs that have the same members in two schemas have the same layout**, but for their usage,
if the structs that they embed have the same members too. The induction is on the structs that a
struct embeds, which come before it in both sessions, whatever else does. -/
theorem struct?_of_members {s' : Schema} {plan' : Plan} (hchecked : s.Checked)
    (hlinked : s.Linked) (h : ofSchema s = .ok plan) (h' : ofSchema s' = .ok plan')
    {within : String → Prop} (hwithin : ∀ a b, within a → s.Embeds a b → within b)
    (hmembers : ∀ t ∈ s.structs, within t.name →
      ∃ t', s'.struct? t.name = some t' ∧ t'.members = t.members)
    {name : String} (hname : within name) {layout : StructLayout}
    (hlayout : plan.struct? name = some layout) :
    ∃ t', s'.struct? name = some t' ∧
      plan'.struct? name = some { layout with usage := t'.usage } := by
  obtain ⟨hsound, -, -⟩ := laidOut_ofSchema h
  obtain ⟨hsound', -, -⟩ := laidOut_ofSchema h'
  induction name using (wellFounded_embeds hchecked hlinked h).induction generalizing layout with
  | _ name ih =>
    obtain ⟨hlayoutName, hlaid⟩ := hsound name layout hlayout
    obtain ⟨t, ht, -⟩ := hlaid.declared
    have htname : t.name = name := hlayoutName ▸ by simpa using List.find?_some ht
    have htmem : t ∈ s.structs := List.mem_of_find?_eq_some ht
    obtain ⟨t', ht', hsame⟩ := hmembers t htmem (htname ▸ hname)
    rw [htname] at ht'
    have hfound' : name ∈ s'.structs.map (·.name) :=
      List.mem_map.2 ⟨t', List.mem_of_find?_eq_some ht', by simpa using List.find?_some ht'⟩
    obtain ⟨layout', hlayout'⟩ := (exists_struct?_iff h').2 hfound'
    obtain ⟨hlayoutName', hlaid'⟩ := hsound' name layout' hlayout'
    have hsizes : StructLayouts.SameSizes plan.struct? plan'.struct? t.members := by
      intro f hf b hb
      have hembeds : s.Embeds name b := ⟨t, htmem, htname, f, hf, hb⟩
      obtain ⟨embedded, hembedded⟩ := (exists_struct?_iff h).2
        ((hlinked.members t htmem f hf).mem_of_structType hb)
      obtain ⟨_, -, hembedded'⟩ := ih b hembeds (hwithin name b hname hembeds) hembedded
      rw [hembedded, hembedded']
      rfl
    refine ⟨t', ht', hlayout'.trans (congrArg some ?_)⟩
    exact hlaid.unique hlaid' (hlayoutName'.trans hlayoutName.symm) ht (hlayoutName' ▸ ht') hsame
      hsizes

end Plan

end WirePlan
