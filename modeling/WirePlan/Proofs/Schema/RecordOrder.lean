import WirePlan.Proofs.Outcome
import WirePlan.Schema.Reading

/-!
# What records declare does not depend on their order

A record declares the same wherever it stands (`Record.Declares`), and adding it to declarations
appends that, as long as it gives no name that is given already (`Declarations.add_eq_ok`). So two
records next to each other can change places, and by induction on the rearrangement the records of a
list declare the same in every order, but for the order of what they declare
(`Declarations.addItems_of_perm`). Messages and structs are declared in the order of their records
(`Declarations.map_name_addItems`).
-/

namespace WirePlan

namespace SchemaNames

variable {n m k : SchemaNames}

theorem ext_get? (h : ∀ kind, n.get? kind = m.get? kind) : n = m := by
  have hservice : n.service? = m.service? := h .service
  have hclient : n.client? = m.client? := h .client
  have hmessageIds : n.messageIds? = m.messageIds? := h .messageIds
  cases n
  cases m
  simp_all

/-- No kind of name is given by both. -/
def Apart (n m : SchemaNames) : Prop := ∀ kind, n.get? kind = none ∨ m.get? kind = none

/-- The names that one or the other gives. -/
def or (n m : SchemaNames) : SchemaNames where
  service? := n.service?.or m.service?
  client? := n.client?.or m.client?
  messageIds? := n.messageIds?.or m.messageIds?

@[simp] theorem get?_or (n m : SchemaNames) (kind : Metadata) :
    (n.or m).get? kind = (n.get? kind).or (m.get? kind) := by
  cases kind <;> rfl

theorem or_empty (n : SchemaNames) : n.or {} = n := by
  refine ext_get? fun kind => ?_
  rw [get?_or]
  cases kind <;> exact Option.or_none

theorem apart_empty (n : SchemaNames) : n.Apart {} := fun kind => .inr (by cases kind <;> rfl)

theorem apart_set {kind : Metadata} {name : String} :
    n.Apart (set {} kind name) ↔ n.get? kind = none := by
  constructor
  · intro h
    refine (h kind).resolve_right fun hnone => ?_
    cases kind <;> cases hnone
  · intro h other
    by_cases hother : other = kind
    · exact .inl (hother ▸ h)
    · refine .inr ?_
      cases kind <;> cases other <;> first | rfl | exact absurd rfl hother

theorem or_set {kind : Metadata} {name : String} (h : n.get? kind = none) :
    n.or (set {} kind name) = n.set kind name := by
  refine ext_get? fun other => ?_
  rw [get?_or]
  by_cases hother : other = kind
  · subst hother
    rw [h]
    cases other <;> rfl
  · have hnone : (set {} kind name).get? other = none := by
      cases kind <;> cases other <;> first | rfl | exact absurd rfl hother
    rw [hnone, Option.or_none]
    cases kind <;> cases other <;> first | rfl | exact absurd rfl hother

theorem apart_or : (n.or m).Apart k ↔ n.Apart k ∧ m.Apart k := by
  simp only [Apart, get?_or, Option.or_eq_none_iff, ← forall_and]
  exact forall_congr' fun kind => by tauto

theorem Apart.symm (h : n.Apart m) : m.Apart n := fun kind => (h kind).symm

/-- Names of different kinds can be given in either order. -/
theorem or_right_comm (h : m.Apart k) : (n.or m).or k = (n.or k).or m := by
  refine ext_get? fun kind => ?_
  simp only [get?_or, Option.or_assoc]
  rcases h kind with hnone | hnone <;> simp [hnone]

end SchemaNames

namespace Declarations

/-- The declarations with more behind them. -/
def append (d part : Declarations) : Declarations where
  names := d.names.or part.names
  messages := d.messages ++ part.messages
  structs := d.structs ++ part.structs
  fragments := d.fragments ++ part.fragments
  prerequisites := d.prerequisites ++ part.prerequisites

/-- The same declarations in an order of their own. -/
structure Rearranged (d d' : Declarations) : Prop where
  names : d.names = d'.names
  messages : d.messages.Perm d'.messages
  structs : d.structs.Perm d'.structs
  fragments : d.fragments.Perm d'.fragments
  prerequisites : d.prerequisites.Perm d'.prerequisites

namespace Rearranged

variable {d d' d'' part a b : Declarations}

theorem refl (d : Declarations) : d.Rearranged d :=
  ⟨rfl, .refl _, .refl _, .refl _, .refl _⟩

theorem trans (h : d.Rearranged d') (h' : d'.Rearranged d'') : d.Rearranged d'' where
  names := h.names.trans h'.names
  messages := h.messages.trans h'.messages
  structs := h.structs.trans h'.structs
  fragments := h.fragments.trans h'.fragments
  prerequisites := h.prerequisites.trans h'.prerequisites

theorem append (h : d.Rearranged d') (part : Declarations) :
    (d.append part).Rearranged (d'.append part) where
  names := congrArg (·.or part.names) h.names
  messages := h.messages.append_right _
  structs := h.structs.append_right _
  fragments := h.fragments.append_right _
  prerequisites := h.prerequisites.append_right _

/-- What stands behind the declarations can change places. -/
theorem swap (d : Declarations) (h : a.names.Apart b.names) :
    ((d.append a).append b).Rearranged ((d.append b).append a) := by
  have hlists : ∀ {α : Type} (xs ys zs : List α), (xs ++ ys ++ zs).Perm (xs ++ zs ++ ys) := by
    intro α xs ys zs
    rw [List.append_assoc, List.append_assoc]
    exact List.perm_append_comm.append_left xs
  exact ⟨SchemaNames.or_right_comm h, hlists .., hlists .., hlists .., hlists ..⟩

end Rearranged

end Declarations

/-! ## What a record declares -/

/-- What a record declares by itself, wherever it stands. -/
inductive Record.Declares : Record → Declarations → Prop where
  | metadata {kind : Metadata} {name : String} :
      Declares (.metadata kind name) { names := SchemaNames.set {} kind name }
  | message {name : String} {r : MessageRecord} {m : DeclaredMessage FieldUse}
      (hm : r.declared name = .ok m) : Declares (.message name r) { messages := [m] }
  | struct {name : String} {contents : List FieldRecord} {members : List FieldUse}
      (hmembers : contents.mapM (fun f => f.use (.struct name)) = .ok members) :
      Declares (.struct name contents) { structs := [⟨name, members⟩] }
  | fragment {r : FieldRecord} {name : String} {f : DeclaredField PrerequisiteUse}
      (hname : r.commonRef? = some name) (hf : r.declared (.fragment name) = .ok f) :
      Declares (.fragment r) { fragments := [⟨name, f⟩] }
  | sharedPrerequisite {r : PrerequisiteRecord} {name : String} {p : Prerequisite}
      (hname : r.commonRef? = some name) (hp : r.declared (.sharedPrerequisite name) = .ok p) :
      Declares (.sharedPrerequisite r) { prerequisites := [⟨name, p⟩] }

theorem Place.require_eq_ok {α : Type} {place : Place} {fault : RecordFault} {a? : Option α}
    {a : α} : place.require fault a? = .ok a ↔ a? = some a := by
  cases a? <;> simp [require]

namespace Declarations

variable {d e : Declarations} {place : Place} {r : Record}

/-- **Adding a record appends what it declares**, if that gives no name again. -/
theorem add_eq_ok : d.add place r = .ok e ↔
    ∃ part, r.Declares part ∧ d.names.Apart part.names ∧ d.append part = e := by
  have hplain : ∀ part : Declarations, part.names = {} → d.names.Apart part.names := by
    intro part hnames
    rw [hnames]
    exact d.names.apart_empty
  have hnames : d.names.or {} = d.names := d.names.or_empty
  cases r with
  | metadata kind name =>
    dsimp only [add]
    constructor
    · intro h
      split at h
      · next hnone =>
        cases h
        refine ⟨_, .metadata, SchemaNames.apart_set.2 hnone, ?_⟩
        simp [append, SchemaNames.or_set hnone]
      · cases h
    · rintro ⟨_, ⟨⟩, hapart, rfl⟩
      have hnone := SchemaNames.apart_set.1 hapart
      rw [hnone]
      simp [append, SchemaNames.or_set hnone]
  | message name r =>
    dsimp only [add]
    rw [bind_eq_ok]
    constructor
    · rintro ⟨m, hm, h⟩
      cases pure_eq_ok.1 h
      exact ⟨_, .message hm, hplain _ rfl, by simp [append, hnames]⟩
    · rintro ⟨_, hpart, -, rfl⟩
      cases hpart with
      | message hm => exact ⟨_, hm, pure_eq_ok.2 (by simp [append, hnames])⟩
  | struct name contents =>
    dsimp only [add]
    rw [bind_eq_ok]
    constructor
    · rintro ⟨members, hmembers, h⟩
      cases pure_eq_ok.1 h
      exact ⟨_, .struct hmembers, hplain _ rfl, by simp [append, hnames]⟩
    · rintro ⟨_, hpart, -, rfl⟩
      cases hpart with
      | struct hmembers => exact ⟨_, hmembers, pure_eq_ok.2 (by simp [append, hnames])⟩
  | fragment r =>
    dsimp only [add]
    simp only [bind_eq_ok, Place.require_eq_ok]
    constructor
    · rintro ⟨name, hname, f, hf, h⟩
      cases pure_eq_ok.1 h
      exact ⟨_, .fragment hname hf, hplain _ rfl, by simp [append, hnames]⟩
    · rintro ⟨_, hpart, -, rfl⟩
      cases hpart with
      | fragment hname hf => exact ⟨_, hname, _, hf, pure_eq_ok.2 (by simp [append, hnames])⟩
  | sharedPrerequisite r =>
    dsimp only [add]
    simp only [bind_eq_ok, Place.require_eq_ok]
    constructor
    · rintro ⟨name, hname, p, hp, h⟩
      cases pure_eq_ok.1 h
      exact ⟨_, .sharedPrerequisite hname hp, hplain _ rfl, by simp [append, hnames]⟩
    · rintro ⟨_, hpart, -, rfl⟩
      cases hpart with
      | sharedPrerequisite hname hp =>
        exact ⟨_, hname, _, hp, pure_eq_ok.2 (by simp [append, hnames])⟩
  | unknown type =>
    constructor
    · intro h
      cases h
    · rintro ⟨_, ⟨⟩, -⟩

/-- The first item of a list is appended, and then the others. -/
theorem addItems_cons_eq_ok {number : Nat} {item : Json} {items : List Json} :
    d.addItems number (item :: items) = .ok e ↔ ∃ r part, Record.ofJson item = .ok r ∧
      r.Declares part ∧ d.names.Apart part.names ∧
        (d.append part).addItems (number + 1) items = .ok e := by
  rw [addItems]
  cases Record.ofJson item with
  | error fault => simp
  | ok r =>
    dsimp only
    rw [bind_eq_ok]
    constructor
    · rintro ⟨d', hadd, h⟩
      obtain ⟨part, hpart, hapart, rfl⟩ := add_eq_ok.1 hadd
      exact ⟨r, part, rfl, hpart, hapart, h⟩
    · rintro ⟨_, part, ⟨⟩, hpart, hapart, h⟩
      exact ⟨_, add_eq_ok.2 ⟨part, hpart, hapart, rfl⟩, h⟩

/-- Items add the same to rearranged declarations, wherever they stand. -/
theorem addItems_of_rearranged {items : List Json} {d d' e : Declarations} {number : Nat}
    (hd : d.Rearranged d') (h : d.addItems number items = .ok e) (number' : Nat) :
    ∃ e', d'.addItems number' items = .ok e' ∧ e.Rearranged e' := by
  induction items generalizing d d' number number' with
  | nil =>
    cases h
    exact ⟨d', rfl, hd⟩
  | cons item items ih =>
    obtain ⟨r, part, hr, hpart, hapart, h⟩ := addItems_cons_eq_ok.1 h
    obtain ⟨e', he', hsame⟩ := ih (hd.append part) h (number' + 1)
    exact ⟨e', addItems_cons_eq_ok.2 ⟨r, part, hr, hpart, hd.names ▸ hapart, he'⟩, hsame⟩

/-- **Records declare the same in every order**, but for the order of what they declare. The
induction is on the rearrangement; where two records change places, what they declare gives no name
twice, so it can change places too. -/
theorem addItems_of_perm {items items' : List Json} (hperm : items.Perm items')
    {d d' e : Declarations} {number : Nat} (hd : d.Rearranged d')
    (h : d.addItems number items = .ok e) (number' : Nat) :
    ∃ e', d'.addItems number' items' = .ok e' ∧ e.Rearranged e' := by
  induction hperm generalizing d d' e number number' with
  | nil =>
    cases h
    exact ⟨d', rfl, hd⟩
  | cons item _ ih =>
    obtain ⟨r, part, hr, hpart, hapart, h⟩ := addItems_cons_eq_ok.1 h
    obtain ⟨e', he', hsame⟩ := ih (hd.append part) h (number' + 1)
    exact ⟨e', addItems_cons_eq_ok.2 ⟨r, part, hr, hpart, hd.names ▸ hapart, he'⟩, hsame⟩
  | swap first second rest =>
    obtain ⟨r, a, hr, ha, hapart, h⟩ := addItems_cons_eq_ok.1 h
    obtain ⟨s, b, hs, hb, hapart', h⟩ := addItems_cons_eq_ok.1 h
    -- The second record is apart from what stood before and from the first one.
    obtain ⟨hdb, hab⟩ := SchemaNames.apart_or.1 hapart'
    have hstart : ((d.append a).append b).Rearranged ((d'.append b).append a) :=
      ((hd.append a).append b).trans (.swap d' hab)
    obtain ⟨e', he', hsame⟩ := addItems_of_rearranged hstart h (number' + 1 + 1)
    have hapart'' : (d'.append b).names.Apart a.names :=
      SchemaNames.apart_or.2 ⟨hd.names ▸ hapart, hab.symm⟩
    refine ⟨e', addItems_cons_eq_ok.2 ⟨s, b, hs, hb, hd.names ▸ hdb, ?_⟩, hsame⟩
    exact addItems_cons_eq_ok.2 ⟨r, a, hr, ha, hapart'', he'⟩
  | trans _ _ ih ih' =>
    obtain ⟨e₁, he₁, hsame₁⟩ := ih (.refl d) h number
    obtain ⟨e₂, he₂, hsame₂⟩ := ih' hd he₁ number'
    exact ⟨e₂, he₂, hsame₁.trans hsame₂⟩

end Declarations

/-! ## The order of what is declared -/

/-- The name of the message that a record declares, if it does. -/
def Record.messageName? : Record → Option String
  | .message name _ => some name
  | _ => none

/-- The name of the struct that a record declares, if it does. -/
def Record.structName? : Record → Option String
  | .struct name _ => some name
  | _ => none

/-- The names of the messages that records declare, in their order. -/
def Json.messageNames (items : List Json) : List String :=
  items.filterMap fun item => (Record.ofJson item).toOption.bind Record.messageName?

/-- The names of the structs that records declare, in their order. -/
def Json.structNames (items : List Json) : List String :=
  items.filterMap fun item => (Record.ofJson item).toOption.bind Record.structName?

theorem MessageRecord.name_declared {r : MessageRecord} {name : String}
    {m : DeclaredMessage FieldUse} (h : r.declared name = .ok m) : m.name = name := by
  unfold declared at h
  dsimp only at h
  obtain ⟨text, -, h⟩ := bind_eq_ok.1 h
  obtain ⟨n, -, h⟩ := bind_eq_ok.1 h
  split at h
  · obtain ⟨containers, -, h⟩ := bind_eq_ok.1 h
    cases pure_eq_ok.1 h
    rfl
  · cases h

/-- What a record declares is under the record's name. -/
theorem Record.Declares.map_name {r : Record} {part : Declarations} (h : r.Declares part) :
    part.messages.map (·.name) = r.messageName?.toList ∧
      part.structs.map (·.name) = r.structName?.toList := by
  cases h with
  | metadata | fragment _ _ | sharedPrerequisite _ _ | struct _ => exact ⟨rfl, rfl⟩
  | message hm => exact ⟨congrArg (fun name => [name]) (MessageRecord.name_declared hm), rfl⟩

/-- **Messages and structs are declared in the order of their records.** -/
theorem Declarations.map_name_addItems {items : List Json} {d e : Declarations} {number : Nat}
    (h : d.addItems number items = .ok e) :
    e.messages.map (·.name) = d.messages.map (·.name) ++ Json.messageNames items ∧
      e.structs.map (·.name) = d.structs.map (·.name) ++ Json.structNames items := by
  induction items generalizing d number with
  | nil =>
    cases h
    exact ⟨(List.append_nil _).symm, (List.append_nil _).symm⟩
  | cons item items ih =>
    obtain ⟨r, part, hr, hpart, -, h⟩ := addItems_cons_eq_ok.1 h
    obtain ⟨hmessages, hstructs⟩ := ih h
    obtain ⟨hmessage, hstruct⟩ := hpart.map_name
    rw [hmessages, hstructs]
    simp [append, Json.messageNames, Json.structNames, hr, hmessage, hstruct, Except.toOption,
      List.filterMap_eq_flatMap_toList]

end WirePlan
