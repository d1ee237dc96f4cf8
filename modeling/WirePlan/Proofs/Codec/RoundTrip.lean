import WirePlan.Proofs.Codec.DecodeEncode
import WirePlan.Proofs.Plan.Source

/-!
# Encoding and decoding agree

Structs of a well-formed plan are read back at every depth (`inverts`), so the elements behind a
container stand, level by level (`allStand_of_encodeLevels`), and decoding a container gives what is
written of its values if the siblings seen decide what the values decide
(`decode_of_consistent`). A canonical dictionary is read back as it is
(`decode_encode_of_canonical`). Of other dictionaries the encoder looks at values that it does not
write, which the decoder cannot do: the two agree exactly on the consistent ones
(`decode_encode_iff_consistent`).
-/

namespace WirePlan.Codec

variable {c : Codec} {data : Array UInt8} {depth : Nat}

/-! ## Structs -/

/-- A well-placed list is read back from its start. -/
theorem decodeFields_of_wellPlaced (hinner : Inverts c data depth) {header : Nat}
    (hheader : header = 0 ∨ header = headerSize) {fields : List PlacedField} {endOffset : Offset}
    (hplaced : WellPlaced c.plan.struct? header fields endOffset) {values : Fields}
    (hconsistent : Consistent c.plan.struct? fields values) {base : Nat} {pieces : List Piece}
    {places : List Nat} {reach : Nat}
    (h : encodeFields c (encodeStruct c depth) depth values base endOffset base .nothing fields =
      .ok pieces)
    (hstand : AllStand c data (Piece.pointees pieces) places reach)
    (hheld : Held data base (Piece.fill c.order places pieces)) (cur : Cursor) :
    ∃ cur', decodeFields c data (decodeStruct c data depth) base endOffset [] .nothing cur fields =
        .ok (written c.plan.struct? fields values, Piece.size pieces, cur') ∧
      cur'.covered = max cur.covered (max (base + Piece.size pieces) reach) := by
  obtain ⟨size, cur', hcur', hsize, hcovered⟩ := decodeFields_of_encode hinner h hplaced.inOrder
    (fun f hf => (hplaced.placed.header_eq hf).symm ▸ hheader) (fun f hf => hplaced.counted hf)
    (fun f hf => decidedAlike_of_consistent hplaced.nodup hconsistent hf)
    (sorted_declaredFields values) (fun name v hv => .inr (mem_of_find?_written hv))
    (seenAs_nil _) hstand hheld cur
  obtain rfl : size = Piece.size pieces := by omega
  exact ⟨cur', hcur', hcovered⟩

/-- **Structs are read back.** The induction is on how deep structs nest. -/
theorem inverts (hplan : c.plan.WellFormed) (depth : Nat) : Inverts c data depth := by
  induction depth with
  | zero =>
    intro t layout values start pieces places reach _ h
    cases h
  | succ depth ih =>
    intro t layout values start pieces places reach ht h hstand hheld cur
    have hlayout := hplan.structs ht
    have hmembers := hlayout.members
    have hconsistent : Consistent c.plan.struct? layout.members values :=
      consistent_of_ungated hlayout.ungated hmembers.inOrder
        (fun f hf => hmembers.counted hf) values
    rw [← written_of_ungated hlayout.ungated values]
    exact decodeFields_of_wellPlaced ih (.inl rfl) hmembers hconsistent h hstand hheld cur

/-! ## The elements behind a container -/

/-- The elements of slots are of structs of the plan. -/
def OfPlan (c : Codec) (elements : List Pointee) : Prop :=
  ∀ p ∈ elements, ∃ t, c.plan.struct? t = some p.layout

theorem ofPlan_ofBytes (bytes : List UInt8) : OfPlan c (Piece.pointees (Piece.ofBytes bytes)) := by
  rw [Piece.pointees_ofBytes]
  exact fun _ hp => nomatch hp

theorem ofPlan_append {xs ys : List Piece} (hxs : OfPlan c (Piece.pointees xs))
    (hys : OfPlan c (Piece.pointees ys)) : OfPlan c (Piece.pointees (xs ++ ys)) := by
  rw [Piece.pointees_append]
  exact fun p hp => (List.mem_append.1 hp).elim (hxs p) (hys p)

section OfPlan

variable {inner : StructEncoder}
  (hinner : ∀ {layout : StructLayout} {values : Fields} {start : Nat} {pieces : List Piece},
    inner layout values start = .ok pieces → OfPlan c (Piece.pointees pieces))

include hinner

theorem ofPlan_encodeStructs {field : String} {layout : StructLayout} {start : Nat}
    {items : List Value} {pieces : List Piece}
    (h : encodeStructs inner field layout start items = .ok pieces) :
    OfPlan c (Piece.pointees pieces) := by
  induction items generalizing start pieces with
  | nil =>
    cases h
    exact fun _ hp => nomatch hp
  | cons item items ih =>
    unfold encodeStructs at h
    split at h
    · cases h
    · obtain ⟨first, hfirst, h⟩ := bind_eq_ok.1 h
      obtain ⟨others, hothers, h⟩ := bind_eq_ok.1 h
      cases pure_eq_ok.1 h
      exact ofPlan_append (hinner hfirst) (ih hothers)

theorem ofPlan_encodeItems {f : PlacedField} {start : Nat} {items : List Value}
    {pieces : List Piece} (h : encodeItems c inner depth f start items = .ok pieces) :
    OfPlan c (Piece.pointees pieces) := by
  unfold encodeItems at h
  split at h
  · obtain ⟨parts, -, h⟩ := bind_eq_ok.1 h
    cases pure_eq_ok.1 h
    exact ofPlan_ofBytes _
  · obtain ⟨layout, -, h⟩ := bind_eq_ok.1 h
    exact ofPlan_encodeStructs hinner h
  · obtain ⟨layout, hlayout, h⟩ := bind_eq_ok.1 h
    obtain ⟨t, -, ht⟩ := structOf_eq_ok.1 hlayout
    obtain ⟨structs, rfl, rfl⟩ := mapM_encodeSlot h
    rw [pointees_slots]
    intro p hp
    obtain ⟨values, -, rfl⟩ := List.mem_map.1 hp
    exact ⟨t, ht⟩

theorem ofPlan_encodeValue {f : PlacedField} {siblings : Fields} {start : Nat} {value : Value}
    {pieces : List Piece} (h : encodeValue c inner depth f siblings start value = .ok pieces) :
    OfPlan c (Piece.pointees pieces) := by
  unfold encodeValue at h
  split at h
  · obtain ⟨bytes, -, h⟩ := bind_eq_ok.1 h
    cases pure_eq_ok.1 h
    exact ofPlan_ofBytes _
  · split at h
    · split at h
      · cases h
      · obtain ⟨_, -, h⟩ := bind_eq_ok.1 h
        exact ofPlan_encodeItems hinner h
    · split at h
      · cases h
      · obtain ⟨layout, -, h⟩ := bind_eq_ok.1 h
        exact hinner h

theorem ofPlan_encodeFields {values : Fields} {base place : Nat} {endOffset : Offset}
    {known : Known} {fields : List PlacedField} {pieces : List Piece}
    (h : encodeFields c inner depth values base endOffset place known fields = .ok pieces) :
    OfPlan c (Piece.pointees pieces) := by
  induction fields generalizing place known pieces with
  | nil =>
    obtain ⟨-, rfl⟩ := encodeFields_nil_eq_ok.1 h
    exact fun _ hp => nomatch hp
  | cons f rest ih =>
    rcases encodeFields_cons_eq_ok.1 h with ⟨-, h⟩ | ⟨-, _, _, _, _, _, -, -, -, hpieces, -,
      hothers, rfl⟩
    · exact ih h
    · exact ofPlan_append (ofPlan_ofBytes _)
        (ofPlan_append (ofPlan_encodeValue hinner hpieces) (ih hothers))

end OfPlan

theorem ofPlan_encodeStruct {layout : StructLayout} {values : Fields} {start : Nat}
    {pieces : List Piece} (h : encodeStruct c depth layout values start = .ok pieces) :
    OfPlan c (Piece.pointees pieces) := by
  induction depth generalizing layout values start pieces with
  | zero => cases h
  | succ depth ih => exact ofPlan_encodeFields ih h

/-- Elements stand one behind the other where they were put, if those of their own slots stand. -/
theorem allStand_of_encodePointees (hplan : c.plan.WellFormed) {start : Nat} {ps : List Pointee}
    {places slots : List Nat} {pieces : List Piece} {reach : Nat}
    (h : encodePointees c start ps = .ok (places, pieces)) (hps : OfPlan c ps)
    (hstand : AllStand c data (Piece.pointees pieces) slots reach)
    (hheld : Held data start (Piece.fill c.order slots pieces)) :
    ∃ reach', AllStand c data ps places reach' ∧
      max start reach' = max (start + Piece.size pieces) reach := by
  induction ps generalizing start places slots pieces reach with
  | nil =>
    cases h
    obtain ⟨rfl, rfl⟩ := hstand.nil_inv
    exact ⟨0, .nil, rfl⟩
  | cons p ps ih =>
    unfold encodePointees at h
    split at h
    · next hslot =>
      obtain ⟨first, hfirst, h⟩ := bind_eq_ok.1 h
      obtain ⟨⟨places, others⟩, hothers, h⟩ := bind_eq_ok.1 h
      cases pure_eq_ok.1 h
      obtain ⟨t, ht⟩ := hps p (.head _)
      rw [Piece.pointees_append] at hstand
      obtain ⟨slots₁, slots₂, reach₁, reach₂, rfl, rfl, hstand₁, hstand₂⟩ := hstand.append_inv
      rw [Piece.fill_append _ _ hstand₁.length_eq, held_append, Piece.length_fill] at hheld
      obtain ⟨reach', hrest, hreach⟩ :=
        ih hothers (fun q hq => hps q (.tail _ hq)) hstand₂ hheld.2
      have hstands : Stands c data p start (max (start + Piece.size first) reach₁) :=
        fun cur => ⟨_, inverts hplan p.depth ht hfirst hstand₁ hheld.1 cur⟩
      refine ⟨_, .cons hslot hstands hrest, ?_⟩
      rw [Piece.size_append]
      omega
    · cases h

/-- Every element is put at a place, and the elements of its slots are of structs of the plan. -/
theorem ofPlan_encodePointees {start : Nat} {ps : List Pointee} {places : List Nat}
    {pieces : List Piece} (h : encodePointees c start ps = .ok (places, pieces)) :
    places.length = ps.length ∧ OfPlan c (Piece.pointees pieces) := by
  induction ps generalizing start places pieces with
  | nil =>
    cases h
    exact ⟨rfl, fun _ hp => nomatch hp⟩
  | cons p ps ih =>
    unfold encodePointees at h
    split at h
    · obtain ⟨first, hfirst, h⟩ := bind_eq_ok.1 h
      obtain ⟨⟨places, others⟩, hothers, h⟩ := bind_eq_ok.1 h
      cases pure_eq_ok.1 h
      obtain ⟨hlength, hrest⟩ := ih hothers
      exact ⟨congrArg (· + 1) hlength, ofPlan_append (ofPlan_encodeStruct hfirst) hrest⟩
    · cases h

/-- Elements stand level by level: the places found are those of the elements first, then those that
fill the slots behind. -/
theorem allStand_of_encodeLevels (hplan : c.plan.WellFormed) (data : Array UInt8)
    {levels start : Nat} {ps : List Pointee} {places : List Nat} {behind : List Piece}
    (h : encodeLevels c levels start ps = .ok (places, behind)) (hps : OfPlan c ps) :
    ∃ found deeper, places = found ++ deeper ∧ found.length = ps.length ∧
      (Held data start (Piece.fill c.order deeper behind) →
        ∃ reach, AllStand c data ps found reach ∧ max start reach = start + Piece.size behind) := by
  induction levels generalizing start ps places behind with
  | zero =>
    cases ps with
    | nil =>
      cases h
      exact ⟨[], [], rfl, rfl, fun _ => ⟨0, .nil, by simp [Piece.size]⟩⟩
    | cons p ps => cases h
  | succ levels ih =>
    cases ps with
    | nil =>
      cases h
      exact ⟨[], [], rfl, rfl, fun _ => ⟨0, .nil, by simp [Piece.size]⟩⟩
    | cons p ps =>
      obtain ⟨⟨found, pieces⟩, hfound, h⟩ := bind_eq_ok.1 h
      obtain ⟨⟨deeper, others⟩, hdeeper, h⟩ := bind_eq_ok.1 h
      cases pure_eq_ok.1 h
      obtain ⟨hlength, hpieces⟩ := ofPlan_encodePointees hfound
      obtain ⟨found', deeper', rfl, hlength', hstands⟩ := ih hdeeper hpieces
      refine ⟨found, found' ++ deeper', rfl, hlength, fun hheld => ?_⟩
      rw [Piece.fill_append _ _ hlength', held_append, Piece.length_fill] at hheld
      obtain ⟨reach, hstand, hreach⟩ := hstands hheld.2
      obtain ⟨reach', hstand', hreach'⟩ :=
        allStand_of_encodePointees hplan hfound hps hstand hheld.1
      refine ⟨reach', hstand', ?_⟩
      rw [hreach', hreach, Piece.size_append, Nat.add_assoc]

/-! ## Containers -/

/-- **A consistent dictionary is read back** as what is written of it, whatever follows. -/
theorem decode_of_consistent (hplan : c.plan.WellFormed) {m : MessageLayout}
    (hm : m ∈ c.plan.messages) {container : ContainerLayout} (hcontainer : container ∈ m.containers)
    {values : Fields} (hconsistent : Consistent c.plan.struct? container.fields values)
    {bytes : List UInt8} (h : c.encode container values = .ok bytes) (rest : List UInt8) :
    c.decode container (bytes ++ rest) =
      .ok (written c.plan.struct? container.fields values, bytes.length) := by
  obtain ⟨inline, hinline, h⟩ := bind_eq_ok.1 h
  obtain ⟨⟨places, behind⟩, hlevels, h⟩ := bind_eq_ok.1 h
  have hbytes : Piece.fill c.order places (inline ++ behind) = bytes := pure_eq_ok.1 h
  obtain ⟨found, deeper, rfl, hlength, hstands⟩ := allStand_of_encodeLevels hplan
    (bytes ++ rest).toArray hlevels (ofPlan_encodeFields ofPlan_encodeStruct hinline)
  have hsize : bytes.length = Piece.size inline + Piece.size behind := by
    rw [← hbytes, Piece.length_fill, Piece.size_append]
  have hparts : bytes =
      Piece.fill c.order found inline ++ Piece.fill c.order deeper behind := by
    rw [← hbytes, Piece.fill_append _ _ hlength]
  have hheld : Held (bytes ++ rest).toArray 0
      (Piece.fill c.order found inline ++ Piece.fill c.order deeper behind) :=
    ⟨Nat.zero_le _, rest, by rw [← hparts]; rfl⟩
  rw [held_append, Piece.length_fill, Nat.zero_add] at hheld
  obtain ⟨reach, hstand, hreach⟩ := hstands hheld.2
  obtain ⟨cur, hcur, hcovered⟩ := decodeFields_of_wellPlaced (inverts hplan c.nesting)
    (headerSize_eq _) (hplan.containers m hm container hcontainer) hconsistent hinline hstand
    hheld.1 {}
  refine bind_eq_ok.2 ⟨_, hcur, ?_⟩
  have hcover : max cur.covered (Piece.size inline) = bytes.length := by
    have : ({} : Cursor).covered = 0 := rfl
    omega
  rw [← hcover]
  rfl

/-- The encoder decides the presence of every field, and has a value for those on the wire. -/
theorem holds_of_encodeFields {inner : StructEncoder} {values : Fields} {base place : Nat}
    {endOffset : Offset} {known : Known} {fields : List PlacedField} {pieces : List Piece}
    (h : encodeFields c inner depth values base endOffset place known fields = .ok pieces) :
    ∀ f ∈ fields, ∃ holds, Prerequisite.allHold f.prerequisites values = .ok holds ∧
      (holds = true → (values.find? f.name).isSome) := by
  induction fields generalizing place known pieces with
  | nil => exact fun _ hf => nomatch hf
  | cons f rest ih =>
    rcases encodeFields_cons_eq_ok.1 h with ⟨habsent, h⟩ | ⟨hpresent, value, _, _, _, _, hvalue,
      -, -, -, -, hothers, -⟩
    · exact List.forall_mem_cons.2 ⟨⟨false, habsent, nofun⟩, ih h⟩
    · exact List.forall_mem_cons.2 ⟨⟨true, hpresent, fun _ => by rw [hvalue]; rfl⟩, ih hothers⟩

/-- What is read back is what is written of a consistent dictionary only. -/
theorem consistent_of_decode (hplan : c.plan.WellFormed) {m : MessageLayout}
    (hm : m ∈ c.plan.messages) {container : ContainerLayout} (hcontainer : container ∈ m.containers)
    {values : Fields} {bytes data : List UInt8} {covered : Nat}
    (h : c.encode container values = .ok bytes)
    (hdecode : c.decode container data =
      .ok (written c.plan.struct? container.fields values, covered)) :
    Consistent c.plan.struct? container.fields values := by
  have hplaced := hplan.containers m hm container hcontainer
  obtain ⟨inline, hinline, -⟩ := bind_eq_ok.1 h
  obtain ⟨⟨result, size, cur⟩, hread, hresult⟩ := bind_eq_ok.1 hdecode
  cases pure_eq_ok.1 hresult
  have hdecided := decided_of_decodeFields hread hplaced.inOrder
    (fun f hf => hplaced.counted hf) within_nil
  constructor
  · intro f hf
    obtain ⟨holds, hholds, hvalue⟩ := holds_of_encodeFields hinline f hf
    rw [(hdecided f hf).presence, hholds, find?_written hplaced.nodup hf,
      PlacedField.isOnWire_of_allHold hholds]
    cases holds with
    | false => rfl
    | true => simp [hvalue rfl]
  · intro f hf hwire harray
    obtain ⟨holds, hholds, hvalue⟩ := holds_of_encodeFields hinline f hf
    have hwritten : ((written c.plan.struct? container.fields values).find? f.name).isSome := by
      rw [PlacedField.isOnWire_of_allHold hholds] at hwire
      rw [find?_written hplaced.nodup hf, PlacedField.isOnWire_of_allHold hholds, hwire]
      simpa using hvalue hwire
    obtain ⟨n, hn⟩ := (hdecided f hf).count hwritten harray
    obtain ⟨type?, hentry⟩ := exists_declared_of_find?_written
      (isSome_of_countOf hn)
    exact countOf_declared hentry

end WirePlan.Codec

namespace WirePlan

/-- **Decoding inverts encoding.** In every plan of a source, under either byte order, the encoding
of a canonical dictionary is decoded to that dictionary, whatever bytes follow, and exactly the
bytes of the encoding are covered. -/
theorem decode_encode_of_canonical {source : String} {options : Options} {plan : Plan}
    (hplan : Plan.ofSource source options = .ok plan) {m : MessageLayout} (hm : m ∈ plan.messages)
    {container : ContainerLayout} (hcontainer : container ∈ m.containers) (order : ByteOrder)
    {values : Fields} (hcanonical : Canonical plan.struct? container.fields values)
    {bytes : List UInt8} (h : Codec.encode ⟨plan, order⟩ container values = .ok bytes)
    (rest : List UInt8) :
    Codec.decode ⟨plan, order⟩ container (bytes ++ rest) = .ok (values, bytes.length) := by
  have hwellFormed := Plan.wellFormed_ofSource hplan
  have hdecode := Codec.decode_of_consistent (c := ⟨plan, order⟩) hwellFormed hm hcontainer
    (consistent_of_canonical hcanonical) h rest
  rwa [written_of_canonical hcanonical] at hdecode

/-- A service with one container, in which each field is gated by the one before. -/
def chainSource : String :=
  "[\x7b\"type\": \"Service\", \"name\": \"S\"\x7d,
    \x7b\"type\": \"Message\", \"name\": \"M\", \"id\": 1, \"request\": [
      \x7b\"name\": \"a\", \"format\": \"guint8\"\x7d,
      \x7b\"name\": \"b\", \"format\": \"guint8\",
        \"prerequisites\": [
          \x7b\"field\": \"a\", \"operation\": \"==\", \"value\": \"1\"\x7d]\x7d,
      \x7b\"name\": \"c\", \"format\": \"guint8\",
        \"prerequisites\": [
          \x7b\"field\": \"b\", \"operation\": \"==\", \"value\": \"32\"\x7d]\x7d]\x7d]"

/-- Its container. -/
def chainContainer : ContainerLayout where
  kind := .request
  fields := [
    { name := "a", format := .int .u8, header := 0, offset := {}, size := .fixed 1 },
    { name := "b", format := .int .u8, prerequisites := [⟨"a", .eq, .int 1⟩]
      header := 0, offset := { constant := 1 }, size := .fixed 1 },
    { name := "c", format := .int .u8, prerequisites := [⟨"b", .eq, .int 32⟩]
      header := 0, offset := ⟨2, [.absence "b" 1]⟩, size := .fixed 1 }]
  endOffset := ⟨3, [.absence "b" 1, .absence "c" 1]⟩

/-- Its plan. -/
def chainPlan : Plan where
  service := "S"
  variant := .fixed
  messages := [⟨"M", "S", 1, [chainContainer]⟩]
  structs := []

set_option maxRecDepth 4096 in
theorem chainPlan_eq : Plan.ofSource chainSource {} = .ok chainPlan := by
  refine (Plan.ofSource_ofList _ {}).trans (toOption_eq_some.1 ?_)
  decide +kernel

/-- Values for its fields. -/
def chainValues (a b c : Nat) : Fields :=
  [("a", .ofNat .u8 a), ("b", .ofNat .u8 b), ("c", .ofNat .u8 c)]

theorem canonical_chain :
    Canonical chainPlan.struct? chainContainer.fields (chainValues 1 32 7) where
  sorted := (by decide : ["a", "b", "c"].Pairwise (· < ·))
  keys name := by
    have hall : ∀ f ∈ chainContainer.fields,
        Prerequisite.allHold f.prerequisites (chainValues 1 32 7) = .ok true := by
      have ha : Prerequisite.allHold [] (chainValues 1 32 7) = .ok true := rfl
      have hb : Prerequisite.allHold [⟨"a", .eq, .int 1⟩] (chainValues 1 32 7) = .ok true := rfl
      have hc : Prerequisite.allHold [⟨"b", .eq, .int 32⟩] (chainValues 1 32 7) = .ok true := rfl
      simp only [chainContainer, List.mem_cons, List.not_mem_nil, or_false]
      rintro f (rfl | rfl | rfl)
      · exact ha
      · exact hb
      · exact hc
    have hnames : Keyed.keys (chainValues 1 32 7) = chainContainer.fields.map (·.name) := rfl
    rw [hnames, List.mem_map]
    exact exists_congr fun f => and_congr_right fun hf => (and_iff_left (hall f hf)).symm
  exactFields := by simp [chainValues, ExactFields, Value.Exact, Value.ofNat]

/-- Where every condition holds, all three fields are read back. -/
theorem decode_encode_chain :
    Codec.encode ⟨chainPlan, .big⟩ chainContainer (chainValues 1 32 7) = .ok [1, 32, 7] ∧
      Codec.decode ⟨chainPlan, .big⟩ chainContainer [1, 32, 7, 9] = .ok (chainValues 1 32 7, 3) :=
  ⟨rfl, decode_encode_of_canonical chainPlan_eq (.head _) (.head _) .big canonical_chain rfl [9]⟩

/-- **Encoder and decoder agree on consistent dictionaries only.** Of a dictionary that the encoder
accepts, the decoder gives back what is written, and covers the bytes written, exactly if
prerequisites and counts come out the same of what is written as of the whole dictionary. -/
theorem decode_encode_iff_consistent {source : String} {options : Options} {plan : Plan}
    (hplan : Plan.ofSource source options = .ok plan) {m : MessageLayout} (hm : m ∈ plan.messages)
    {container : ContainerLayout} (hcontainer : container ∈ m.containers) (order : ByteOrder)
    {values : Fields} {bytes : List UInt8}
    (h : Codec.encode ⟨plan, order⟩ container values = .ok bytes) (rest : List UInt8) :
    Codec.decode ⟨plan, order⟩ container (bytes ++ rest) =
        .ok (written plan.struct? container.fields values, bytes.length) ↔
      Consistent plan.struct? container.fields values := by
  have hwellFormed := Plan.wellFormed_ofSource hplan
  constructor
  · exact Codec.consistent_of_decode (c := ⟨plan, order⟩) hwellFormed hm hcontainer h
  · intro hconsistent
    exact Codec.decode_of_consistent (c := ⟨plan, order⟩) hwellFormed hm hcontainer hconsistent h
      rest

/-- A value that is not written decides the presence of the last field for the encoder only. -/
theorem not_consistent_chain :
    Codec.encode ⟨chainPlan, .big⟩ chainContainer (chainValues 31 32 33) = .ok [31, 33] ∧
      ¬ Consistent chainPlan.struct? chainContainer.fields (chainValues 31 32 33) := by
  have hencode : Codec.encode ⟨chainPlan, .big⟩ chainContainer (chainValues 31 32 33) =
      .ok [31, 33] := rfl
  refine ⟨hencode, fun hconsistent => ?_⟩
  have hdecode := (decode_encode_iff_consistent chainPlan_eq (.head _) (.head _) .big hencode []).2
    hconsistent
  have hcovered : Codec.decode ⟨chainPlan, .big⟩ chainContainer [31, 33] =
      .ok ([("a", .ofNat .u8 31)], 1) := rfl
  rw [List.append_nil, hcovered] at hdecode
  cases hdecode

/-- The encoder writes two bytes, of which the decoder reads one: it is not so that what is encoded
is always decoded to what was written. -/
theorem not_forall_decode_encode :
    ¬ ∀ (source : String) (options : Options) (plan : Plan) (m : MessageLayout)
      (container : ContainerLayout) (order : ByteOrder) (values : Fields) (bytes : List UInt8),
      Plan.ofSource source options = .ok plan → m ∈ plan.messages → container ∈ m.containers →
      Codec.encode ⟨plan, order⟩ container values = .ok bytes →
      Codec.decode ⟨plan, order⟩ container bytes =
        .ok (written plan.struct? container.fields values, bytes.length) := by
  intro h
  have hdecode := h chainSource {} chainPlan _ chainContainer .big (chainValues 31 32 33) [31, 33]
    chainPlan_eq (.head _) (.head _) rfl
  have hcovered : Codec.decode ⟨chainPlan, .big⟩ chainContainer [31, 33] =
      .ok ([("a", .ofNat .u8 31)], 1) := rfl
  rw [hcovered] at hdecode
  cases hdecode

end WirePlan
