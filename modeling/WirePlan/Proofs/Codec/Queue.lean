import WirePlan.Proofs.Codec.Inline
import WirePlan.Proofs.Codec.Pieces
import WirePlan.Proofs.Plan.Source

/-!
# Elements behind a container, one turn at a time

The elements of indirect arrays can be put behind a container by a queue (`Codec.Turn`): the slot
that has waited longest leaves it, the place just past all bytes is patched into the slot, the
element is written there with its own slots still empty, and these join the queue. The encoder goes
level by level and fills all slots in the end. Both come to the same bytes.

One turn keeps the bytes what they would be if all slots found so far were filled in one pass
(`Placed.turn`), as the slot that leaves the queue is the first one not filled
(`Piece.fill_concat`); so a whole run does (`Placed.run`). In turn every level of the encoder is a
run that takes one slot of the queue after the other and leaves those of the next level
(`run_of_encodePointees`, `run_of_encodeLevels`). What a finished run has placed stands without a
gap from the end of the inline bytes to the end of all bytes (`Tiles`), each element where its slot
says.
-/

namespace WirePlan

/-! ## Slots and patches -/

namespace Piece

/-- The places of the slots of pieces that stand from a place on, with their elements. -/
def slots : (start : Nat) → List Piece → List (Nat × Pointee)
  | _, [] => []
  | start, .byte _ :: rest => slots (start + 1) rest
  | start, .slot p :: rest => (start, p) :: slots (start + Format.slotSize) rest

theorem slots_append (start : Nat) (xs ys : List Piece) :
    slots start (xs ++ ys) = slots start xs ++ slots (start + size xs) ys := by
  induction xs generalizing start with
  | nil => rfl
  | cons x xs ih => cases x <;> simp [slots, size, ih, Nat.add_assoc]

@[simp] theorem map_slots (start : Nat) (pieces : List Piece) :
    (slots start pieces).map (·.2) = pointees pieces := by
  induction pieces generalizing start with
  | nil => rfl
  | cons x xs ih => cases x <;> simp [slots, pointees, ih]

/-- A slot stands where its pieces do. -/
theorem le_of_mem_slots {start : Nat} {pieces : List Piece} {s : Nat × Pointee}
    (h : s ∈ slots start pieces) : start ≤ s.1 := by
  induction pieces generalizing start with
  | nil => cases h
  | cons x xs ih =>
    cases x with
    | byte b => exact Nat.le_of_succ_le (ih h)
    | slot p =>
      rcases List.mem_cons.1 h with rfl | h
      · exact Nat.le_refl start
      · have := ih h
        omega

end Piece

/-- The bytes with others in place of those from a place on; there are as many bytes as before. -/
def patch : (bytes : List UInt8) → (place : Nat) → (others : List UInt8) → List UInt8
  | b :: bytes, place + 1, others => b :: patch bytes place others
  | _ :: bytes, 0, o :: others => o :: patch bytes 0 others
  | bytes, _, _ => bytes

section Patch

variable (bytes : List UInt8) (place : Nat) (others : List UInt8)

@[simp] theorem length_patch : (patch bytes place others).length = bytes.length := by
  fun_induction patch bytes place others with
  | case1 b bytes place others ih => simp [ih]
  | case2 b bytes o others ih => simp [ih]
  | case3 => rfl

/-- **A patch changes no byte outside the bytes that it puts in.** -/
theorem getElem?_patch {i : Nat} (h : i < place ∨ place + others.length ≤ i) :
    (patch bytes place others)[i]? = bytes[i]? := by
  fun_induction patch bytes place others generalizing i with
  | case1 b bytes place others ih =>
    cases i with
    | zero => rfl
    | succ i =>
      rw [List.getElem?_cons_succ, List.getElem?_cons_succ]
      exact ih (by omega)
  | case2 b bytes o others ih =>
    rw [List.length_cons] at h
    cases i with
    | zero => omega
    | succ i =>
      rw [List.getElem?_cons_succ, List.getElem?_cons_succ]
      exact ih (by omega)
  | case3 => rfl

theorem patch_append (before : List UInt8) :
    patch (before ++ bytes) (before.length + place) others =
      before ++ patch bytes place others := by
  induction before with
  | nil => rw [List.nil_append, List.length_nil, Nat.zero_add, List.nil_append]
  | cons b before ih =>
    rw [List.cons_append, List.length_cons, Nat.add_right_comm, patch, ih, List.cons_append]

theorem patch_same {old : List UInt8} (h : old.length = others.length) :
    patch (old ++ bytes) 0 others = others ++ bytes := by
  induction others generalizing old with
  | nil =>
    rw [List.length_eq_zero_iff.1 h]
    cases bytes <;> rfl
  | cons o others ih =>
    cases old with
    | nil => cases h
    | cons b old =>
      rw [List.cons_append, patch, ih (Nat.succ.inj h), List.cons_append]

end Patch

namespace Piece

variable (order : ByteOrder)

/-- Slots for which there are no places left stay empty. -/
theorem fill_append_of_le {places : List Nat} {xs : List Piece}
    (h : places.length ≤ (pointees xs).length) (ys : List Piece) :
    fill order places (xs ++ ys) = fill order places xs ++ fill order [] ys := by
  induction xs generalizing places with
  | nil =>
    rw [List.length_eq_zero_iff.1 (Nat.le_zero.1 h)]
    rfl
  | cons x xs ih =>
    cases x with
    | byte b => simp [fill, ih h]
    | slot p =>
      cases places with
      | nil =>
        have hnone : ([] : List Nat).length ≤ (pointees xs).length := Nat.zero_le _
        simp [fill, ih hnone]
      | cons place places =>
        have hrest : places.length ≤ (pointees xs).length := Nat.le_of_succ_le_succ h
        simp [fill, ih hrest]

/-- **One place more patches the first slot that is not filled.** -/
theorem fill_concat {start offset : Nat} {pieces : List Piece} {done more : List (Nat × Pointee)}
    {p : Pointee} (h : slots start pieces = done ++ (start + offset, p) :: more)
    {places : List Nat} (hplaces : places.length = done.length) (place : Nat) :
    fill order (places ++ [place]) pieces =
      patch (fill order places pieces) offset (order.bytes Format.slotSize place) := by
  induction pieces generalizing start offset done places with
  | nil => simp [slots] at h
  | cons x rest ih =>
    cases x with
    | byte b =>
      rw [slots] at h
      have hmem : (start + offset, p) ∈ slots (start + 1) rest := by
        rw [h]
        simp
      have hle : start + 1 ≤ start + offset := le_of_mem_slots hmem
      obtain ⟨offset, rfl⟩ : ∃ n, offset = n + 1 := ⟨offset - 1, by omega⟩
      rw [show start + (offset + 1) = start + 1 + offset by omega] at h
      rw [fill, fill, patch, ih h hplaces]
    | slot q =>
      rw [slots] at h
      cases done with
      | nil =>
        -- No slot before this one: the place goes into it, over the zeros.
        obtain ⟨hfirst, -⟩ := List.cons.inj h
        obtain rfl : offset = 0 := by
          have := (Prod.mk.inj hfirst).1
          omega
        obtain rfl : places = [] := List.length_eq_zero_iff.1 hplaces
        rw [List.nil_append, fill, fill, patch_same]
        rw [order.length_bytes, order.length_bytes]
      | cons d done =>
        cases places with
        | nil => cases hplaces
        | cons first places =>
          obtain ⟨-, hrest⟩ := List.cons.inj h
          have hmem : (start + offset, p) ∈ slots (start + Format.slotSize) rest := by
            rw [hrest]
            simp
          have hle : start + Format.slotSize ≤ start + offset := le_of_mem_slots hmem
          obtain ⟨offset, rfl⟩ : ∃ n, offset = Format.slotSize + n :=
            ⟨offset - Format.slotSize, by omega⟩
          rw [← Nat.add_assoc] at hrest
          have hpatch := patch_append (fill order places rest) offset
            (order.bytes Format.slotSize place) (order.bytes Format.slotSize first)
          rw [order.length_bytes] at hpatch
          rw [List.cons_append, fill, fill, hpatch, ih hrest (Nat.succ.inj hplaces)]

/-- The places that slots were filled with stand in them. -/
theorem held_of_fill {data : Array UInt8} {start : Nat} {pieces : List Piece} {places : List Nat}
    (hplaces : places.length = (pointees pieces).length)
    (h : Held data start (fill order places pieces)) :
    List.Forall₂ (fun slot place => Held data slot.1 (order.bytes Format.slotSize place))
      (slots start pieces) places := by
  induction pieces generalizing start places with
  | nil =>
    rw [List.length_eq_zero_iff.1 hplaces]
    exact .nil
  | cons x rest ih =>
    cases x with
    | byte b =>
      rw [fill] at h
      have hparts : Held data start [b] ∧ Held data (start + 1) (fill order places rest) :=
        held_append.1 h
      exact ih hplaces hparts.2
    | slot p =>
      cases places with
      | nil => cases hplaces
      | cons place places =>
        obtain ⟨hfirst, hrest⟩ := held_append.1 h
        rw [order.length_bytes] at hrest
        exact .cons hfirst (ih (Nat.succ.inj hplaces) hrest)

end Piece

/-! ## The queue -/

/-- The bytes written so far, and the slots that wait for their element. -/
structure Output where
  bytes : List UInt8
  waiting : List (Nat × Pointee)

/-- An element that was put behind a container. -/
structure Placement where
  /-- The place of its slot. -/
  slot : Nat
  element : Pointee
  /-- The place of the element, counted from the start of the container. -/
  start : Nat
  /-- Its encoding. -/
  pieces : List Piece

/-- The place just past the element. -/
def Placement.stop (p : Placement) : Nat := p.start + Piece.size p.pieces

/-- Elements stand one behind the other from one place to another. -/
def Tiles : (start : Nat) → List Placement → (stop : Nat) → Prop
  | start, [], stop => start = stop
  | start, p :: rest, stop => p.start = start ∧ Tiles p.stop rest stop

namespace Tiles

variable {start stop : Nat} {tail : List Placement}

theorem concat (h : Tiles start tail stop) {p : Placement} (hp : p.start = stop) :
    Tiles start (tail ++ [p]) p.stop := by
  induction tail generalizing start with
  | nil =>
    have hstart : start = stop := h
    exact ⟨hp.trans hstart.symm, rfl⟩
  | cons q rest ih => exact ⟨h.1, ih h.2⟩

theorem start_le (h : Tiles start tail stop) {p : Placement} (hp : p ∈ tail) :
    start ≤ p.start := by
  induction tail generalizing start with
  | nil => cases hp
  | cons q rest ih =>
    obtain ⟨rfl, hrest⟩ := h
    rcases List.mem_cons.1 hp with rfl | hp
    · exact Nat.le_refl _
    · exact (Nat.le_add_right _ _).trans (ih hrest hp)

/-- No two elements have a byte in common. -/
theorem disjoint (h : Tiles start tail stop) : tail.Pairwise fun p q => p.stop ≤ q.start := by
  induction tail generalizing start with
  | nil => exact .nil
  | cons p rest ih => exact .cons (fun q hq => start_le h.2 hq) (ih h.2)

/-- Every byte belongs to an element. -/
theorem exists_of_between (h : Tiles start tail stop) {i : Nat} (hstart : start ≤ i)
    (hstop : i < stop) : ∃ p ∈ tail, p.start ≤ i ∧ i < p.stop := by
  induction tail generalizing start with
  | nil =>
    have hnone : start = stop := h
    omega
  | cons p rest ih =>
    obtain ⟨rfl, hrest⟩ := h
    by_cases hp : i < p.stop
    · exact ⟨p, .head _, hstart, hp⟩
    · obtain ⟨q, hq, hboth⟩ := ih hrest (by omega)
      exact ⟨q, .tail _ hq, hboth⟩

/-- The slots of elements that stand one behind the other are those of each. -/
theorem slots_flatMap (h : Tiles start tail stop) :
    Piece.slots start (tail.flatMap (·.pieces)) =
      tail.flatMap fun p => Piece.slots p.start p.pieces := by
  induction tail generalizing start with
  | nil => rfl
  | cons p rest ih =>
    obtain ⟨rfl, hrest⟩ := h
    rw [List.flatMap_cons, List.flatMap_cons, Piece.slots_append, ← ih hrest]
    rfl

end Tiles

namespace Codec

variable {c : Codec}

/-- One turn of the queue. The slot that has waited longest is filled with the place just past all
bytes, its element is written there, and the slots of the element wait behind all others. -/
inductive Turn (c : Codec) : Output → Placement → Output → Prop where
  | intro {bytes : List UInt8} {slot : Nat} {element : Pointee} {waiting : List (Nat × Pointee)}
      {pieces : List Piece} (hplace : bytes.length < UInt32.size)
      (hpieces : encodeStruct c element.depth element.layout element.values bytes.length =
        .ok pieces) :
      Turn c ⟨bytes, (slot, element) :: waiting⟩ ⟨slot, element, bytes.length, pieces⟩
        ⟨patch bytes slot (c.order.bytes Format.slotSize bytes.length) ++
            Piece.fill c.order [] pieces,
          waiting ++ Piece.slots bytes.length pieces⟩

/-- Turns one after the other. -/
inductive Run (c : Codec) : Output → List Placement → Output → Prop where
  | done (out : Output) : Run c out [] out
  | turn {before between after : Output} {p : Placement} {tail : List Placement}
      (hturn : Turn c before p between) (hrun : Run c between tail after) :
      Run c before (p :: tail) after

theorem Run.append {before between after : Output} {tail others : List Placement}
    (h : Run c before tail between) (h' : Run c between others after) :
    Run c before (tail ++ others) after := by
  induction h with
  | done => exact h'
  | turn hturn _ ih => exact .turn hturn (ih h')

/-- **A turn changes no byte outside its slot.** -/
theorem Turn.getElem?_eq {before after : Output} {p : Placement} (h : Turn c before p after)
    {i : Nat} (hi : i < before.bytes.length)
    (houtside : i < p.slot ∨ p.slot + Format.slotSize ≤ i) :
    after.bytes[i]? = before.bytes[i]? := by
  cases h with
  | @intro bytes slot element waiting pieces hplace hpieces =>
    rw [List.getElem?_append_left (by rwa [length_patch])]
    refine getElem?_patch _ _ _ ?_
    rwa [c.order.length_bytes]

/-! ## What a run keeps -/

/-- The inline pieces and the elements placed so far stand one behind the other, all slots found so
far that have left the queue are filled, in the order in which they were found, and the others
wait. -/
structure Placed (c : Codec) (inline : List Piece) (tail : List Placement) (out : Output) :
    Prop where
  bytes : out.bytes = Piece.fill c.order (tail.map (·.start)) (inline ++ tail.flatMap (·.pieces))
  queue : (tail.map fun p => (p.slot, p.element)) ++ out.waiting =
    Piece.slots 0 inline ++ tail.flatMap fun p => Piece.slots p.start p.pieces
  tiles : Tiles (Piece.size inline) tail out.bytes.length
  encoded : ∀ p ∈ tail, p.start < UInt32.size ∧
    encodeStruct c p.element.depth p.element.layout p.element.values p.start = .ok p.pieces

/-- Before the first turn. -/
theorem placed_start (c : Codec) (inline : List Piece) :
    Placed c inline [] ⟨Piece.fill c.order [] inline, Piece.slots 0 inline⟩ where
  bytes := by simp
  queue := by simp
  tiles := by simp [Tiles]
  encoded _ hp := nomatch hp

variable {inline : List Piece} {tail : List Placement} {before after : Output}

namespace Placed

/-- The slots of all that was written are those that left the queue and those that wait. -/
theorem slots_eq (h : Placed c inline tail before) :
    Piece.slots 0 (inline ++ tail.flatMap (·.pieces)) =
      (tail.map fun p => (p.slot, p.element)) ++ before.waiting := by
  rw [Piece.slots_append, Nat.zero_add, h.tiles.slots_flatMap, h.queue]

/-- **What one turn keeps.** -/
theorem turn (h : Placed c inline tail before) {p : Placement} (hturn : Turn c before p after) :
    Placed c inline (tail ++ [p]) after := by
  cases hturn with
  | @intro bytes slot element waiting pieces hplace hpieces =>
    have hslots : Piece.slots 0 (inline ++ tail.flatMap (·.pieces)) =
        (tail.map fun p => (p.slot, p.element)) ++ (0 + slot, element) :: waiting := by
      rw [Nat.zero_add]
      exact h.slots_eq
    have hlength : (tail.map (·.start)).length =
        (tail.map fun p => (p.slot, p.element)).length := by
      simp
    have hfilled := Piece.fill_concat c.order hslots hlength bytes.length
    rw [← h.bytes] at hfilled
    have hle : (tail.map (·.start) ++ [bytes.length]).length ≤
        (Piece.pointees (inline ++ tail.flatMap (·.pieces))).length := by
      rw [← Piece.map_slots 0, hslots]
      simp
    constructor
    · simp only [List.map_append, List.map_cons, List.map_nil, List.flatMap_append,
        List.flatMap_cons, List.flatMap_nil, List.append_nil]
      rw [← List.append_assoc, Piece.fill_append_of_le c.order hle, hfilled]
    · have hqueue := h.queue
      simp only [List.map_append, List.flatMap_append, List.map_cons, List.map_nil,
        List.flatMap_cons, List.flatMap_nil, List.append_nil]
      rw [← List.append_assoc (Piece.slots 0 inline), ← hqueue]
      simp
    · have htiles := h.tiles.concat (p := ⟨slot, element, bytes.length, pieces⟩) rfl
      simpa [Placement.stop] using htiles
    · intro q hq
      rcases List.mem_append.1 hq with hq | hq
      · exact h.encoded q hq
      · cases List.mem_singleton.1 hq
        exact ⟨hplace, hpieces⟩

/-- **What a run keeps.** -/
theorem run {others : List Placement} (h : Placed c inline tail before)
    (hrun : Run c before others after) : Placed c inline (tail ++ others) after := by
  induction hrun generalizing tail with
  | done => rwa [List.append_nil]
  | turn hturn _ ih =>
    rw [List.append_cons]
    exact ih (h.turn hturn)

end Placed

/-! ## The encoder runs the queue -/

/-- One level of the encoder takes the slots of its elements off the queue, one after the other, and
leaves those of the elements behind. -/
theorem run_of_encodePointees {bytes : List UInt8} {ps : List Pointee} {places : List Nat}
    {pieces : List Piece} (h : encodePointees c bytes.length ps = .ok (places, pieces))
    {queue : List (Nat × Pointee)} (hqueue : queue.map (·.2) = ps) (later : List (Nat × Pointee)) :
    ∃ tail after, Run c ⟨bytes, queue ++ later⟩ tail
        ⟨after, later ++ Piece.slots bytes.length pieces⟩ ∧
      after.length = bytes.length + Piece.size pieces ∧ tail.map (·.start) = places ∧
      tail.flatMap (·.pieces) = pieces := by
  induction ps generalizing bytes places pieces queue later with
  | nil =>
    cases h
    rw [List.map_eq_nil_iff.1 hqueue]
    refine ⟨[], bytes, ?_, rfl, rfl, rfl⟩
    rw [List.nil_append, Piece.slots, List.append_nil]
    exact .done _
  | cons p ps ih =>
    cases queue with
    | nil => cases hqueue
    | cons first queue =>
      obtain ⟨rfl, hrest⟩ := List.cons.inj hqueue
      unfold encodePointees at h
      split at h
      · next hplace =>
        obtain ⟨own, hown, h⟩ := bind_eq_ok.1 h
        obtain ⟨⟨found, others⟩, hothers, h⟩ := bind_eq_ok.1 h
        cases pure_eq_ok.1 h
        have hlength : (patch bytes first.1 (c.order.bytes Format.slotSize bytes.length) ++
            Piece.fill c.order [] own).length = bytes.length + Piece.size own := by simp
        rw [← hlength] at hothers
        obtain ⟨tail, after, hrun, hafter, hstarts, hpieces⟩ :=
          ih hothers hrest (later ++ Piece.slots bytes.length own)
        rw [hlength, List.append_assoc later, ← Piece.slots_append, ← List.append_assoc] at hrun
        refine ⟨_, after, .turn (.intro hplace hown) hrun, ?_, ?_, ?_⟩
        · rw [hafter, hlength, Piece.size_append, Nat.add_assoc]
        · rw [List.map_cons, hstarts]
        · rw [List.flatMap_cons, hpieces]
      · cases h

/-- **The levels of the encoder are a run that empties the queue.** -/
theorem run_of_encodeLevels {levels : Nat} {bytes : List UInt8} {ps : List Pointee}
    {places : List Nat} {behind : List Piece}
    (h : encodeLevels c levels bytes.length ps = .ok (places, behind))
    {queue : List (Nat × Pointee)} (hqueue : queue.map (·.2) = ps) :
    ∃ tail after, Run c ⟨bytes, queue⟩ tail ⟨after, []⟩ ∧ tail.map (·.start) = places ∧
      tail.flatMap (·.pieces) = behind := by
  induction levels generalizing bytes ps places behind queue with
  | zero =>
    cases ps with
    | nil =>
      cases h
      rw [List.map_eq_nil_iff.1 hqueue]
      exact ⟨[], bytes, .done _, rfl, rfl⟩
    | cons p ps => cases h
  | succ levels ih =>
    cases ps with
    | nil =>
      cases h
      rw [List.map_eq_nil_iff.1 hqueue]
      exact ⟨[], bytes, .done _, rfl, rfl⟩
    | cons p ps =>
      obtain ⟨⟨found, pieces⟩, hfound, h⟩ := bind_eq_ok.1 h
      obtain ⟨⟨deeper, others⟩, hdeeper, h⟩ := bind_eq_ok.1 h
      cases pure_eq_ok.1 h
      obtain ⟨tail, between, hrun, hlength, rfl, rfl⟩ := run_of_encodePointees hfound hqueue []
      rw [List.append_nil, List.nil_append] at hrun
      rw [← hlength] at hdeeper
      obtain ⟨tail', after, hrun', rfl, rfl⟩ := ih hdeeper (Piece.map_slots _ _)
      exact ⟨tail ++ tail', after, hrun.append hrun', List.map_append, List.flatMap_append⟩

/-! ## Containers -/

/-- How the bytes of a container are put together: the inline pieces, and the elements placed behind
them. -/
structure Assembled (c : Codec) (container : ContainerLayout) (values : Fields)
    (bytes : List UInt8) (inline : List Piece) (tail : List Placement) : Prop where
  /-- The inline pieces are the parts of the fields that are there, and the end offset tells their
  bytes. -/
  parts : ∃ parts known, EncodedFrom c (encodeStruct c c.nesting) c.nesting values 0 parts ∧
    inline = parts.flatMap FieldPart.whole ∧
    parts.map (·.field) = container.fields.filter (·.isOnWire values) ∧
    known.Tells container.fields values parts ∧
    container.endOffset.evaluate? known = some (Piece.size inline)
  /-- The bytes are those of all pieces, each slot filled with the place of its element. -/
  filled : bytes = Piece.fill c.order (tail.map (·.start)) (inline ++ tail.flatMap (·.pieces))
  /-- The queue puts them there. -/
  run : Run c ⟨Piece.fill c.order [] inline, Piece.slots 0 inline⟩ tail ⟨bytes, []⟩
  encoded : ∀ p ∈ tail,
    encodeStruct c p.element.depth p.element.layout p.element.values p.start = .ok p.pieces
  /-- The elements come in the order of their slots: those of the container, then those of each
  element in its turn. -/
  queue : (tail.map fun p => (p.slot, p.element)) =
    Piece.slots 0 inline ++ tail.flatMap fun p => Piece.slots p.start p.pieces
  tiles : Tiles (Piece.size inline) tail bytes.length
  disjoint : tail.Pairwise fun p q => p.stop ≤ q.start
  covered : ∀ i, Piece.size inline ≤ i → i < bytes.length → ∃ p ∈ tail, p.start ≤ i ∧ i < p.stop
  slots : ∀ p ∈ tail, readNumber c.order bytes.toArray p.slot Format.slotSize = .ok p.start

/-- A finished run has filled every slot with the place of its element. -/
theorem Placed.readNumber_slot {bytes : List UInt8} (h : Placed c inline tail ⟨bytes, []⟩) :
    ∀ p ∈ tail, readNumber c.order bytes.toArray p.slot Format.slotSize = .ok p.start := by
  have hslots := h.slots_eq
  rw [List.append_nil] at hslots
  have hplaces : (tail.map (·.start)).length =
      (Piece.pointees (inline ++ tail.flatMap (·.pieces))).length := by
    rw [← Piece.map_slots 0, hslots]
    simp
  have hall : Held bytes.toArray 0
      (Piece.fill c.order (tail.map (·.start)) (inline ++ tail.flatMap (·.pieces))) := by
    rw [← h.bytes]
    exact ⟨Nat.zero_le _, List.prefix_refl _⟩
  have hheld := Piece.held_of_fill c.order hplaces hall
  rw [hslots, List.forall₂_map_left_iff, List.forall₂_map_right_iff, List.forall₂_same] at hheld
  intro p hp
  exact readNumber_eq_ok.2 ⟨hheld p hp, (h.encoded p hp).1⟩

/-- The encoder runs the queue from behind the inline bytes on until nothing waits. -/
theorem exists_run_of_encode {container : ContainerLayout} {values : Fields} {bytes : List UInt8}
    (h : c.encode container values = .ok bytes) :
    ∃ inline tail, encodeFields c (encodeStruct c c.nesting) c.nesting values 0 container.endOffset
        0 .nothing container.fields = .ok inline ∧
      Run c ⟨Piece.fill c.order [] inline, Piece.slots 0 inline⟩ tail ⟨bytes, []⟩ := by
  obtain ⟨inline, hinline, h⟩ := bind_eq_ok.1 h
  obtain ⟨⟨places, behind⟩, hlevels, h⟩ := bind_eq_ok.1 h
  rw [← Piece.length_fill c.order [] inline] at hlevels
  obtain ⟨tail, after, hrun, rfl, rfl⟩ := run_of_encodeLevels hlevels (Piece.map_slots 0 inline)
  obtain rfl : after = bytes :=
    ((placed_start c inline).run hrun).bytes.trans (pure_eq_ok.1 h)
  exact ⟨inline, tail, hinline, hrun⟩

/-- What the encoder gives is put together by the queue. -/
theorem exists_assembled {container : ContainerLayout}
    (hnames : (container.fields.map (·.name)).Nodup) {values : Fields} {bytes : List UInt8}
    (h : c.encode container values = .ok bytes) :
    ∃ inline tail, Assembled c container values bytes inline tail := by
  obtain ⟨inline, tail, hinline, hrun⟩ := exists_run_of_encode h
  obtain ⟨parts, known, size, hencoded, hjoined, hfields, htells, hsize, hend, -⟩ :=
    exists_parts_of_encodeFields hnames (fun f _ => Known.fresh_nothing f.name) hinline
  obtain rfl : size = Piece.size inline := by omega
  have hplaced := (placed_start c inline).run hrun
  rw [List.nil_append] at hplaced
  have hqueue := hplaced.queue
  rw [List.append_nil] at hqueue
  exact ⟨inline, tail, {
    parts := ⟨parts, known, hencoded, hjoined, hfields, htells, hsize⟩
    filled := hplaced.bytes
    run := hrun
    encoded := fun p hp => (hplaced.encoded p hp).2
    queue := hqueue
    tiles := hplaced.tiles
    disjoint := hplaced.tiles.disjoint
    covered := fun _ => hplaced.tiles.exists_of_between
    slots := hplaced.readNumber_slot }⟩

end Codec

/-- **Elements tile what is behind a container.** In every plan of a source, under either byte
order, the bytes of a container are its inline bytes, of which its end offset tells the number, and
behind them its elements: in the order in which a queue takes their slots, without a gap or a byte
in common up to the last byte, each where its slot says. The queue gets there by turns, and none of
them changes a byte outside the slot that it fills. -/
theorem exists_assembled_of_encode {source : String} {options : Options} {plan : Plan}
    (hplan : Plan.ofSource source options = .ok plan) {m : MessageLayout} (hm : m ∈ plan.messages)
    {container : ContainerLayout} (hcontainer : container ∈ m.containers) (order : ByteOrder)
    {values : Fields} {bytes : List UInt8}
    (h : Codec.encode ⟨plan, order⟩ container values = .ok bytes) :
    (∃ inline tail, Codec.Assembled ⟨plan, order⟩ container values bytes inline tail) ∧
      ∀ before p after, Codec.Turn ⟨plan, order⟩ before p after → ∀ i < before.bytes.length,
        (i < p.slot ∨ p.slot + Format.slotSize ≤ i) → after.bytes[i]? = before.bytes[i]? := by
  have hplaced := (Plan.wellFormed_ofSource hplan).containers m hm container hcontainer
  refine ⟨Codec.exists_assembled hplaced.nodup h, fun before p after hturn i hi houtside => ?_⟩
  exact hturn.getElem?_eq hi houtside

/-- A service with one container of indirect elements that have indirect elements themselves. -/
def forestSource : String :=
  "[\x7b\"type\": \"Service\", \"name\": \"S\"\x7d,
    \x7b\"type\": \"Struct\", \"name\": \"Leaf\", \"contents\": [
      \x7b\"name\": \"value\", \"format\": \"guint8\"\x7d]\x7d,
    \x7b\"type\": \"Struct\", \"name\": \"Tree\", \"contents\": [
      \x7b\"name\": \"count\", \"format\": \"guint8\"\x7d,
      \x7b\"name\": \"leaves\", \"format\": \"ref-struct-array\", \"struct-type\": \"Leaf\",
        \"array-size-field\": \"count\"\x7d]\x7d,
    \x7b\"type\": \"Message\", \"name\": \"M\", \"id\": 1, \"request\": [
      \x7b\"name\": \"count\", \"format\": \"guint8\"\x7d,
      \x7b\"name\": \"trees\", \"format\": \"ref-struct-array\", \"struct-type\": \"Tree\",
        \"array-size-field\": \"count\"\x7d]\x7d]"

/-- A count, and as many indirect elements of a struct. -/
def indirectFields (name element : String) : List PlacedField := [
  { name := "count", format := .int .u8, header := 0, offset := {}, size := .fixed 1 },
  { name, format := .refStructArray, sizeField? := some "count", structType? := some element
    header := 0, offset := { constant := 1 }, size := .repeated "count" (.fixed 4) }]

/-- Its container. -/
def forestContainer : ContainerLayout where
  kind := .request
  fields := indirectFields "trees" "Tree"
  endOffset := ⟨1, [.elements "trees" 4 "count"]⟩

/-- Its plan. -/
def forestPlan : Plan where
  service := "S"
  variant := .fixed
  messages := [⟨"M", "S", 1, [forestContainer]⟩]
  structs := [
    { name := "Leaf"
      members := [
        { name := "value", format := .int .u8, header := 0, offset := {}, size := .fixed 1 }]
      endOffset := { constant := 1 }
      size := .fixed 1
      usage := { arrayMember := true } },
    { name := "Tree"
      members := indirectFields "leaves" "Leaf"
      endOffset := ⟨1, [.elements "leaves" 4 "count"]⟩
      size := .composite "Tree"
      usage := { arrayMember := true } }]

set_option maxRecDepth 8192 in
theorem forestPlan_eq : Plan.ofSource forestSource {} = .ok forestPlan := by
  refine (Plan.ofSource_ofList _ {}).trans (toOption_eq_some.1 ?_)
  decide +kernel

/-- A tree with these leaves. -/
def treeValue (leaves : List Nat) : Value :=
  .struct [("count", .ofNat .u8 leaves.length),
    ("leaves", .array (leaves.map fun n => .struct [("value", .ofNat .u8 n)]))]

/-- Two trees with three leaves. -/
def forestValues : Fields :=
  [("count", .ofNat .u8 2), ("trees", .array [treeValue [7], treeValue [8, 9]])]

/-- Their bytes: the trees at 9 and 14, the leaves at 23, 24 and 25. -/
def forestBytes : List UInt8 :=
  [2, 9, 0, 0, 0, 14, 0, 0, 0, 1, 23, 0, 0, 0, 2, 24, 0, 0, 0, 25, 0, 0, 0, 7, 8, 9]

/-- The trees come first, then the leaves of both. -/
theorem exists_assembled_forest :
    Codec.encode ⟨forestPlan, .little⟩ forestContainer forestValues = .ok forestBytes ∧
      ∃ inline tail,
        Codec.Assembled ⟨forestPlan, .little⟩ forestContainer forestValues forestBytes inline
          tail := by
  have hencoded : Codec.encode ⟨forestPlan, .little⟩ forestContainer forestValues =
      .ok forestBytes := toOption_eq_some.1 (by decide +kernel)
  exact ⟨hencoded,
    (exists_assembled_of_encode forestPlan_eq (.head _) (.head _) .little hencoded).1⟩

end WirePlan
