import WirePlan.Proofs.Layout.LaidOut

/-!
# Layouts that stop at a sum

A session that stops at the first sum that is no word is compared, step by step, with the one in
which sums wrap. What a step comes to in the former it comes to in the latter, and all the lists
that it has laid out are then bounded: their headers and fixed bytes are a word together
(`LayoutT.Traces`). And where a step succeeds in the latter and all lists are bounded in the end, it
comes to the same in the former (`LayoutT.Returns`). Both carry over from the parts of a step to the
whole, so a step stops exactly if a list on its way is not bounded (`checks_sizeOfStruct`).

A list is a chain of sums. It is bounded if the whole is, whatever is added first, so each single
sum is one in a chain that fits (`traces_layoutFrom`, `returns_layoutFrom`).
-/

namespace WirePlan

/-- The headers and the fixed bytes of the list are a word together. -/
def StructLayout.Bounded (layout : StructLayout) : Prop := fixedBytes layout.members < UInt64.size

instance (layout : StructLayout) : Decidable layout.Bounded := inferInstanceAs (Decidable (_ < _))

/-- All structs that are finished are bounded. -/
def LayoutProgress.Bounded (p : LayoutProgress) : Prop :=
  ∀ name layout, p.struct? name = some layout → layout.Bounded

theorem LayoutProgress.bounded_empty : ({} : LayoutProgress).Bounded := fun _ _ h => nomatch h

theorem LayoutProgress.Bounded.of_extends {p p' : LayoutProgress} (h : p'.Bounded)
    (hle : StructLayouts.Extends p.struct? p'.struct?) : p.Bounded := fun name layout hlayout =>
  h name layout (hle name layout hlayout)

/-! ## Sums of an offset -/

namespace Offset

theorem comesTo_advanceM (o : Offset) (n : Nat) :
    ComesTo (o.advanceM n : Stopping Offset) (o.constant + n < UInt64.size) (o.advance n) := by
  unfold advanceM
  refine ComesTo.iff ((comesTo_addWord o.constant n).bind (.pure (o.advance n))) ?_
  exact and_iff_left trivial

theorem comesTo_pastM (o : Offset) (header : Nat) (f : Field) (size : WireSize) :
    ComesTo (o.pastM header f size : Stopping Offset)
      (o.constant + size.fixedPart < UInt64.size ∧
        (f.isConditional = true → header + size.fixedPart < UInt64.size))
      (o.past header f size) := by
  unfold pastM past Field.correction?
  refine (o.comesTo_advanceM size.fixedPart).bind ?_
  cases f.isConditional with
  | false => exact (ComesTo.pure _).iff (by simp)
  | true =>
    refine ComesTo.iff ((comesTo_addWord header size.fixedPart).bind (.pure _)) ?_
    simp

end Offset

namespace LayoutT

variable {schema : Schema} {α β : Type} {step : LayoutT Stopping α} {wrapped : LayoutM α}
  {suits : α → Prop} {fits : β → Prop}

/-- What the step comes to, unless it stops at a sum, it comes to where sums wrap. Its result suits
then, and what is finished is bounded if it was before. -/
def Traces (step : LayoutT Stopping α) (wrapped : LayoutM α) (suits : α → Prop) : Prop :=
  ∀ p r p', p.Bounded → step.run.run p = .ok (r, p') →
    wrapped.run.run p = (r, p') ∧ ∀ a, r = .ok a → suits a ∧ p'.Bounded

/-- Where the step succeeds while sums wrap with a result that suits, and what is finished in the
end is bounded, it comes to the same without stopping. -/
structure Returns (schema : Schema) (step : LayoutT Stopping α) (wrapped : LayoutM α)
    (suits : α → Prop) : Prop where
  sound : ∀ p a p', p.Sound schema → wrapped.Yields p a p' → p'.Sound schema
  returns : ∀ p a p', p.Sound schema → wrapped.Yields p a p' → suits a → p'.Bounded →
    p.Bounded ∧ step.run.run p = .ok (.ok a, p')

/-- A step runs on from where the one before it has ended, unless that has stopped. -/
theorem stopping_bind (x : LayoutT Stopping α) (f : α → LayoutT Stopping β) (p : LayoutProgress) :
    (x >>= f).run.run p =
      x.run.run p >>= fun ended => (ExceptT.bindCont f ended.1).run ended.2 := rfl

theorem stopping_bind_of_eq {x : LayoutT Stopping α} {f : α → LayoutT Stopping β}
    {p q : LayoutProgress} {a : α} (hx : x.run.run p = .ok (.ok a, q)) :
    (x >>= f).run.run p = (f a).run.run q := by
  rw [stopping_bind, hx]
  rfl

theorem traces_bind {x : LayoutT Stopping α} {x' : LayoutM α} {f : α → LayoutT Stopping β}
    {f' : α → LayoutM β} (hx : Traces x x' suits) (hf : ∀ a, suits a → Traces (f a) (f' a) fits) :
    Traces (x >>= f) (x' >>= f') fits := by
  intro p r p'' hp h
  rw [stopping_bind] at h
  obtain ⟨⟨r', p'⟩, hrun, h⟩ := bind_eq_ok.1 h
  obtain ⟨hwrapped, hsuits⟩ := hx p r' p' hp hrun
  rw [run_bind, hwrapped]
  cases r' with
  | error e =>
    cases h
    exact ⟨rfl, fun _ h => nomatch h⟩
  | ok a =>
    obtain ⟨ha, hp'⟩ := hsuits a rfl
    exact hf a ha p' r p'' hp' h

theorem returns_bind {x : LayoutT Stopping α} {x' : LayoutM α} {f : α → LayoutT Stopping β}
    {f' : α → LayoutM β} (hx : Returns schema x x' suits)
    (hf : ∀ p a p', x'.Yields p a p' → Returns schema (f a) (f' a) fits ∧
      ∀ b p'', (f' a).Yields p' b p'' → fits b → suits a) :
    Returns schema (x >>= f) (x' >>= f') fits where
  sound p b p'' hp h := by
    obtain ⟨a, p', ha, hb⟩ := yields_bind.1 h
    exact (hf p a p' ha).1.sound p' b p'' (hx.sound p a p' hp ha) hb
  returns p b p'' hp h hfits hbounded := by
    obtain ⟨a, p', ha, hb⟩ := yields_bind.1 h
    obtain ⟨hf, hback⟩ := hf p a p' ha
    -- Soundness goes on from the start, but what suits and is bounded is known of the end.
    obtain ⟨hbounded, hrun'⟩ := hf.returns p' b p'' (hx.sound p a p' hp ha) hb hfits hbounded
    obtain ⟨hbounded, hrun⟩ := hx.returns p a p' hp ha (hback b p'' hb hfits) hbounded
    rw [stopping_bind]
    exact ⟨hbounded, bind_eq_ok.2 ⟨_, hrun, hrun'⟩⟩

theorem traces_pure {a : α} (ha : suits a) : Traces (pure a) (pure a) suits := by
  intro p r p' hp h
  cases h
  exact ⟨rfl, fun _ h => by cases h; exact ⟨ha, hp⟩⟩

theorem traces_throw (e : SchemaError) : Traces (throw e) (throw e) suits := by
  intro p r p' hp h
  cases h
  exact ⟨rfl, fun _ h => nomatch h⟩

theorem traces_get : Traces get get fun _ => True := by
  intro p r p' hp h
  cases h
  exact ⟨rfl, fun _ h => by cases h; exact ⟨trivial, hp⟩⟩

theorem traces_ofExcept (result : Except SchemaError α) :
    Traces (ofExcept result) (ofExcept result) fun _ => True := by
  cases result with
  | ok a => exact traces_pure trivial
  | error e => exact traces_throw e

theorem traces_ofSums {x : Stopping α} {x' : Id α} {fits : Prop} {a : α} (hx : ComesTo x fits a)
    (hx' : x'.run = a) : Traces (ofSums x) (ofSums x') fun b => fits ∧ a = b := by
  subst hx'
  intro p r p' hp h
  have hrun : (ofSums x).run.run p = (fun a => (Except.ok a, p)) <$> x := by
    cases x <;> rfl
  rw [hrun] at h
  obtain ⟨a, ha, h⟩ := map_eq_ok.1 h
  cases h
  obtain ⟨hfits, rfl⟩ := (hx a).1 ha
  exact ⟨rfl, fun _ h => by cases h; exact ⟨⟨hfits, rfl⟩, hp⟩⟩

theorem returns_pure (a : α) : Returns schema (pure a) (pure a) suits where
  sound p b p' hp h := (yields_pure.1 h).2 ▸ hp
  returns p b p' hp h _ hbounded := by
    obtain ⟨rfl, rfl⟩ := yields_pure.1 h
    exact ⟨hbounded, rfl⟩

theorem returns_throw (e : SchemaError) : Returns schema (throw e) (throw e) suits where
  sound _ _ _ _ h := absurd h yields_throw
  returns _ _ _ _ h _ _ := absurd h yields_throw

theorem returns_get : Returns schema get get fun _ => True where
  sound p q p' hp h := (yields_get.1 h).2 ▸ hp
  returns p q p' hp h _ hbounded := by
    obtain ⟨rfl, rfl⟩ := yields_get.1 h
    exact ⟨hbounded, rfl⟩

theorem returns_ofExcept (result : Except SchemaError α) :
    Returns schema (ofExcept result) (ofExcept result) fun _ => True := by
  cases result with
  | ok a => exact returns_pure a
  | error e => exact returns_throw e

theorem yields_ofSums {x : Id α} {a : α} {p p' : LayoutProgress} :
    Yields (ofSums x) p a p' ↔ x.run = a ∧ p = p' := yields_pure

theorem returns_ofSums {x : Stopping α} {x' : Id α} {fits : Prop} {a : α} (hx : ComesTo x fits a)
    (hx' : x'.run = a) : Returns schema (ofSums x) (ofSums x') fun _ => fits where
  sound p b p' hp h := (yields_ofSums.1 h).2 ▸ hp
  returns p b p' hp h hfits hbounded := by
    obtain ⟨hb, rfl⟩ := yields_ofSums.1 h
    rw [(hx b).2 ⟨hfits, hx'.symm.trans hb⟩]
    exact ⟨hbounded, rfl⟩

/-- Both at once: where the step succeeds while sums wrap, it stops exactly if a list on its way is
not bounded or its result does not suit. -/
structure Checks (schema : Schema) (step : LayoutT Stopping α) (wrapped : LayoutM α)
    (suits : α → Prop) : Prop where
  traces : Traces step wrapped suits
  returns : Returns schema step wrapped suits

theorem checks_pure {a : α} (ha : suits a) : Checks schema (pure a) (pure a) suits :=
  ⟨traces_pure ha, returns_pure a⟩

theorem checks_throw (e : SchemaError) : Checks schema (throw e) (throw e) suits :=
  ⟨traces_throw e, returns_throw e⟩

theorem checks_get : Checks schema get get fun _ => True :=
  ⟨traces_get, returns_get⟩

theorem checks_ofExcept (result : Except SchemaError α) :
    Checks schema (ofExcept result) (ofExcept result) fun _ => True :=
  ⟨traces_ofExcept result, returns_ofExcept result⟩

/-- A step behind one whose result always suits. -/
theorem Checks.bind {x : LayoutT Stopping α} {x' : LayoutM α} {f : α → LayoutT Stopping β}
    {f' : α → LayoutM β} (hx : Checks schema x x' fun _ => True)
    (hf : ∀ a, Checks schema (f a) (f' a) fits) : Checks schema (x >>= f) (x' >>= f') fits where
  traces := traces_bind hx.traces fun a _ => (hf a).traces
  returns := returns_bind hx.returns fun _ a _ _ => ⟨(hf a).returns, fun _ _ _ _ => trivial⟩

/-- What is made of a result suits if the result did. -/
theorem Checks.map {f : α → β} (h : Checks schema step wrapped suits)
    (hf : ∀ a, suits a ↔ fits (f a)) :
    Checks schema (f <$> step) (f <$> wrapped) fits := by
  rw [← bind_pure_comp, ← bind_pure_comp]
  refine ⟨traces_bind h.traces fun a ha => traces_pure ((hf a).1 ha),
    returns_bind h.returns fun _ a _ _ => ⟨returns_pure (f a), fun b _ hb hfits => ?_⟩⟩
  obtain ⟨rfl, -⟩ := yields_pure.1 hb
  exact (hf a).2 hfits

theorem Checks.discard (h : Checks schema step wrapped suits) (hsuits : ∀ a, suits a) :
    Checks schema (discard step) (discard wrapped) fun _ => True := by
  rw [Functor.discard, Functor.discard, map_const, map_const]
  exact h.map fun a => iff_of_true (hsuits a) trivial

theorem checks_mapM {f : α → LayoutT Stopping β} {f' : α → LayoutM β} {xs : List α}
    (hf : ∀ x ∈ xs, Checks schema (f x) (f' x) fits) :
    Checks schema (xs.mapM f) (xs.mapM f') fun ys => ∀ y ∈ ys, fits y := by
  induction xs with
  | nil => exact checks_pure fun _ hy => nomatch hy
  | cons x xs ih =>
    obtain ⟨hx, hxs⟩ := List.forall_mem_cons.1 hf
    rw [List.mapM_cons, List.mapM_cons]
    constructor
    · refine traces_bind hx.traces fun y hy => traces_bind (ih hxs).traces fun ys hys => ?_
      exact traces_pure (List.forall_mem_cons.2 ⟨hy, hys⟩)
    · refine returns_bind hx.returns fun _ y _ _ => ⟨?_, fun zs _ hzs hfits => ?_⟩
      · refine returns_bind (ih hxs).returns fun _ ys _ _ => ⟨returns_pure (y :: ys), ?_⟩
        intro zs _ hzs hfits
        obtain ⟨rfl, -⟩ := yields_pure.1 hzs
        exact (List.forall_mem_cons.1 hfits).2
      · obtain ⟨ys, _, -, hzs⟩ := yields_bind.1 hzs
        obtain ⟨rfl, -⟩ := yields_pure.1 hzs
        exact (List.forall_mem_cons.1 hfits).1

end LayoutT

open LayoutT

variable {schema : Schema} {sizes : StructSizes Stopping} {sizes' : StructSizes Id}

/-! ## Fields and lists -/

theorem checks_requirePlaced (f : Field) (count : String) (placed : List String) (place : Place) :
    Checks schema (requirePlaced f count placed place) (requirePlaced f count placed place)
      fun _ => True := by
  unfold requirePlaced
  split
  · exact checks_pure trivial
  · exact checks_throw _

theorem checks_fieldSize
    (hsizes : ∀ t user, Checks schema (sizes t user) (sizes' t user) fun _ => True)
    (placed : List String) (place : Place) (f : Field) :
    Checks schema (fieldSize sizes placed place f) (fieldSize sizes' placed place f)
      fun _ => True := by
  unfold fieldSize
  split
  · exact checks_pure trivial
  · exact (checks_requirePlaced ..).bind fun _ => checks_pure trivial
  · exact hsizes ..
  · exact hsizes ..
  · refine (checks_requirePlaced ..).bind fun _ => (hsizes ..).bind fun _ => ?_
    exact checks_pure trivial
  · refine (checks_requirePlaced ..).bind fun _ => ?_
    exact ((hsizes ..).discard fun _ => trivial).bind fun _ => checks_pure trivial
  · split
    · exact checks_pure trivial
    · split
      · exact checks_throw _
      · exact checks_throw _

/-- A list fits behind a place exactly if the sums made for its first field are words and the others
fit behind that field. -/
theorem fixedBytes_cons_fits_iff (o offset : Offset) (header : Nat) (f : Field) (size : WireSize)
    (rest : List PlacedField) :
    o.constant + fixedBytes ({ f with header, offset, size } :: rest) < UInt64.size ↔
      o.constant + header < UInt64.size ∧
        ((o.advance header).constant + size.fixedPart < UInt64.size ∧
          (f.isConditional = true → header + size.fixedPart < UInt64.size)) ∧
        ((o.advance header).past header f size).constant + fixedBytes rest < UInt64.size := by
  rw [fixedBytes_cons, Offset.past_constant]
  dsimp only [Offset.advance]
  constructor
  · intro h
    have hstart : o.constant + header < UInt64.size := by omega
    have hsize : o.constant + header + size.fixedPart < UInt64.size := by omega
    rw [wrap64_of_lt hstart, wrap64_of_lt hsize]
    exact ⟨hstart, ⟨hsize, fun _ => by omega⟩, by omega⟩
  · rintro ⟨hstart, ⟨hsize, -⟩, hrest⟩
    rw [wrap64_of_lt hstart] at hsize hrest
    rw [wrap64_of_lt hsize] at hrest
    omega

/-- A list that is laid out from a word on is bounded, unless a sum stops it. -/
theorem traces_layoutFrom
    (hsizes : ∀ t user, Checks schema (sizes t user) (sizes' t user) fun _ => True) (header : Nat)
    (place : Place) (placed : List String) {o : Offset} (ho : o.constant < UInt64.size)
    (fields : List Field) :
    Traces (layoutFrom sizes header place placed o fields)
      (layoutFrom sizes' header place placed o fields)
      fun result => o.constant + fixedBytes result.1 < UInt64.size := by
  induction fields generalizing placed o with
  | nil => exact traces_pure ho
  | cons f rest ih =>
    refine traces_bind (traces_ofSums (o.comesTo_advanceM header) rfl) ?_
    rintro _ ⟨hstart, rfl⟩
    refine traces_bind (checks_fieldSize hsizes placed place f).traces fun size _ => ?_
    refine traces_bind (traces_ofSums (Offset.comesTo_pastM _ header f size)
      (Offset.run_pastM _ header f size)) ?_
    rintro _ ⟨hsize, rfl⟩
    have hpast : ((o.advance header).past header f size).constant < UInt64.size :=
      Nat.mod_lt _ (by decide)
    refine traces_bind (ih (f.name :: placed) hpast) fun result hresult => ?_
    exact traces_pure ((fixedBytes_cons_fits_iff ..).2 ⟨hstart, hsize, hresult⟩)

/-- A list that is bounded is laid out without stopping. -/
theorem returns_layoutFrom
    (hsizes : ∀ t user, Checks schema (sizes t user) (sizes' t user) fun _ => True) (header : Nat)
    (place : Place) (placed : List String) (o : Offset) (fields : List Field) :
    Returns schema (layoutFrom sizes header place placed o fields)
      (layoutFrom sizes' header place placed o fields)
      fun result => o.constant + fixedBytes result.1 < UInt64.size := by
  induction fields generalizing placed o with
  | nil => exact returns_pure _
  | cons f rest ih =>
    refine returns_bind (returns_ofSums (o.comesTo_advanceM header) rfl) ?_
    intro _ offset _ hoffset
    obtain rfl : o.advance header = offset := (yields_ofSums.1 hoffset).1
    refine ⟨returns_bind (checks_fieldSize hsizes placed place f).returns fun _ size _ _ =>
      ⟨returns_bind (returns_ofSums (Offset.comesTo_pastM _ header f size)
        (Offset.run_pastM _ header f size)) ?_, fun _ _ _ _ => trivial⟩, ?_⟩
    · intro _ past _ hpast
      obtain rfl : (o.advance header).past header f size = past := by
        rw [← Offset.run_pastM]
        exact (yields_ofSums.1 hpast).1
      refine ⟨returns_bind (ih (f.name :: placed) _) fun _ result _ _ =>
        ⟨returns_pure _, fun all _ hall hfits => ?_⟩, fun all _ hall hfits => ?_⟩
      · obtain ⟨rfl, -⟩ := yields_pure.1 hall
        exact ((fixedBytes_cons_fits_iff ..).1 hfits).2.2
      · obtain ⟨result, _, -, hall⟩ := yields_bind.1 hall
        obtain ⟨rfl, -⟩ := yields_pure.1 hall
        exact ((fixedBytes_cons_fits_iff ..).1 hfits).2.1
    · intro all _ hall hfits
      obtain ⟨size, _, -, hall⟩ := yields_bind.1 hall
      obtain ⟨past, _, -, hall⟩ := yields_bind.1 hall
      obtain ⟨result, _, -, hall⟩ := yields_bind.1 hall
      obtain ⟨rfl, -⟩ := yields_pure.1 hall
      exact ((fixedBytes_cons_fits_iff ..).1 hfits).1

/-- A list is laid out in a container or struct exactly if it is bounded. -/
theorem checks_layoutList
    (hsizes : ∀ t user, Checks schema (sizes t user) (sizes' t user) fun _ => True)
    (ordered : List Field) (header : Nat) (place : Place) :
    Checks schema (layoutList sizes ordered header place) (layoutList sizes' ordered header place)
      fun result => fixedBytes result.1 < UInt64.size := by
  have hempty : ∀ n, ({} : Offset).constant + n = n := Nat.zero_add
  have htraces := traces_layoutFrom hsizes header place [] (o := {}) (by decide) ordered
  have hreturns := returns_layoutFrom hsizes header place [] {} ordered
  simp only [hempty] at htraces hreturns
  exact ⟨htraces, hreturns⟩

/-! ## Structs -/

theorem LayoutT.traces_begin (name : String) : Traces (begin name) (begin name) fun _ => True := by
  intro p r p' hp h
  cases h
  exact ⟨rfl, fun _ _ => ⟨trivial, hp⟩⟩

theorem LayoutT.traces_finish {layout : StructLayout} (hlayout : layout.Bounded) :
    Traces (finish layout) (finish layout) fun _ => True := by
  intro p r p' hp h
  cases h
  refine ⟨rfl, fun _ _ => ⟨trivial, fun name found hfound => ?_⟩⟩
  rw [LayoutProgress.struct?_cons layout p.structs _ p.underWay] at hfound
  split at hfound
  · exact Option.some.inj hfound ▸ hlayout
  · exact hp name found hfound

/-- A struct that is finished is not laid out again. -/
theorem run_sizeOfStruct_finished {depth : Nat} {name user : String} {p : LayoutProgress}
    {layout : StructLayout} (hfound : p.struct? name = some layout) :
    (sizeOfStruct schema depth name user).run.run p =
      (.ok (.ok layout.size, p) : Stopping _) := by
  unfold sizeOfStruct
  rw [stopping_bind_of_eq (a := p) (q := p) rfl]
  dsimp only
  rw [hfound]
  rfl

/-- A struct whose list is laid out without stopping is finished so. -/
theorem run_sizeOfStruct_new {depth : Nat} {name user : String} {s : Struct} {ordered : List Field}
    {p q : LayoutProgress} {members : List PlacedField} {endOffset : Offset}
    (hs : schema.struct? name = some s) (hnew : p.struct? name = none) (hfree : name ∉ p.underWay)
    (horder : wireOrder s.members (.struct name) = .ok ordered)
    (hlist : (layoutList (sizeOfStruct schema depth) ordered 0 (.struct name)).run.run
      { p with underWay := name :: p.underWay } =
        (.ok (.ok (members, endOffset), q) : Stopping _)) :
    (sizeOfStruct schema (depth + 1) name user).run.run p =
      (.ok (.ok (.ofStruct name endOffset),
        ⟨⟨name, members, endOffset, .ofStruct name endOffset, s.usage⟩ :: q.structs,
          q.underWay.tail⟩) : Stopping _) := by
  unfold sizeOfStruct
  rw [stopping_bind_of_eq (a := p) (q := p) rfl]
  dsimp only
  rw [hnew, hs, if_neg hfree]
  dsimp only
  rw [horder, stopping_bind_of_eq (a := ()) (q := { p with underWay := name :: p.underWay }) rfl,
    stopping_bind_of_eq (a := ordered) (q := { p with underWay := name :: p.underWay }) rfl,
    stopping_bind_of_eq hlist]
  rfl

theorem traces_sizeOfStruct {depth : Nat}
    (hsizes : ∀ depth', depth = depth' + 1 → ∀ t user,
      Checks schema (sizeOfStruct schema depth' t user) (sizeOfStruct schema depth' t user)
        fun _ => True) (name user : String) :
    Traces (sizeOfStruct schema depth name user) (sizeOfStruct schema depth name user)
      fun _ => True := by
  unfold sizeOfStruct
  refine traces_bind traces_get fun p _ => ?_
  dsimp only
  split
  · exact traces_pure trivial
  · split
    · exact traces_throw _
    · split
      · exact traces_throw _
      · exact traces_throw _
      · next depth' _ =>
        refine traces_bind (traces_begin name) fun _ _ => ?_
        refine traces_bind (traces_ofExcept _) fun ordered _ => ?_
        have hlist := checks_layoutList (hsizes depth' rfl) ordered 0 (.struct name)
        refine traces_bind hlist.traces fun result hresult => ?_
        refine traces_bind (traces_finish hresult) fun _ _ => ?_
        exact traces_pure trivial

theorem returns_sizeOfStruct {depth : Nat}
    (hsizes : ∀ depth', depth = depth' + 1 → ∀ t user,
      Checks schema (sizeOfStruct schema depth' t user) (sizeOfStruct schema depth' t user)
        fun _ => True) (name user : String) :
    Returns schema (sizeOfStruct schema depth name user) (sizeOfStruct schema depth name user)
      fun _ => True where
  sound p size p' hp h := (sizeOfStruct_good schema depth name user h hp).1
  returns p size p' hp h _ hbounded := by
    have hgrown := (sizeOfStruct_good schema depth name user h hp).2.1
    refine ⟨hbounded.of_extends hgrown.extends_, ?_⟩
    rcases yields_sizeOfStruct h with ⟨layout, hlayout, rfl, rfl⟩ |
      ⟨depth', s, ordered, q, members, endOffset, rfl, hs, hnew, hfree, horder, hlist, rfl, rfl⟩
    · exact run_sizeOfStruct_finished hlayout
    · obtain ⟨hsound, hgrown, hlaid⟩ :=
        lays_layoutList (sizeOfStruct_good schema depth') horder 0 hlist hp
      have hfinished := LayoutProgress.struct?_cons
        ⟨name, members, endOffset, .ofStruct name endOffset, s.usage⟩ q.structs q.underWay.tail
        q.underWay
      have hmembers : fixedBytes members < UInt64.size :=
        hbounded name _ ((hfinished name).trans (if_pos rfl))
      have hq : q.Bounded := by
        intro n layout hn
        refine hbounded n layout ((hfinished n).trans ?_)
        rw [if_neg, hn]
        rintro rfl
        exact absurd hn (by rw [hgrown.kept _ (.head _)]; exact hnew ▸ nofun)
      have hchecks := checks_layoutList (hsizes depth' rfl) ordered 0 (.struct name)
      obtain ⟨-, hrun⟩ := hchecks.returns.returns { p with underWay := name :: p.underWay }
        _ q hp hlist hmembers hq
      exact run_sizeOfStruct_new hs hnew hfree horder hrun

/-- **The layout of a struct stops exactly if a list on its way is not bounded.** The induction is
on how deep structs may nest. -/
theorem checks_sizeOfStruct (depth : Nat) (name user : String) :
    Checks schema (sizeOfStruct schema depth name user) (sizeOfStruct schema depth name user)
      fun _ => True := by
  induction depth generalizing name user with
  | zero =>
    have hsizes : ∀ depth', 0 = depth' + 1 → ∀ t user,
        Checks schema (sizeOfStruct schema depth' t user) (sizeOfStruct schema depth' t user)
          fun _ => True := fun depth' h => by omega
    exact ⟨traces_sizeOfStruct hsizes name user, returns_sizeOfStruct hsizes name user⟩
  | succ depth ih =>
    have hsizes : ∀ depth', depth + 1 = depth' + 1 → ∀ t user,
        Checks schema (sizeOfStruct schema depth' t user) (sizeOfStruct schema depth' t user)
          fun _ => True := by
      rintro depth' h
      cases h
      exact ih
    exact ⟨traces_sizeOfStruct hsizes name user, returns_sizeOfStruct hsizes name user⟩

theorem checks_layoutStruct (name : String) :
    Checks schema (layoutStruct schema name) (layoutStruct schema name) fun _ => True := by
  unfold layoutStruct
  refine ((checks_sizeOfStruct ..).discard fun _ => trivial).bind fun _ => ?_
  refine checks_get.bind fun p => ?_
  split
  · exact checks_pure trivial
  · exact checks_throw _

end WirePlan
