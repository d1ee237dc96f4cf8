import WirePlan.Proofs.Layout.Nesting
import WirePlan.Proofs.Layout.Unique

/-!
# What a session remembers

A session keeps the structs that it has finished, and a request that fails leaves the structs that
were under way as they are. What is finished changes no answer: a finished struct is founded, and
there is one way to lay it out (`LayoutProgress.Sound.unique_of_founded`). What is left under way is
not founded, so a session that comes to it is on its way to fail in any case; but it fails there,
and names the struct that is left, where a fresh session goes on to the one that embeds itself
(`Schema.Recurs.found_eq`). Apart from this name the two end every step alike (`LayoutT.Alike`), and
so does a session after any requests (`LayoutSession.answer_after`).
-/

namespace WirePlan

/-- What a session can be asked for. -/
inductive LayoutRequest where
  | struct (name : String)
  | fields (ordered : List Field) (header : Nat) (place : Place)

/-- What it answers with. -/
inductive LayoutAnswer where
  | struct (layout : StructLayout)
  | fields (layouts : List PlacedField) (endOffset : Offset)
  deriving DecidableEq, Repr

namespace LayoutSession

/-- The answer to a request, and the session after it. -/
def answer (l : LayoutSession) : LayoutRequest → Except SchemaError LayoutAnswer × LayoutSession
  | .struct name =>
    let (result, l') := l.struct name
    (result.map .struct, l')
  | .fields ordered header place =>
    let (result, l') := l.fields ordered header place
    (result.map fun r => .fields r.1 r.2, l')

/-- The session after requests, some of which may fail. -/
def after (l : LayoutSession) (requests : List LayoutRequest) : LayoutSession :=
  requests.foldl (fun l request => (l.answer request).2) l

end LayoutSession

/-- The error of a session that had left structs under way, where a fresh one goes along a trail: it
names the first struct of the trail that had been left. -/
def SchemaError.cutShort (left trail : List String) : SchemaError → SchemaError
  | .recursiveStruct name => .recursiveStruct ((trail.reverse.find? (· ∈ left)).getD name)
  | error => error

/-- With nothing left, or nothing on the trail, no error is cut short. -/
theorem SchemaError.mapError_cutShort {left trail : List String} (h : left = [] ∨ trail = [])
    {α : Type} (result : Except SchemaError α) :
    result.mapError (.cutShort left trail) = result := by
  have hnone : trail.reverse.find? (· ∈ left) = none := by
    rcases h with rfl | rfl
    · exact List.find?_eq_none.2 fun _ _ => by simp
    · rfl
  cases result with
  | ok _ => rfl
  | error error => cases error <;> simp [Except.mapError, cutShort, hnone]

/-! ## Trails -/

namespace Schema.Recurs

variable {schema : Schema} {path trail trail' left : List String} {name found found' : String}

/-- What is under way stays so. -/
theorem suffix (h : schema.Recurs path name trail found) : path <:+ trail := by
  induction h with
  | found _ => exact List.suffix_refl _
  | member _ _ _ _ _ _ ih => exact (List.suffix_cons _ _).trans ih

/-- The first field that is made of a struct that is not founded. -/
theorem first_unique {before before' rest rest' : List Field} {f f' : Field} {t t' : String}
    (h : before ++ f :: rest = before' ++ f' :: rest') (hbefore : schema.AllFounded before)
    (hbefore' : schema.AllFounded before') (ht : f.structType? = some t)
    (ht' : f'.structType? = some t') (hopen : ¬ schema.Founded t) (hopen' : ¬ schema.Founded t') :
    t = t' := by
  induction before generalizing before' with
  | nil =>
    cases before' with
    | nil =>
      cases h
      exact Option.some.inj (ht.symm.trans ht')
    | cons g before' =>
      cases h
      exact absurd (hbefore' f (.head _) t ht) hopen
  | cons g before ih =>
    cases before' with
    | nil =>
      cases h
      exact absurd (hbefore f' (.head _) t' ht') hopen'
    | cons g' before' =>
      exact ih (List.cons.inj h).2 (fun f hf => hbefore f (.tail _ hf))
        fun f hf => hbefore' f (.tail _ hf)

/-- **Structs that are left under way cut a trail short.** The trail is the same with and without
them, up to the first of them that stands on it. -/
theorem found_eq (h : schema.Recurs path name trail found)
    (h' : schema.Recurs (path ++ left) name trail' found')
    (hleads : ∀ u ∈ path, Relation.TransGen schema.Embeds u name)
    (hopen : ∀ u ∈ left, ¬ schema.Founded u) (hapart : ∀ u ∈ path, u ∉ left) :
    found' = (trail.reverse.find? (· ∈ left)).getD found := by
  induction h with
  | @found path name hmem =>
    have hnone : path.reverse.find? (· ∈ left) = none :=
      List.find?_eq_none.2 fun u hu => by simpa using hapart u (List.mem_reverse.1 hu)
    rw [hnone]
    cases h' with
    | found _ => rfl
    | member hfree => exact absurd (List.mem_append_left _ hmem) hfree
  | @member path trail name t found s before rest f hfree hs horder hbefore ht hrecurs ih =>
    cases h' with
    | found hmem' =>
      have hleft : found' ∈ left := (List.mem_append.1 hmem').resolve_left hfree
      have hnone : path.reverse.find? (· ∈ left) = none :=
        List.find?_eq_none.2 fun u hu => by simpa using hapart u (List.mem_reverse.1 hu)
      obtain ⟨others, rfl⟩ := hrecurs.suffix
      simp [List.find?_append, hnone, hleft]
    | @member _ _ _ t' _ s' before' rest' f' hfree' hs' horder' hbefore' ht' hrecurs' =>
      cases hs.symm.trans hs'
      have hlists := Except.ok.inj (horder.symm.trans horder')
      have hembeds := embeds_of_wireOrder hs horder List.mem_append_cons_self ht
      have hembeds' := embeds_of_wireOrder hs horder' List.mem_append_cons_self ht'
      have hfirst : ¬ schema.Founded t := by
        refine hrecurs.not_founded_of_leads (List.forall_mem_cons.2 ⟨.inr (.single hembeds), ?_⟩)
        exact fun u hu => .inr ((hleads u hu).tail hembeds)
      have hfirst' : ¬ schema.Founded t' := by
        refine hrecurs'.not_founded_of_leads (List.forall_mem_cons.2 ⟨.inr (.single hembeds'), ?_⟩)
        intro u hu
        rcases List.mem_append.1 hu with hu | hu
        · exact .inr ((hleads u hu).tail hembeds')
        · exact .inl (hopen u hu)
      obtain rfl := first_unique hlists hbefore hbefore' ht ht' hfirst hfirst'
      refine ih hrecurs' (List.forall_mem_cons.2 ⟨.single hembeds, ?_⟩)
        (List.forall_mem_cons.2 ⟨?_, hapart⟩)
      · exact fun u hu => (hleads u hu).tail hembeds
      · exact fun hname => hfree' (List.mem_append_right _ hname)

end Schema.Recurs

/-! ## Steps of two sessions -/

/-- **A struct that is founded has one layout**, in whatever session it is finished. -/
theorem LayoutProgress.Sound.unique_of_founded {schema : Schema} (hlinked : schema.Linked)
    {p q : LayoutProgress} (hp : p.Sound schema) (hq : q.Sound schema) {name : String}
    (hfounded : schema.Founded name) {layout layout' : StructLayout}
    (h : p.struct? name = some layout) (h' : q.struct? name = some layout') : layout' = layout := by
  induction hfounded generalizing layout layout' with
  | intro name _ ih =>
    obtain ⟨hname, hlaid⟩ := hp name layout h
    obtain ⟨hname', hlaid'⟩ := hq name layout' h'
    obtain ⟨t, ht, husage, hfields⟩ := hlaid.declared
    obtain ⟨t', ht', -, hfields'⟩ := hlaid'.declared
    have htmem : t ∈ schema.structs := List.mem_of_find?_eq_some ht
    obtain rfl : t' = t := by
      rw [hname', ← hname, ht] at ht'
      exact Option.some.inj ht'.symm
    have hsizes : StructLayouts.SameSizes p.struct? q.struct? t'.members := by
      intro f hf b hb
      have hembeds : schema.Embeds name b :=
        ⟨t', htmem, hname ▸ by simpa using List.find?_some ht, f, hf, hb⟩
      obtain ⟨embedded, hembedded⟩ := hfields.exists_struct (hlinked.members t' htmem) hf hb
      obtain ⟨embedded', hembedded'⟩ := hfields'.exists_struct (hlinked.members t' htmem) hf hb
      rw [hembedded, hembedded', ih b hembeds hembedded hembedded']
    rw [hlaid.unique hlaid' (hname'.trans hname.symm) ht ht' rfl hsizes, ← husage]

namespace LayoutT

variable {schema : Schema} {left : List String} {α β : Type}

/-- A step has ended alike in a session with nothing under way and in one with structs left: with
the same result, or on the way from the same struct to one under way. -/
inductive SameEnd (schema : Schema) (left : List String) :
    Except SchemaError α × LayoutProgress → Except SchemaError α × LayoutProgress → Prop where
  | same {result : Except SchemaError α} {p q : LayoutProgress} (hp : p.Idle schema [])
      (hq : q.Idle schema left) : SameEnd schema left (result, p) (result, q)
  | caught {name found found' : String} {p q : LayoutProgress}
      (hp : schema.Recurs [] name p.underWay found)
      (hq : schema.Recurs left name q.underWay found') (hnested : q.Nested schema schema.nesting) :
      SameEnd schema left (.error (.recursiveStruct found), p) (.error (.recursiveStruct found'), q)

/-- A step ends alike in any two such sessions. -/
def Alike (schema : Schema) (left : List String) (step : LayoutM α) : Prop :=
  ∀ ⦃p q : LayoutProgress⦄, p.Idle schema [] → q.Idle schema left →
    SameEnd schema left (step.run.run p) (step.run.run q)

theorem SameEnd.map {f : α → β} {x y : Except SchemaError α × LayoutProgress}
    (h : SameEnd schema left x y) : SameEnd schema left (x.1.map f, x.2) (y.1.map f, y.2) := by
  cases h with
  | same hp hq => exact .same hp hq
  | caught hp hq hnested => exact .caught hp hq hnested

/-- The second session can go on with a further request. -/
theorem SameEnd.idle {x y : Except SchemaError α × LayoutProgress} (h : SameEnd schema left x y)
    (hopen : ∀ u ∈ left, ¬ schema.Founded u) : y.2.Idle schema y.2.underWay := by
  cases h with
  | same _ hq => exact ⟨hq.nested, rfl, hq.underWay.symm ▸ hq.unfounded⟩
  | caught _ hq hnested => exact ⟨hnested, rfl, hq.not_founded_of_mem hopen⟩

/-- The second session stays as it is unless the first has met a struct that embeds itself. -/
theorem SameEnd.idle_of_ne {x y : Except SchemaError α × LayoutProgress}
    (h : SameEnd schema left x y) (hne : ∀ name, x.1 ≠ .error (.recursiveStruct name)) :
    y.2.Idle schema left := by
  cases h with
  | same _ hq => exact hq
  | caught _ _ _ => exact absurd rfl (hne _)

/-- The second session has the result of the first, cut short by what had been left. -/
theorem SameEnd.eq_cutShort {x y : Except SchemaError α × LayoutProgress}
    (h : SameEnd schema left x y) (hopen : ∀ u ∈ left, ¬ schema.Founded u) :
    y.1 = x.1.mapError (.cutShort left x.2.underWay) := by
  cases h with
  | @same result p _ hp _ => rw [hp.underWay, SchemaError.mapError_cutShort (.inr rfl)]
  | caught hp hq _ =>
    have hname := hp.found_eq hq (fun _ hu => nomatch hu) hopen fun _ hu => nomatch hu
    rw [hname]
    rfl

theorem run_get_bind (f : LayoutProgress → LayoutM α) (p : LayoutProgress) :
    (get >>= f).run.run p = (f p).run.run p :=
  rfl

theorem alike_pure (a : α) : Alike schema left (pure a) :=
  fun _ _ hp hq => .same hp hq

theorem alike_throw (e : SchemaError) : Alike schema left (throw e : LayoutM α) :=
  fun _ _ hp hq => .same hp hq

/-- A step goes on alike after one that has ended alike. -/
theorem SameEnd.bind {x : LayoutM α} {f : α → LayoutM β} {p q : LayoutProgress}
    (hx : SameEnd schema left (x.run.run p) (x.run.run q))
    (hf : ∀ a p' q', x.Yields p a p' → x.Yields q a q' → p'.Idle schema [] → q'.Idle schema left →
      SameEnd schema left ((f a).run.run p') ((f a).run.run q')) :
    SameEnd schema left ((x >>= f).run.run p) ((x >>= f).run.run q) := by
  rw [run_bind, run_bind]
  rcases hp : x.run.run p with ⟨result, p'⟩
  rcases hq : x.run.run q with ⟨result', q'⟩
  rw [hp, hq] at hx
  cases hx with
  | same hp' hq' =>
    cases result with
    | error e => exact .same hp' hq'
    | ok a => exact hf a p' q' hp hq hp' hq'
  | caught hp' hq' hnested => exact .caught hp' hq' hnested

theorem Alike.bind {x : LayoutM α} {f : α → LayoutM β} (hx : x.Alike schema left)
    (hf : ∀ a, (f a).Alike schema left) : (x >>= f).Alike schema left :=
  fun _ _ hp hq => (hx hp hq).bind fun a _ _ _ _ hp' hq' => hf a hp' hq'

theorem Alike.discard {x : LayoutM α} (hx : x.Alike schema left) :
    Alike schema left (discard x) := by
  rw [Functor.discard, map_const, Function.comp_apply, ← bind_pure_comp]
  exact hx.bind fun _ => alike_pure ()

end LayoutT

section Alike

variable {schema : Schema} {left : List String} (hchecked : schema.Checked)
  (hlinked : schema.Linked)

theorem alike_requirePlaced (f : Field) (count : String) (placed : List String) (place : Place) :
    (requirePlaced f count placed place).Alike schema left := by
  unfold requirePlaced
  split
  · exact LayoutT.alike_pure ()
  · exact LayoutT.alike_throw _

/-- A struct that is not declared is refused by every session. -/
theorem run_sizeOfStruct_of_undeclared {depth : Nat} {name user : String} {p : LayoutProgress}
    (hp : p.Nested schema depth) (hname : name ∉ schema.structs.map (·.name)) (room : Nat) :
    (sizeOfStruct schema room name user : LayoutM WireSize).run.run p =
      (.error (.missingStructType user (some name) (.service schema.service)), p) := by
  have hdeclared : schema.struct? name = none := by
    refine List.find?_eq_none.2 fun t ht htname => hname ?_
    exact List.mem_map.2 ⟨t, ht, by simpa using htname⟩
  have hfinished : p.struct? name = none := by
    refine Option.eq_none_iff_forall_ne_some.2 fun layout hlayout => ?_
    obtain ⟨rfl, ⟨t, ht, -⟩, -⟩ := hp.sound name layout hlayout
    cases hdeclared.symm.trans ht
  have hfree : name ∉ p.underWay := fun hmem => hname (hp.declared hmem)
  unfold sizeOfStruct
  rw [LayoutT.run_get_bind, hfinished]
  dsimp only
  rw [if_neg hfree, hdeclared]
  rfl

include hchecked hlinked

/-- **Sizing a struct ends alike.** -/
theorem alike_sizeOfStruct (name user : String) :
    (sizeOfStruct schema schema.nesting name user).Alike schema left := by
  intro p q hp hq
  by_cases hname : name ∈ schema.structs.map (·.name)
  · have hends := ends_sizeOfStruct hchecked hlinked schema.nesting name user p hp.nested hname
    have hends' := ends_sizeOfStruct hchecked hlinked schema.nesting name user q hq.nested hname
    have hgood := sizeOfStruct_good schema schema.nesting name user
    rw [hp.underWay] at hends
    rw [hq.underWay] at hends'
    rcases hrun : (sizeOfStruct schema schema.nesting name user).run.run p with ⟨e | size, p'⟩ <;>
    rcases hrun' : (sizeOfStruct schema schema.nesting name user).run.run q with ⟨e' | size', q'⟩
    · obtain ⟨-, found, rfl, hrecurs⟩ := hends.fails e p' hrun
      obtain ⟨hnested, found', rfl, hrecurs'⟩ := hends'.fails e' q' hrun'
      exact .caught hrecurs hrecurs' hnested
    · obtain ⟨-, found, rfl, hrecurs⟩ := hends.fails e p' hrun
      obtain ⟨-, hgrown', layout', hlayout', -⟩ := hgood hrun' hq.nested.sound
      have hnested' := hends'.yields size' q' hrun'
      exact absurd (hnested'.founded name layout' hlayout') (hrecurs.not_founded hp.unfounded)
    · obtain ⟨-, found', rfl, hrecurs'⟩ := hends'.fails e' q' hrun'
      obtain ⟨-, hgrown, layout, hlayout, -⟩ := hgood hrun hp.nested.sound
      have hnested := hends.yields size p' hrun
      exact absurd (hnested.founded name layout hlayout) (hrecurs'.not_founded hq.unfounded)
    · obtain ⟨-, hgrown, layout, hlayout, rfl⟩ := hgood hrun hp.nested.sound
      obtain ⟨-, hgrown', layout', hlayout', rfl⟩ := hgood hrun' hq.nested.sound
      have hnested := hends.yields _ p' hrun
      have hnested' := hends'.yields _ q' hrun'
      rw [hnested.sound.unique_of_founded hlinked hnested'.sound
        (hnested.founded name layout hlayout) hlayout hlayout']
      exact .same (hp.of_grown hnested hgrown) (hq.of_grown hnested' hgrown')
  · rw [run_sizeOfStruct_of_undeclared hp.nested hname,
      run_sizeOfStruct_of_undeclared hq.nested hname]
    exact .same hp hq

/-- So does sizing any field, whether it is linked or not. -/
theorem alike_fieldSize (placed : List String) (place : Place) (f : Field) :
    (fieldSize (sizeOfStruct schema schema.nesting) placed place f).Alike schema left := by
  have hsize : ∀ t, (sizeOfStruct schema schema.nesting t f.name).Alike schema left :=
    fun t => alike_sizeOfStruct hchecked hlinked t f.name
  unfold fieldSize
  split
  · exact LayoutT.alike_pure _
  · exact (alike_requirePlaced f _ placed place).bind fun _ => LayoutT.alike_pure _
  · exact hsize _
  · exact hsize _
  · exact (alike_requirePlaced f _ placed place).bind fun _ =>
      (hsize _).bind fun _ => LayoutT.alike_pure _
  · exact (alike_requirePlaced f _ placed place).bind fun _ =>
      (hsize _).discard.bind fun _ => LayoutT.alike_pure _
  · split
    · exact LayoutT.alike_pure _
    · split
      · exact LayoutT.alike_throw _
      · exact LayoutT.alike_throw _

theorem alike_sizeFields (place : Place) (placed : List String) (fields : List Field) :
    (sizeFields (sizeOfStruct schema schema.nesting) place placed fields).Alike schema left := by
  induction fields generalizing placed with
  | nil => exact LayoutT.alike_pure _
  | cons f rest ih =>
    refine (alike_fieldSize hchecked hlinked placed place f).bind fun size => ?_
    exact (ih (f.name :: placed)).bind fun others => LayoutT.alike_pure _

theorem alike_layoutList (ordered : List Field) (header : Nat) (place : Place) :
    (layoutList (sizeOfStruct schema schema.nesting) ordered header place).Alike schema left := by
  rw [layoutList_eq, ← bind_pure_comp]
  exact (alike_sizeFields hchecked hlinked place [] ordered).bind fun _ => LayoutT.alike_pure _

theorem alike_layoutStruct (name : String) : (layoutStruct schema name).Alike schema left := by
  intro p q hp hq
  have hsize := (alike_sizeOfStruct hchecked hlinked name name).discard hp hq
  refine hsize.bind fun _ p' q' hyields hyields' hp' hq' => ?_
  have hgood := sizeOfStruct_good schema schema.nesting name name
  obtain ⟨_, hyields, -⟩ := LayoutT.yields_map.1 hyields
  obtain ⟨_, hyields', -⟩ := LayoutT.yields_map.1 hyields'
  obtain ⟨-, -, layout, hlayout, -⟩ := hgood hyields hp.nested.sound
  obtain ⟨-, -, layout', hlayout', -⟩ := hgood hyields' hq.nested.sound
  obtain rfl := hp'.nested.sound.unique_of_founded hlinked hq'.nested.sound
    (hp'.nested.founded name layout hlayout) hlayout hlayout'
  rw [LayoutT.run_get_bind, LayoutT.run_get_bind, hlayout, hlayout']
  exact .same hp' hq'

/-! ## Requests of two sessions -/

/-- **Every request ends alike.** -/
theorem LayoutSession.sameEnd_answer {p q : LayoutProgress} (hp : p.Idle schema [])
    (hq : q.Idle schema left) (request : LayoutRequest) :
    LayoutT.SameEnd schema left
      ((answer ⟨schema, p⟩ request).1, (answer ⟨schema, p⟩ request).2.progress)
      ((answer ⟨schema, q⟩ request).1, (answer ⟨schema, q⟩ request).2.progress) := by
  cases request with
  | struct name => exact (alike_layoutStruct hchecked hlinked name hp hq).map
  | fields ordered header place =>
    exact (alike_layoutList hchecked hlinked ordered header place hp hq).map

end Alike

namespace LayoutSession

variable {schema : Schema}

/-- What every request keeps, all of them together keep. -/
theorem after_keeps (keeps : LayoutProgress → Prop) {requests : List LayoutRequest}
    (hstep : ∀ request ∈ requests, ∀ p, keeps p → keeps (answer ⟨schema, p⟩ request).2.progress)
    {p : LayoutProgress} (hp : keeps p) :
    ∃ q, after ⟨schema, p⟩ requests = ⟨schema, q⟩ ∧ keeps q := by
  induction requests generalizing p with
  | nil => exact ⟨p, rfl, hp⟩
  | cons request rest ih =>
    have hnext : (answer ⟨schema, p⟩ request).2 =
        ⟨schema, (answer ⟨schema, p⟩ request).2.progress⟩ := by
      cases request <;> rfl
    obtain ⟨q, hq, hkeeps⟩ := ih (fun r hr => hstep r (.tail _ hr)) (hstep request (.head _) p hp)
    refine ⟨q, ?_, hkeeps⟩
    rw [after, List.foldl_cons, hnext]
    exact hq

variable (hchecked : schema.Checked) (hlinked : schema.Linked)

include hchecked hlinked

/-- Requests leave a session at rest, whatever they leave under way. -/
theorem idle_after (requests : List LayoutRequest) :
    ∃ q, after ⟨schema, {}⟩ requests = ⟨schema, q⟩ ∧ q.Idle schema q.underWay := by
  refine after_keeps (fun q => q.Idle schema q.underWay) (fun request _ q hq => ?_)
    (LayoutProgress.idle_empty schema)
  exact (sameEnd_answer hchecked hlinked (LayoutProgress.idle_empty schema) hq request).idle
    hq.unfounded

/-- Requests that meet no struct that embeds itself leave nothing under way. -/
theorem idle_after_of_ne (requests : List LayoutRequest)
    (hrequests : ∀ request ∈ requests, ∀ name,
      (answer ⟨schema, {}⟩ request).1 ≠ .error (.recursiveStruct name)) :
    ∃ q, after ⟨schema, {}⟩ requests = ⟨schema, q⟩ ∧ q.Idle schema [] := by
  refine after_keeps (·.Idle schema []) (fun request hrequest q hq => ?_)
    (LayoutProgress.idle_empty schema)
  exact (sameEnd_answer hchecked hlinked (LayoutProgress.idle_empty schema) hq request).idle_of_ne
    (hrequests request hrequest)

end LayoutSession

/-- **What a session answers after other requests.** In a session for a checked schema that has been
asked for anything before, in vain or not, every request has the answer that it has in a fresh one,
the same layout or the same error, but for the name of the struct where the fresh session comes to
one that embeds itself: this is cut short by the structs that had been left under way. If the fresh
session meets no such struct at any of the requests before, the answer is the same. -/
theorem LayoutSession.answer_after {e : Expanded} {options : Options} {schema : Schema}
    (h : Schema.ofExpanded e options = .ok schema) (history : List LayoutRequest)
    (request : LayoutRequest) :
    let fresh : LayoutSession := { schema }
    let used := fresh.after history
    (used.answer request).1 = (fresh.answer request).1.mapError
        (.cutShort used.progress.underWay (fresh.answer request).2.progress.underWay) ∧
      ((∀ earlier ∈ history, ∀ name,
          (fresh.answer earlier).1 ≠ .error (.recursiveStruct name)) →
        (used.answer request).1 = (fresh.answer request).1) := by
  intro fresh used
  have hchecked := (Schema.checked_ofExpanded h).1
  have hlinked := (Schema.linked_ofExpanded h).2
  have hfresh := LayoutProgress.idle_empty schema
  constructor
  · obtain ⟨q, hq, hidle⟩ := idle_after hchecked hlinked history
    have hused : used = ⟨schema, q⟩ := hq
    rw [hused]
    exact (sameEnd_answer hchecked hlinked hfresh hidle request).eq_cutShort hidle.unfounded
  · intro hhistory
    obtain ⟨q, hq, hidle⟩ := idle_after_of_ne hchecked hlinked history hhistory
    have hused : used = ⟨schema, q⟩ := hq
    rw [hused, (sameEnd_answer hchecked hlinked hfresh hidle request).eq_cutShort hidle.unfounded]
    exact SchemaError.mapError_cutShort (.inl rfl) _

/-- A struct that embeds one that embeds itself. -/
def loopExpanded : Expanded where
  names := { service? := some "S" }
  structs := [
    ⟨"Outer", [{ name := "inner", format := "struct", structType? := some "Inner" }]⟩,
    ⟨"Inner", [{ name := "self", format := "struct", structType? := some "Inner" }]⟩]

/-- Its schema. -/
def loopSchema : Schema where
  service := "S"
  variant := .fixed
  messages := []
  structs := [
    { name := "Outer"
      members := [{ name := "inner", format := .struct, structType? := some "Inner" }]
      usage := {} },
    { name := "Inner"
      members := [{ name := "self", format := .struct, structType? := some "Inner" }]
      usage := { embedded := true } }]

/-- Asked for the outer struct, a fresh session names the inner one, which embeds itself; asked
again, it names the outer one, which does not. -/
theorem answer_after_loop :
    Schema.ofExpanded loopExpanded {} = .ok loopSchema ∧
      (LayoutSession.answer { schema := loopSchema } (.struct "Outer")).1 =
        .error (.recursiveStruct "Inner") ∧
      ((LayoutSession.after { schema := loopSchema } [.struct "Outer"]).answer
        (.struct "Outer")).1 = .error (.recursiveStruct "Outer") := by
  have hschema : Schema.ofExpanded loopExpanded {} = .ok loopSchema :=
    toOption_eq_some.1 (by decide +kernel)
  have hfresh : (LayoutSession.answer { schema := loopSchema } (.struct "Outer")).1 =
      .error (.recursiveStruct "Inner") := by decide +kernel
  have hcut := (LayoutSession.answer_after hschema [.struct "Outer"] (.struct "Outer")).1
  rw [hfresh] at hcut
  refine ⟨hschema, hfresh, hcut.trans ?_⟩
  decide +kernel

/-- So requests before may change an answer. -/
theorem not_forall_answer_after :
    ¬ ∀ (e : Expanded) (options : Options) (schema : Schema),
      Schema.ofExpanded e options = .ok schema →
        ∀ (history : List LayoutRequest) (request : LayoutRequest),
          ((LayoutSession.after { schema } history).answer request).1 =
            (LayoutSession.answer { schema } request).1 := by
  intro hall
  have hschema : Schema.ofExpanded loopExpanded {} = .ok loopSchema :=
    toOption_eq_some.1 (by decide +kernel)
  have hsame := hall loopExpanded {} loopSchema hschema [.struct "Outer"] (.struct "Outer")
  have hother : ((LayoutSession.after { schema := loopSchema } [.struct "Outer"]).answer
      (.struct "Outer")).1 ≠
        (LayoutSession.answer { schema := loopSchema } (.struct "Outer")).1 := by
    decide +kernel
  exact hother hsame

end WirePlan
