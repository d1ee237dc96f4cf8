import WirePlan.Plan.Generation
import WirePlan.Proofs.Outcome

/-!
# A source as its characters

The plan of a source that is written out can be computed from its characters, with no text in
between (`Plan.ofSource_ofList`).
-/

namespace WirePlan

/-- The plan of a source comes from the records that its characters make. -/
theorem Plan.ofSource_ofList (cs : List Char) (options : Options) :
    ofSource (.ofList cs) options =
      (Source.recordsOfChars cs >>= fun records => Declarations.ofRecords records >>=
        fun d => d.expand >>= (Schema.ofExpanded · options) >>= ofSchema) := by
  rw [ofSource_eq, Schema.ofSource, Declarations.ofSource, Source.records, String.toList_ofList]
  simp only [bind_assoc]

end WirePlan
