import WirePlan.Plan.Emission
import WirePlan.Text.Numeral

/-!
# The listing of a plan

A backend that writes a plan as text: a line for the service, a paragraph for each struct and for
each message, and a line for each field with its offset, format, links, size and conditions. A
verbose listing also tells how structs are used and which template a field comes from.
-/

namespace WirePlan

namespace Listing

/-- The struct of a field and the sibling that counts its elements. -/
def linksText (f : Field) : String :=
  f.structType?.elim "" (" <" ++ · ++ ">") ++ f.sizeField?.elim "" (" x " ++ ·)

/-- The tag of a field, if it has one. -/
def tagText : Option UInt8 → String
  | some t => " [0x" ++ Text.paddedHexadecimal 2 t.toNat ++ "]"
  | none => ""

/-- The conditions of a gated field. -/
def conditionText (f : Field) : String :=
  if f.isConditional then "  if " ++ " && ".intercalate (f.prerequisites.map (·.text)) else ""

/-- The template that a field comes from. -/
def originText (verbose : Bool) (f : Field) : String :=
  match verbose, f.origin? with
  | true, some o => "  (from " ++ o ++ ")"
  | _, _ => ""

/-- The line of a field. -/
def fieldLine (verbose : Bool) (indent : String) (f : PlacedField) : String :=
  indent ++ "@" ++ f.offset.text ++ "  " ++ f.name ++ ": " ++ f.format.tag ++ tagText f.tag? ++
    linksText f.toField ++ "  size " ++ f.size.text ++
    (if f.mandatory then "  mandatory" else "") ++ conditionText f.toField ++
    originText verbose f.toField ++ "\n"

/-- The line of the service. -/
def headLine (p : Plan) : String :=
  "service " ++ p.service ++ " (" ++ p.variant.name ++ ")" ++
    (p.client?.elim "" (" client " ++ ·)) ++ (p.messageIds?.elim "" (" ids " ++ ·)) ++ "\n"

/-- How a struct is used. -/
def usageText (u : StructUsage) : String :=
  match u.embedded, u.arrayMember with
  | true, true => "embedded, array member"
  | true, false => "embedded"
  | false, true => "array member"
  | false, false => "unused"

/-- The paragraph of a struct. -/
def structText (verbose : Bool) (s : StructLayout) : String :=
  "\nstruct " ++ s.name ++ "  size " ++ s.size.text ++
    (if verbose then "  (" ++ usageText s.usage ++ ")" else "") ++ "\n" ++
    .join (s.members.map (fieldLine verbose "  "))

/-- The lines of a container. -/
def containerText (verbose : Bool) (c : ContainerLayout) : String :=
  "  " ++ c.kind.name ++ "  end " ++ c.endOffset.text ++ "\n" ++
    .join (c.fields.map (fieldLine verbose "    "))

/-- The paragraph of a message. -/
def messageText (verbose : Bool) (m : MessageLayout) : String :=
  "\nmessage " ++ m.name ++ " (0x" ++ Text.paddedHexadecimal 4 m.id.toNat ++ ") service " ++
    m.service ++ "\n" ++ .join (m.containers.map (containerText verbose))

/-- The templates that the fields of a message come from. -/
def origins (m : MessageLayout) : List Claim :=
  (m.containers.flatMap (·.fields)).filterMap fun f => f.origin?.map (⟨.fragment, ·⟩)

/-- Appends a text to the listing. -/
def write (text : String) : StateM String Unit := modify (· ++ text)

/-- The backend that writes the listing. It claims the templates that it comes across. -/
def backend (verbose : Bool) : Backend (StateM String) where
  begin p := write (headLine p)
  emitStruct s _ := do
    write (structText verbose s)
    return []
  emitMessage m _ := do
    write (messageText verbose m)
    return origins m
  finish _ := pure ()

end Listing

/-- What a listing claims, and its text. -/
def Plan.list (p : Plan) (verbose : Bool) : Registry × String :=
  (emit (Listing.backend verbose) p).run ""

/-- The listing of a plan. -/
def Plan.listing (p : Plan) (verbose : Bool) : String := (p.list verbose).2

end WirePlan
