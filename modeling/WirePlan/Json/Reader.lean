import WirePlan.Json.Lexeme

/-!
# Reading a JSON array

The reader takes one lexeme at a time. Its state is the stack of arrays and objects that are open
and what may come next; a lexeme that may not come next fails at its first character, and a text
that ends too early fails at its end. A failure is told by what is left of the text behind the
offending character.
-/

namespace WirePlan.Json

/-- An array or object that is open, with what it holds so far. -/
inductive Frame where
  /-- The items, the last one first. -/
  | array (items : List Json)
  /-- The members that are complete and the key of the one being read. -/
  | object (members : Keyed Json) (key : String)

/-- What may come next. -/
inductive Expected where
  /-- The bracket that opens the outermost array. -/
  | top
  /-- The first item of an array, or its end. -/
  | itemOrEnd
  /-- A value. -/
  | value
  /-- The first key of an object, or its end. -/
  | keyOrEnd
  /-- A key. -/
  | key
  /-- The colon behind a key. -/
  | colon
  /-- A comma, or the end of the innermost array or object. -/
  | commaOrEnd
  /-- Nothing: the outermost array is complete. -/
  | nothing
  deriving DecidableEq, Repr

/-- The state between two lexemes. -/
structure Reading where
  /-- The open arrays and objects, innermost first. -/
  stack : List Frame
  expected : Expected
  /-- The items of the outermost array, once it is complete. -/
  result : List Json

/-- The state before the first lexeme. -/
def Reading.initial : Reading := ⟨[], .top, []⟩

/-- As many arrays and objects may be open at once. -/
def nestingLimit : Nat := 127

/-- A value is complete: it joins the innermost array or object. -/
def Reading.complete (r : Reading) (v : Json) : Reading :=
  match r.stack with
  | .array items :: outer =>
    { r with stack := .array (v :: items) :: outer, expected := .commaOrEnd }
  | .object members key :: outer =>
    { r with stack := .object (members.insert key v) key :: outer, expected := .commaOrEnd }
  | [] => r

/-- An array or object opens. -/
def Reading.enter (r : Reading) (frame : Frame) (expected : Expected) (rest : Rest) :
    Except Rest Reading :=
  if r.stack.length < nestingLimit then
    .ok { r with stack := frame :: r.stack, expected := expected }
  else .error rest

/-- The innermost array closes. -/
def Reading.closeArray (r : Reading) (rest : Rest) : Except Rest Reading :=
  match r.stack with
  | [.array items] => .ok ⟨[], .nothing, items.reverse⟩
  | .array items :: outer => .ok ({ r with stack := outer }.complete (.array items.reverse))
  | _ => .error rest

/-- The innermost object closes. -/
def Reading.closeObject (r : Reading) (rest : Rest) : Except Rest Reading :=
  match r.stack with
  | .object members _ :: outer => .ok ({ r with stack := outer }.complete (.object members))
  | _ => .error rest

/-- A mark where a value may stand. -/
def Reading.openMark (r : Reading) (m : Mark) (rest : Rest) : Except Rest Reading :=
  match m with
  | .openArray => r.enter (.array []) .itemOrEnd rest
  | .openObject => r.enter (.object [] "") .keyOrEnd rest
  | _ => .error rest

/-- A value where one may stand. -/
def Reading.readValue (r : Reading) : Lexeme → Except Rest Reading
  | .mark m rest => r.openMark m rest
  | .text _ (.ok s) => .ok (r.complete (.string s))
  | .text _ (.error e) => .error e
  | .scalar _ (.ok v) => .ok (r.complete v)
  | .scalar _ (.error e) => .error e
  | .stray rest => .error rest

/-- A key where one may stand. -/
def Reading.readKey (r : Reading) : Lexeme → Except Rest Reading
  | .text rest (.ok s) =>
    match r.stack with
    | .object members _ :: outer =>
      .ok { r with stack := .object members s :: outer, expected := .colon }
    | _ => .error rest
  | .text _ (.error e) => .error e
  | l => .error l.rest

/-- The next lexeme. -/
def Reading.step (r : Reading) (l : Lexeme) : Except Rest Reading :=
  match r.expected, l with
  | .top, .mark .openArray rest => r.enter (.array []) .itemOrEnd rest
  -- A malformed scalar in place of the outermost array fails where it is malformed.
  | .top, .text _ (.error e) => .error e
  | .top, .scalar _ (.error e) => .error e
  | .itemOrEnd, .mark .closeArray rest => r.closeArray rest
  | .itemOrEnd, l => r.readValue l
  | .value, l => r.readValue l
  | .keyOrEnd, .mark .closeObject rest => r.closeObject rest
  | .keyOrEnd, l => r.readKey l
  | .key, l => r.readKey l
  | .colon, .mark .colon _ => .ok { r with expected := .value }
  | .commaOrEnd, .mark .comma rest =>
    match r.stack with
    | .array _ :: _ => .ok { r with expected := .value }
    | .object _ _ :: _ => .ok { r with expected := .key }
    | [] => .error rest
  | .commaOrEnd, .mark .closeArray rest => r.closeArray rest
  | .commaOrEnd, .mark .closeObject rest => r.closeObject rest
  | _, l => .error l.rest

/-- All lexemes from a state on. -/
def Reading.run : Reading → List Lexeme → Except Rest Reading
  | r, [] => .ok r
  | r, l :: ls =>
    match r.step l with
    | .ok r => r.run ls
    | .error e => .error e

/-- The items of the array that a text holds; `.error` tells what is left of the text behind the
offending character. -/
def readArray (cs : List Char) : Except Rest (List Json) :=
  match Reading.initial.run (lex cs) with
  | .ok r => if r.expected = .nothing then .ok r.result else .error []
  | .error e => .error e

end WirePlan.Json
