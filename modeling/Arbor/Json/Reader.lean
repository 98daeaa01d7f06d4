import Arbor.Json.Token

/-!
# From tokens to values

`Json.Document.ofText` builds the value of a text, token by token, with the containers that are still open on a stack.
The first fault ends the value: it is left where it was met, and every open container is closed over it.
-/

namespace Arbor

namespace Json

namespace Reader

/-- A container that is still open, with its parts so far, the last one first. -/
inductive Frame where
  | array (items : List Json)
  /-- An object, and the name of the member whose value is still to come. -/
  | object (members : List (Key × Json)) (key : Option Key)
deriving Repr

/-- What may come next. -/
inductive Expect where
  | value
  /-- A value, or the end of an array that has none yet. -/
  | firstItem
  | key
  /-- A name, or the end of an object that has none yet. -/
  | firstKey
  | colon
  | separator
deriving DecidableEq, Repr

/-- How far the text has been read. -/
inductive Progress where
  | underway (frames : List Frame) (expect : Expect)
  /-- The value has come to its end; `trailing` if the text goes on behind it. -/
  | whole (value : Json) (trailing : Bool)
deriving Repr

namespace Frame

/-- Puts a value into an open container. -/
def add (v : Json) : Frame → Frame
  | array items => array (v :: items)
  | object members key => object ((key.getD (.error .malformed), v) :: members) none

/-- The container, closed, or ended by a fault. -/
def close (fault : Option JsonFault) : Frame → Json
  | array items => .array items.reverse fault
  | object members _ => .object members.reverse fault

end Frame

/-- Hands a complete value to the innermost open container. -/
def give (frames : List Frame) (v : Json) : Progress :=
  match frames with
  | [] => .whole v false
  | frame :: rest => .underway (frame.add v :: rest) .separator

/-- Closes all open containers over a value that ends in a fault. -/
def closeAll (fault : JsonFault) : List Frame → Json → Json
  | [], v => v
  | frame :: rest, v => closeAll fault rest ((frame.add v).close (some fault))

/-- The text stops being JSON where a value has to be. -/
def stop (frames : List Frame) (read skipped : JsonFault) : Progress :=
  .whole (closeAll skipped frames (.broken read skipped)) false

/-- The text stops being JSON between the parts of the innermost container. -/
def refuse (frames : List Frame) (fault : JsonFault) : Progress :=
  match frames with
  | [] => stop [] fault fault
  | frame :: rest => .whole (closeAll fault rest (frame.close (some fault))) false

/-- Takes in a token where a value has to be. -/
def takeValue (frames : List Frame) : Token → Progress
  | .openArray => .underway (.array [] :: frames) .firstItem
  | .openObject => .underway (.object [] none :: frames) .firstKey
  | .text (.ok s) => give frames (.string s)
  | .text (.error fault) => give frames (.unreadable fault)
  | .word v => give frames v
  | .broken _ read skipped => stop frames read skipped
  | _ => stop frames .malformed .malformed

/-- Takes in a token where the name of a member has to be. -/
def takeKey (frames : List Frame) (t : Token) : Progress :=
  match frames, t with
  | .object members _ :: rest, .text key => .underway (.object members (some key) :: rest) .colon
  | .object members _ :: rest, .broken true read skipped =>
    refuse (.object ((.error read, .null) :: members) none :: rest) skipped
  | _, _ => refuse frames .malformed

/-- Takes in a token behind a part of a container. -/
def takeSeparator (frames : List Frame) (t : Token) : Progress :=
  match frames, t with
  | .array _ :: _, .comma => .underway frames .value
  | .object _ _ :: _, .comma => .underway frames .key
  | .array items :: rest, .closeArray => give rest (Frame.close none (.array items))
  | .object members key :: rest, .closeObject => give rest (Frame.close none (.object members key))
  | _, _ => refuse frames .malformed

/-- Takes in the next token. -/
def take : Progress → Token → Progress
  | .whole v _, _ => .whole v true
  | .underway frames expect, t =>
    match expect with
    | .value => takeValue frames t
    | .firstItem =>
      match frames, t with
      | frame :: rest, .closeArray => give rest (frame.close none)
      | _, _ => takeValue frames t
    | .key => takeKey frames t
    | .firstKey =>
      match frames, t with
      | frame :: rest, .closeObject => give rest (frame.close none)
      | _, _ => takeKey frames t
    | .colon =>
      match t with
      | .colon => .underway frames .value
      | _ => stop frames .malformed .malformed
    | .separator => takeSeparator frames t

/-- Takes in the end of the text. -/
def finish : Progress → Progress
  | .whole v trailing => .whole v trailing
  | .underway frames expect =>
    match expect with
    | .value => stop frames .unfinished .unfinished
    | .colon => stop frames .unfinished .unfinished
    | _ => refuse frames .unfinished

end Reader

/-- A text as a JSON value. -/
structure Document where
  root : Json
  /-- Something stands behind the value. -/
  trailing : Bool
deriving Repr

namespace Document

/-- Reads a text. -/
def ofText (text : String) : Document :=
  match Reader.finish ((Token.ofText text).foldl Reader.take (.underway [] .value)) with
  | .whole v trailing => ⟨v, trailing⟩
  | .underway _ _ => ⟨.broken .unfinished .unfinished, false⟩

/-- What a reader of values makes of a document that has nothing behind its value. -/
def decode {β : Type} (d : Document) (read : Json → Except JsonFault β) : Except JsonFault β := do
  let v ← read d.root
  if d.trailing then throw .malformed
  return v

end Document

end Json

end Arbor
