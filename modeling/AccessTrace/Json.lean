import AccessTrace.Json.Token
import AccessTrace.Text

/-!
JSON values: reading them from text, and printing them over several lines. A value keeps strings and
numbers as they are written. The reader holds the containers it is inside of in a list, so that the
depth of a value does not matter.
-/

namespace AccessTrace.Json

inductive Value
  | null
  | bool (b : Bool)
  | number (literal : List Char)
  | string (body : List Char)
  | array (items : List Value)
  | object (members : List (List Char × Value))

abbrev Member := List Char × Value

/-- A container that is not complete yet; what it holds so far stands last first. -/
inductive Frame
  | array (items : List Value)
  | object (members : List Member) (key : List Char)

inductive State
  | value (outer : List Frame)
  | firstItem (outer : List Frame)
  | firstKey (outer : List Frame)
  | key (members : List Member) (outer : List Frame)
  | colon (members : List Member) (key : List Char) (outer : List Frame)
  | afterItem (items : List Value) (outer : List Frame)
  | afterMember (members : List Member) (outer : List Frame)
  | finished (v : Value)

namespace State

def complete (v : Value) : List Frame → State
  | [] => finished v
  | .array items :: outer => afterItem (v :: items) outer
  | .object members name :: outer => afterMember ((name, v) :: members) outer

def begin? (outer : List Frame) : Token → Option State
  | .null => some (complete .null outer)
  | .bool b => some (complete (.bool b) outer)
  | .number literal => some (complete (.number literal) outer)
  | .string body => some (complete (.string body) outer)
  | .openBracket => some (firstItem outer)
  | .openBrace => some (firstKey outer)
  | _ => none

def step? : State → Token → Option State
  | value outer, t => begin? outer t
  | firstItem outer, .closeBracket => some (complete (.array []) outer)
  | firstItem outer, t => begin? (.array [] :: outer) t
  | firstKey outer, .closeBrace => some (complete (.object []) outer)
  | firstKey outer, .string body => some (colon [] body outer)
  | key members outer, .string body => some (colon members body outer)
  | colon members name outer, .colon => some (value (.object members name :: outer))
  | afterItem items outer, .comma => some (value (.array items :: outer))
  | afterItem items outer, .closeBracket => some (complete (.array items.reverse) outer)
  | afterMember members outer, .comma => some (key members outer)
  | afterMember members outer, .closeBrace => some (complete (.object members.reverse) outer)
  | _, _ => none

end State

namespace Value

def ofTokens? (tokens : List Token) : Option Value :=
  match tokens.foldlM State.step? (.value []) with
  | some (.finished v) => some v
  | _ => none

def ofText? (text : List Char) : Option Value :=
  (Token.ofText? text).bind ofTokens?

/-- Reads the bytes of a document. Only a string that nobody asks for may be ill-formed UTF-8. -/
def ofBytes? (bytes : Bytes) : Option Value :=
  ofText? (AccessTrace.Text.Utf8.mend Text.unreadable bytes)

def ofString (s : String) : Value :=
  .string (Text.escape s.toList)

def ofWord (w : UInt64) : Value :=
  .number (toString w.toNat).toList

def string? : Value → Option String
  | .string body => (Text.unescape body).map String.ofList
  | _ => none

/-- The number of a literal that is a whole number below `2 ^ 64`, written without a sign. -/
def word? : Value → Option UInt64
  | .number literal =>
    if literal.all Token.isDigit then
      let n := literal.foldl (fun n c => 10 * n + (c.toNat - '0'.toNat)) 0
      if n < UInt64.size then some (UInt64.ofNat n) else none
    else none
  | _ => none

def array? : Value → Option (List Value)
  | .array items => some items
  | _ => none

/-- The value of a field, which may be missing but not stand twice. -/
def field? (members : List (String × Value)) (name : String) : Option (Option Value) :=
  match members.filter fun (key, _) => key == name with
  | [] => some none
  | [(_, v)] => some (some v)
  | _ => none

/-- The values of some fields of an object, which may have others besides. An array gives them in
their order and may leave out the last ones. -/
def fields? (names : List String) : Value → Option (List (Option Value))
  | .object members => do
    let members ← members.mapM fun (key, v) => do
      let key ← Text.unescape key
      return (String.ofList key, v)
    names.mapM (field? members)
  | .array items =>
    if items.length ≤ names.length then
      some (items.map some ++ List.replicate (names.length - items.length) none)
    else none
  | _ => none

def newline (depth : Nat) : List Char :=
  '\n' :: List.replicate (2 * depth) ' '

mutual

/-- The text of a value, one item or member a line, indented by two blanks for each container. -/
def pretty (depth : Nat) : Value → List Char
  | .null => ['n', 'u', 'l', 'l']
  | .bool true => ['t', 'r', 'u', 'e']
  | .bool false => ['f', 'a', 'l', 's', 'e']
  | .number literal => literal
  | .string body => '"' :: body ++ ['"']
  | .array [] => ['[', ']']
  | .array (v :: rest) =>
    '[' :: newline (depth + 1) ++ pretty (depth + 1) v ++ prettyItems depth rest
  | .object [] => ['\x7b', '\x7d']
  | .object ((key, v) :: rest) =>
    '\x7b' :: newline (depth + 1) ++ '"' :: key ++ '"' :: ':' :: ' ' :: pretty (depth + 1) v ++
      prettyMembers depth rest

def prettyItems (depth : Nat) : List Value → List Char
  | [] => newline depth ++ [']']
  | v :: rest => ',' :: newline (depth + 1) ++ pretty (depth + 1) v ++ prettyItems depth rest

def prettyMembers (depth : Nat) : List (List Char × Value) → List Char
  | [] => newline depth ++ ['\x7d']
  | (key, v) :: rest =>
    ',' :: newline (depth + 1) ++ '"' :: key ++ '"' :: ':' :: ' ' :: pretty (depth + 1) v ++
      prettyMembers depth rest

end

def text (v : Value) : List Char :=
  v.pretty 0

end Value

end AccessTrace.Json
