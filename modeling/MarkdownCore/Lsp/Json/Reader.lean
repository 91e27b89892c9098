import MarkdownCore.Lsp.Json.Grammar

/-!
# Reading JSON

The reader goes down the text and appends each value to a row of values in document order, a
container before its members, an object's names among them. A container's `«end»`, the index after
its last descendant, is written when the container closes. Whether storage can be had is asked of
`storage`, by the bytes that are needed.
-/

namespace MarkdownCore.Json

/-- `json_kind`. -/
inductive Kind where
  | null
  | no
  | yes
  | number
  | string
  | array
  | object
deriving DecidableEq

/-- `json_value`. -/
structure Value where
  kind : Kind
  stop : ℕ
  start : ℕ
  size : ℕ
deriving DecidableEq

/-- `json_read_status`, of a read that did not answer OK. -/
inductive Status where
  | malformed
  | failed
deriving DecidableEq

/-- `json_tree`. -/
structure Tree where
  values : List Value
  bytes : List UInt8

/-- A tree as it is read, and the text that is left. -/
structure Reader where
  values : List Value
  bytes : List UInt8
  text : List UInt8

namespace Reader

variable (storage : ℕ → Bool)

/-- `push`. -/
def push (r : Reader) (kind : Kind) : Except Status Reader :=
  if storage ((r.values.length + 1) * 32) then
    .ok { r with values := r.values ++ [⟨kind, r.values.length + 1, r.bytes.length, 0⟩] }
  else .error .failed

/-- `put`. -/
def put (r : Reader) (bytes : List UInt8) : Except Status Reader :=
  if bytes = [] then .ok r
  else if storage (r.bytes.length + bytes.length) then .ok { r with bytes := r.bytes ++ bytes }
  else .error .failed

/-- `skip_space`. -/
def skipSpace (r : Reader) : Reader := { r with text := r.text.dropWhile isSpace }

/-- `literal`. -/
def literal (r : Reader) (word : List UInt8) : Except Status Reader :=
  if r.text.take word.length = word then .ok { r with text := r.text.drop word.length }
  else .error .malformed

/-- What follows `\\u`: the scalar, and the text after its escape or escapes. -/
def readUnit (text : List UInt8) : Option (ℕ × List UInt8) :=
  (escapeUnit text).map fun unit =>
    let rest := text.drop 4
    match (if isHigh unit then lowAfter rest else none) with
    | some low => (pairScalar unit low, rest.drop 6)
    | none => (unitScalar unit, rest)

/-- An escape, from after its backslash: the bytes it means, and the text after it. -/
def readEscape : List UInt8 → Option (List UInt8 × List UInt8)
  | [] => none
  | letter :: rest =>
    match letterByte letter with
    | some byte => some ([byte], rest)
    | none =>
      if letter ≠ 117 then none
      else (readUnit rest).map fun unit => (scalarBytes unit.1, unit.2)

/-- The loop of `read_string`, from after the opening quote. -/
@[grind =] def readChars : ℕ → Reader → Except Status Reader
  | 0, _ => .error .malformed
  | fuel + 1, r => do
    let run ← r.put storage (r.text.takeWhile isPlain)
    match r.text.dropWhile isPlain with
    | [] => .error .malformed
    | b :: rest =>
      if b.toNat < 32 then .error .malformed
      else if b = 34 then .ok { run with text := rest }
      else
        match readEscape rest with
        | none => .error .malformed
        | some (bytes, rest) => do
          let escaped ← { run with text := rest }.put storage bytes
          readChars fuel escaped

/-- The value at an index given where its bytes are. -/
def setBytes (r : Reader) (index start size : ℕ) : Reader :=
  { r with values := r.values.modify index fun value => { value with start, size } }

/-- `read_string`, at the opening quote. -/
def readString (r : Reader) : Except Status Reader := do
  let pushed ← r.push storage .string
  let read ← readChars storage r.text.length { pushed with text := r.text.tail }
  .ok (read.setBytes r.values.length r.bytes.length (read.bytes.length - r.bytes.length))

/-- `decimals`. -/
def decimals (text : List UInt8) : Option (List UInt8) :=
  if text.takeWhile isDigit = [] then none else some (text.dropWhile isDigit)

/-- A text after a byte of some, if it starts with one. -/
def after (p : UInt8 → Bool) (text : List UInt8) : List UInt8 :=
  if text.head?.any p then text.tail else text

/-- The text after a fraction, if there is one. -/
def fraction (text : List UInt8) : Option (List UInt8) :=
  if text.head? = some 46 then decimals text.tail else some text

/-- The text after an exponent, if there is one. -/
def exponent (text : List UInt8) : Option (List UInt8) :=
  if text.head?.any (fun b => b = 101 || b = 69) then
    decimals (after (fun b => b = 43 || b = 45) text.tail)
  else some text

/-- The text after a number. -/
def numberEnd (text : List UInt8) : Option (List UInt8) :=
  let unsigned := after (· = 45) text
  (if unsigned.head? = some 48 then some unsigned.tail else decimals unsigned).bind fun rest =>
    (fraction rest).bind exponent

/-- `read_number`. -/
def readNumber (r : Reader) : Except Status Reader :=
  match numberEnd r.text with
  | none => .error .malformed
  | some rest => do
    let spelling := r.text.take (r.text.length - rest.length)
    let pushed ← r.push storage .number
    let read ← { pushed with text := rest }.put storage spelling
    .ok { read with
      values := read.values.modify r.values.length fun value =>
        { value with size := spelling.length } }

/-- A name of an object and the colon after it. -/
def readName (r : Reader) : Except Status Reader :=
  if r.skipSpace.text.head? ≠ some 34 then .error .malformed
  else do
    let name ← r.skipSpace.readString storage
    if name.skipSpace.text.head? ≠ some 58 then .error .malformed
    else .ok { name with text := name.skipSpace.text.tail }

section

variable (readValue : Reader → Except Status Reader)

/-- An item of an array, or a member of an object. -/
def readItem (kind : Kind) (r : Reader) : Except Status Reader := do
  let named ← if kind = .object then r.readName storage else .ok r
  readValue named

/-- The loop of `read_container`. -/
def readItems (kind : Kind) (close : UInt8) : ℕ → Reader → Except Status Reader
  | 0, _ => .error .malformed
  | fuel + 1, r => do
    let item ← r.readItem storage readValue kind
    let item := item.skipSpace
    match item.text with
    | [] => .error .malformed
    | b :: rest =>
      if b = close then .ok { item with text := rest }
      else if b ≠ 44 then .error .malformed
      else readItems kind close fuel { item with text := rest }

/-- `read_container` at its opening bracket, where it may nest. -/
def readContainer (kind : Kind) (r : Reader) : Except Status Reader := do
  let close : UInt8 := if kind = .array then 93 else 125
  let pushed ← r.push storage kind
  let pushed := { pushed with text := r.text.tail }.skipSpace
  if pushed.text.head? = some close then .ok { pushed with text := pushed.text.tail }
  else
    let read ← readItems storage readValue kind close pushed.text.length pushed
    .ok { read with
      values := read.values.modify r.values.length fun value =>
        { value with stop := read.values.length } }

end

/-- `read_value`, its containers read by `container`. -/
def readValueWith (container : Kind → Reader → Except Status Reader) (r : Reader) :
    Except Status Reader :=
  let r := r.skipSpace
  match r.text with
  | [] => .error .malformed
  | b :: _ =>
    if b = 123 then container .object r
    else if b = 91 then container .array r
    else if b = 34 then r.readString storage
    else if b = 116 then do (← r.literal [116, 114, 117, 101]).push storage .yes
    else if b = 102 then do (← r.literal [102, 97, 108, 115, 101]).push storage .no
    else if b = 110 then do (← r.literal [110, 117, 108, 108]).push storage .null
    else if b = 45 || isDigit b then r.readNumber storage
    else .error .malformed

/-- `read_value` where so many containers more may nest. -/
def readValue : ℕ → Reader → Except Status Reader
  | 0 => readValueWith storage fun _ _ => .error .malformed
  | levels + 1 => readValueWith storage (readContainer storage (readValue levels))

end Reader

/-- `json_read`. -/
def jsonRead (storage : ℕ → Bool) (text : List UInt8) : Except Status Tree := do
  let r ← Reader.readValue storage maxDepth ⟨[], [], text⟩
  let r := r.skipSpace
  if r.text = [] then .ok ⟨r.values, r.bytes⟩ else .error .malformed

end MarkdownCore.Json
