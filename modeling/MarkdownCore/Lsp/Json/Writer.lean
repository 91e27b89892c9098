import MarkdownCore.Lsp.Json.ReadValue

/-!
# Walking a tree and writing it

A value is the index of it in its tree's row. The members of a container are found by the indices
after values' last descendants; a value is written by walking it so.
-/

namespace MarkdownCore.Json

/-! ### Walking -/

/-- `json_first`. -/
def jsonFirst (tree : Tree) (value : ℕ) : Option ℕ :=
  (tree.values[value]?).bind fun v => if v.stop > value + 1 then some (value + 1) else none

/-- `json_next`. -/
def jsonNext (tree : Tree) (container value : ℕ) : Option ℕ :=
  (tree.values[value]?).bind fun v => (tree.values[container]?).bind fun c =>
    if v.stop < c.stop then some v.stop else none

/-- What a loop over a container visits from a member on, its values after their names where it is
an object. -/
def visits (tree : Tree) (container : ℕ) (object : Bool) : ℕ → Option ℕ → List ℕ
  | 0, _ => []
  | _ + 1, none => []
  | fuel + 1, some member =>
    member ::
      visits tree container object fuel
        (jsonNext tree container (if object then member + 1 else member))

/-- Whether a value is of a kind. -/
def isKind (tree : Tree) (value : ℕ) (kind : Kind) : Bool :=
  (tree.values[value]?).any fun v => v.kind = kind

/-- What a loop over a container visits, from `json_first` by `json_next`. -/
def members (tree : Tree) (container : ℕ) : List ℕ :=
  visits tree container (isKind tree container .object) tree.values.length
    (jsonFirst tree container)

/-- `json_bytes`, as many as the value has. -/
def jsonBytes (tree : Tree) (value : ℕ) : List UInt8 :=
  match tree.values[value]? with
  | some v => (tree.bytes.drop v.start).take v.size
  | none => []

/-- `json_is`. -/
def jsonIs (tree : Tree) (value : ℕ) (text : List UInt8) : Bool :=
  isKind tree value .string && jsonBytes tree value = text

/-- `json_member`: the value after the first name that is the key. -/
def jsonMember (tree : Tree) (object : ℕ) (key : List UInt8) : Option ℕ :=
  if isKind tree object .object then
    ((members tree object).find? fun name => jsonIs tree name key).map (· + 1)
  else none

/-! ### Writing -/

/-- `json_out`. -/
structure Out where
  data : List UInt8
  failed : Bool

/-- `HEX`. -/
def hexDigit (n : ℕ) : UInt8 := if n < 10 then UInt8.ofNat (48 + n) else UInt8.ofNat (97 + (n - 10))

/-- How a byte that a string cannot hold is written. -/
def escape (b : UInt8) : List UInt8 :=
  if b = 34 ∨ b = 92 then [92, b]
  else if b = 10 then [92, 110]
  else if b = 13 then [92, 114]
  else if b = 9 then [92, 116]
  else if b = 8 then [92, 98]
  else if b = 12 then [92, 102]
  else [92, 117, 48, 48, hexDigit (b.toNat / 16), hexDigit (b.toNat % 16)]

namespace Out

variable (storage : ℕ → Bool)

/-- `json_out_bytes`. -/
def put (out : Out) (bytes : List UInt8) : Out :=
  let failed := out.failed || !storage (out.data.length + bytes.length)
  if failed then { out with failed := true } else { out with data := out.data ++ bytes }

/-- The loop of `json_out_string`, with the run not yet written. -/
def putRun (run : List UInt8) : List UInt8 → Out → Out
  | [], out => out.put storage run
  | b :: rest, out =>
    if isPlain b then putRun (run ++ [b]) rest out
    else putRun [] rest ((out.put storage run).put storage (escape b))

/-- `json_out_string`. -/
def putString (out : Out) (bytes : List UInt8) : Out :=
  (putRun storage [] bytes (out.put storage [34])).put storage [34]

/-- `json_out_value`. -/
def putValue (tree : Tree) : ℕ → ℕ → Out → Out
  | 0, _, out => out
  | fuel + 1, value, out =>
    match tree.values[value]? with
    | none => out
    | some v =>
      match v.kind with
      | .null => out.put storage [110, 117, 108, 108]
      | .no => out.put storage [102, 97, 108, 115, 101]
      | .yes => out.put storage [116, 114, 117, 101]
      | .number => out.put storage (jsonBytes tree value)
      | .string => out.putString storage (jsonBytes tree value)
      | .array =>
        ((members tree value).foldl (fun out member =>
          let out := if some member = jsonFirst tree value then out else out.put storage [44]
          putValue tree fuel member out) (out.put storage [91])).put storage [93]
      | .object =>
        ((members tree value).foldl (fun out member =>
          let out := if some member = jsonFirst tree value then out else out.put storage [44]
          putValue tree fuel (member + 1)
            ((putValue tree fuel member out).put storage [58])) (out.put storage [123])).put
              storage [125]

end Out

/-- `json_out_value` of the root, to nothing written yet. -/
def jsonOut (storage : ℕ → Bool) (tree : Tree) : Out :=
  Out.putValue storage tree tree.values.length 0 ⟨[], false⟩

end MarkdownCore.Json
