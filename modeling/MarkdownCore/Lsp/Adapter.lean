import MarkdownCore.Lsp.Server
import MarkdownCore.Lsp.Json.WriteRun

/-!
# The JSON-RPC adapter

One message in, at most one message out, mapped onto the engine's calls. What storage allows a
message, and what the block parse decides in it, stand with the message.
-/

namespace MarkdownCore.Lsp

open Json Text

/-- The bytes of an ASCII text. -/
def bytes (s : String) : List UInt8 := s.toList.map fun c => UInt8.ofNat c.toNat

/-! ### Codes -/

def rpcParseError : ℤ := -32700

def rpcInvalidRequest : ℤ := -32600

def rpcMethodNotFound : ℤ := -32601

def rpcInvalidParams : ℤ := -32602

def rpcInternalError : ℤ := -32603

/-- The value of a status. -/
def Answer.code : Answer → ℤ
  | .ok => 0
  | .serverNotInitialized => -32002
  | .invalidRequest => -32600
  | .invalidParams => -32602
  | .internalError => -32603

def reason (code : ℤ) : List UInt8 :=
  if code = rpcParseError then bytes "the message is not JSON"
  else if code = rpcInvalidRequest then bytes "the message is not a request the server takes now"
  else if code = rpcMethodNotFound then bytes "the server has no such method"
  else if code = rpcInvalidParams then bytes "the params are not the method's"
  else if code = Answer.serverNotInitialized.code then bytes "the server is not initialized"
  else bytes "the server failed"

/-- `CUES`: the bytes after which a slot may begin empty. -/
def slotCues : List UInt8 := bytes "\t\n\r !\"#'(,.:;<=@[^`\x7b~"

/-! ### What a message asks -/

/-- `json_member`, of a value or of none. -/
def memberOf (tree : Tree) (value : Option ℕ) (key : String) : Option ℕ :=
  value.bind fun value => jsonMember tree value (bytes key)

/-- `json_is`, of a value or of none. -/
def isText (tree : Tree) (value : Option ℕ) (text : String) : Bool :=
  value.any fun value => jsonIs tree value (bytes text)

def hasKind (tree : Tree) (value : Option ℕ) (kind : Kind) : Bool :=
  value.any fun value => isKind tree value kind

/-- The digits of an integer, accumulated negatively. -/
def integerDigits : List UInt8 → ℤ → Option ℤ
  | [], total => some total
  | b :: rest, total =>
    if b < 0x30 ∨ 0x39 < b then none
    else
      let digit : ℤ := b.toNat - 48
      if total < (-9223372036854775808 + digit).tdiv 10 then none
      else integerDigits rest (total * 10 - digit)

/-- `json_integer`. -/
def jsonInteger (tree : Tree) (value : Option ℕ) (least most : ℤ) : Option ℤ :=
  if hasKind tree value .number then
    let spelled := (value.map (jsonBytes tree)).getD []
    let minus := spelled.head? = some 0x2d
    (integerDigits (if minus then spelled.tail else spelled) 0).bind fun total =>
      if ¬ minus ∧ total = -9223372036854775808 then none
      else
        let total := if minus then total else -total
        if total < least ∨ most < total then none else some total
  else none

def readPosition (tree : Tree) (value : Option ℕ) : Option Position :=
  (jsonInteger tree (memberOf tree value "line") 0 4294967295).bind fun line =>
    (jsonInteger tree (memberOf tree value "character") 0 4294967295).map fun character =>
      ⟨line.toNat, character.toNat⟩

def readScope (tree : Tree) (value : Option ℕ) : Option (Position × Position) :=
  (readPosition tree (memberOf tree value "start")).bind fun start =>
    (readPosition tree (memberOf tree value "end")).map fun stop => (start, stop)

/-- The `textDocument.uri` of `params`. -/
def readUri (tree : Tree) (params : Option ℕ) : Option (List UInt8) :=
  let uri := memberOf tree (memberOf tree params "textDocument") "uri"
  if hasKind tree uri .string then uri.map (jsonBytes tree) else none

def readVersion (tree : Tree) (params : Option ℕ) : Option ℤ :=
  jsonInteger tree (memberOf tree (memberOf tree params "textDocument") "version")
    (-2147483648) 2147483647

/-! ### Answering -/

/-- What storage allows a message, and what the block parse decides in it. -/
structure Allowance where
  /-- Storage for the tree and for the answer, by the bytes that are needed. -/
  read : ℕ → Bool
  write : ℕ → Bool
  opening : Opening
  /-- Storage for a row of so many edits, and what each of them meets. -/
  room : ℕ → Bool
  turn : ℕ → Turn
  /-- Whether the cursor of a completion is located and its list made. -/
  completes : Bool

section

variable (storage : ℕ → Bool) (tree : Tree)

/-- `json_out_integer`. -/
def putInteger (out : Out) (integer : ℤ) : Out := out.put storage (bytes (toString integer))

/-- Starts an answer to the request `id`. -/
def answer (out : Out) (id : Option ℕ) : Out :=
  let out := out.put storage (bytes "\x7b\"jsonrpc\":\"2.0\",\"id\":")
  match id with
  | some id => out.putValue storage tree tree.values.length id
  | none => out.put storage (bytes "null")

def answerError (out : Out) (id : Option ℕ) (code : ℤ) : Out :=
  let out := answer storage tree out id
  let out := out.put storage (bytes ",\"error\":\x7b\"code\":")
  let out := putInteger storage out code
  let out := out.put storage (bytes ",\"message\":")
  let out := out.putString storage (reason code)
  out.put storage (bytes "\x7d\x7d")

/-- The trigger characters, a comma before each but the first. -/
def putCues : List UInt8 → Bool → Out → Out
  | [], _, out => out
  | cue :: cues, first, out =>
    let out := if first then out else out.put storage (bytes ",")
    putCues cues false (out.putString storage [cue])

/-- The units among the names a client offers, two of them at most. -/
def offeredUnits (names : List ℕ) : List TextUnit :=
  names.foldl (fun units name =>
    if units.length < 2 ∧ isText tree (some name) "utf-8" then units ++ [.utf8]
    else if units.length < 2 ∧ isText tree (some name) "utf-16" then units ++ [.utf16]
    else units) []

/-- The initialize request: the code, the server and what is written. -/
def answerInitialize (server : Server) (out : Out) (id params : Option ℕ) : ℤ × Server × Out :=
  if ¬ hasKind tree params .object then (rpcInvalidParams, server, out)
  else
    let offered := memberOf tree
      (memberOf tree (memberOf tree params "capabilities") "general") "positionEncodings"
    let units :=
      match offered with
      | some offered =>
        if isKind tree offered .array then offeredUnits tree (members tree offered) else []
      | none => []
    let (status, server) := server.lspInitialize units
    if status ≠ .ok then (status.code, server, out)
    else
      let out := answer storage tree out id
      let out := out.put storage (bytes ",\"result\":\x7b\"capabilities\":\x7b\"positionEncoding\":")
      let out := out.putString storage (bytes (if server.unit = .utf8 then "utf-8" else "utf-16"))
      let out := out.put storage
        (bytes ",\"textDocumentSync\":\x7b\"openClose\":true,\"change\":2\x7d")
      let out := out.put storage (bytes ",\"completionProvider\":\x7b\"triggerCharacters\":[")
      let out := putCues storage slotCues true out
      let out := out.put storage
        (bytes "]\x7d\x7d,\"serverInfo\":\x7b\"name\":\"markdown-core\"\x7d\x7d\x7d")
      (Answer.ok.code, server, out)

/-- `markdown_core_lsp_complete`, up to the list, which is empty. -/
def Server.complete (hash : Uri → ℕ) (server : Server) (uri : Uri) (completes : Bool) : Answer :=
  if server.active ≠ .ok then server.active
  else
    match server.find hash uri with
    | none => .invalidParams
    | some _ => if completes then .ok else .internalError

def answerComplete (hash : Uri → ℕ) (server : Server) (completes : Bool) (out : Out)
    (id params : Option ℕ) : ℤ × Out :=
  match readUri tree params, readPosition tree (memberOf tree params "position") with
  | some uri, some _ =>
    let status := server.complete hash uri completes
    if status ≠ .ok then (status.code, out)
    else
      let out := answer storage tree out id
      (Answer.ok.code,
        out.put storage (bytes ",\"result\":\x7b\"isIncomplete\":false,\"items\":[]\x7d\x7d"))
  | _, _ => (rpcInvalidParams, out)

/-- A request: the code, the server and what is written before the code is looked at. -/
def takeRequest (hash : Uri → ℕ) (server : Server) (completes : Bool) (out : Out)
    (id method params : Option ℕ) : ℤ × Server × Out :=
  if isText tree method "initialize" then answerInitialize storage tree server out id params
  else if isText tree method "shutdown" then
    let (status, server) := server.shutdown
    if status = .ok then
      (status.code, server,
        (answer storage tree out id).put storage (bytes ",\"result\":null\x7d"))
    else (status.code, server, out)
  else if isText tree method "textDocument/completion" then
    let (code, out) := answerComplete storage tree hash server completes out id params
    (code, server, out)
  else
    -- A request the server does not serve still answers as its phase would.
    match server.phase with
    | .fresh => (Answer.serverNotInitialized.code, server, out)
    | .halted => (rpcInvalidRequest, server, out)
    | .active => (rpcMethodNotFound, server, out)

def request (hash : Uri → ℕ) (server : Server) (completes : Bool) (out : Out)
    (id method params : Option ℕ) : Server × Out :=
  let (code, server, out) := takeRequest storage tree hash server completes out id method params
  (server, if code ≠ Answer.ok.code then answerError storage tree out id code else out)

/-! ### Notifications -/

/-- What the engine answers to a notification is dropped; it stands here for what it says. Params
that cannot be read are `invalidParams`. -/
def openDocument (hash : Uri → ℕ) (server : Server) (allow : Allowance) (params : Option ℕ) :
    Answer × Server :=
  let text := memberOf tree (memberOf tree params "textDocument") "text"
  match readUri tree params, readVersion tree params with
  | some uri, some version =>
    if hasKind tree text .string then
      server.open hash allow.opening uri version ((text.map (jsonBytes tree)).getD [])
    else (.invalidParams, server)
  | _, _ => (.invalidParams, server)

/-- The edits of the changes, or what stopped their reading. -/
def readEdits (allow : Allowance) : ℕ → List ℕ → Except Answer (List (Edit × Turn))
  | _, [] => .ok []
  | count, change :: changes =>
    let text := jsonMember tree change (bytes "text")
    let range := jsonMember tree change (bytes "range")
    if ¬ hasKind tree text .string then .error .invalidParams
    else if ¬ allow.room count then .error .internalError
    else
      -- No range: the whole text.
      let scope := if range = none then some (⟨0, 0⟩, ⟨4294967295, 4294967295⟩)
        else readScope tree range
      match scope with
      | none => .error .invalidParams
      | some (start, stop) =>
        (readEdits allow (count + 1) changes).map fun edits =>
          (⟨start, stop, (text.map (jsonBytes tree)).getD []⟩, allow.turn count) :: edits

def updateDocument (hash : Uri → ℕ) (server : Server) (allow : Allowance) (params : Option ℕ) :
    Answer × Server :=
  let changes := memberOf tree params "contentChanges"
  match readUri tree params, changes, readVersion tree params with
  | some uri, some changes, some version =>
    if isKind tree changes .array then
      match readEdits tree allow 0 (members tree changes) with
      | .ok edits => server.update hash uri version edits
      | .error status => (status, server)
    else (.invalidParams, server)
  | _, _, _ => (.invalidParams, server)

/-- A notification: what the engine answered, the server, and whether it is the exit. -/
def notify (hash : Uri → ℕ) (server : Server) (allow : Allowance) (method params : Option ℕ) :
    Answer × Server × Bool :=
  if isText tree method "exit" then (.ok, server, true)
  else if isText tree method "textDocument/didOpen" then
    let (status, server) := openDocument tree hash server allow params
    (status, server, false)
  else if isText tree method "textDocument/didChange" then
    let (status, server) := updateDocument tree hash server allow params
    (status, server, false)
  else if isText tree method "textDocument/didClose" then
    match readUri tree params with
    | some uri =>
      let (status, server) := server.close hash uri
      (status, server, false)
    | none => (.invalidParams, server, false)
  else (.ok, server, false)

end

/-- A message handled: the server, the answer, the exit flag, and what the engine answered to a
notification. -/
structure Handled where
  server : Server
  out : Out
  exited : Bool
  dropped : Option Answer

/-- `adapter_handle`. -/
def handle (hash : Uri → ℕ) (server : Server) (allow : Allowance) (body : List UInt8) : Handled :=
  let out : Out := ⟨[], false⟩
  match jsonRead allow.read body with
  | .error status =>
    let code := match status with
      | .malformed => rpcParseError
      | .failed => rpcInternalError
    ⟨server, answerError allow.write ⟨[], []⟩ out none code, false, none⟩
  | .ok tree =>
    let message := some 0
    let id := memberOf tree message "id"
    let method := memberOf tree message "method"
    let validId := hasKind tree id .number || hasKind tree id .string
    if hasKind tree message .object ∧ method = none ∧ id ≠ none ∧
        (memberOf tree message "result" ≠ none ∨ memberOf tree message "error" ≠ none) then
      -- A response: the server sends no requests, so none is awaited.
      ⟨server, out, false, none⟩
    else if ¬ hasKind tree message .object ∨
        ¬ isText tree (memberOf tree message "jsonrpc") "2.0" ∨
        ¬ hasKind tree method .string ∨ (id ≠ none ∧ ¬ validId) then
      ⟨server, answerError allow.write tree out (if validId then id else none) rpcInvalidRequest,
        false, none⟩
    else
      let params := memberOf tree message "params"
      if id ≠ none then
        let (server, out) := request allow.write tree hash server allow.completes out id method
          params
        ⟨server, out, false, none⟩
      else
        let (status, server, exited) := notify tree hash server allow method params
        ⟨server, out, exited, some status⟩

end MarkdownCore.Lsp
