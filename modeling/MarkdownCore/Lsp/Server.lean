import MarkdownCore.Library.ProbeTable
import MarkdownCore.Lsp.Session

/-!
# The server

The engine's server: its lifecycle and its document store, an open-addressed table of records
keyed by URI. The hash of a URI is a parameter, since nothing the store promises rests on it;
`hashUri` is the one the source computes. What storage allows a call and what the block parse
decides in it stand in the call.
-/

namespace MarkdownCore.Lsp

open Text Probe

/-- `markdown_core_lsp_status`. -/
inductive Answer where
  | ok
  | serverNotInitialized
  | invalidRequest
  | invalidParams
  | internalError
  deriving DecidableEq, Repr

/-- `markdown_core_lsp_phase`. -/
inductive Phase where
  | fresh
  | active
  | halted
  deriving DecidableEq, Repr

abbrev Uri := List UInt8

/-- FNV-1a. -/
def hashUri (uri : Uri) : ℕ :=
  uri.foldl (fun hash byte => (hash ^^^ byte.toNat) * 1099511628211 % 2 ^ 64) 14695981039346656037

/-- An open document: its URI, its version and its session. -/
structure Record where
  uri : Uri
  version : ℤ
  session : Session

/-- `markdown_core_lsp_edit`: a scope and the text that replaces it. -/
structure Edit where
  start : Position
  stop : Position
  text : List UInt8

/-- What storage allows an open and what the block parse decides in it. -/
structure Opening where
  widens : Bool
  makes : Bool
  decide : Decisions

/-- The key and the hash of a record. -/
def keys (hash : Uri → ℕ) : Keys Record Uri := ⟨Record.uri, hash⟩

/-- `markdown_core_lsp_server`. Its capacity is the number of its slots. -/
structure Server where
  phase : Phase
  unit : TextUnit
  slots : Table Record
  count : ℕ

/-- The edits of a batch applied to a session one after another, each with its `Turn`, or nothing
when one fails. -/
def applyEdits (unit : TextUnit) : List (Edit × Turn) → Session → Option Session
  | [], session => some session
  | (edit, turn) :: edits, session =>
    let start := session.input.locate unit edit.start
    let stop := session.input.locate unit edit.stop
    match session.edit turn start.2 stop.2 edit.text with
    | (.ok, session) => applyEdits unit edits session
    | _ => none

namespace Server

/-- `markdown_core_lsp_server_new`. -/
def new : Server := ⟨.fresh, .utf16, List.replicate 8 none, 0⟩

/-- Whether the server takes a call that needs an initialized server. -/
def active (server : Server) : Answer :=
  match server.phase with
  | .fresh => .serverNotInitialized
  | .active => .ok
  | .halted => .invalidRequest

/-- `markdown_core_lsp_initialize`. -/
def lspInitialize (server : Server) (units : List TextUnit) : Answer × Server :=
  if server.phase ≠ .fresh then (.invalidRequest, server)
  else
    (.ok, { server with
      phase := .active
      unit := units.foldl (fun unit offered => if offered = .utf8 then .utf8 else unit) .utf16 })

/-- `markdown_core_lsp_shutdown`. -/
def shutdown (server : Server) : Answer × Server :=
  (server.active, if server.active = .ok then { server with phase := .halted } else server)

/-- The document open at a URI: `find`, `lsp_server_session`. -/
def find (hash : Uri → ℕ) (server : Server) (uri : Uri) : Option Record :=
  server.slots.find (keys hash) uri

/-- `markdown_core_lsp_open`. -/
def «open» (hash : Uri → ℕ) (server : Server) (opening : Opening) (uri : Uri) (version : ℤ)
    (text : List UInt8) : Answer × Server :=
  if server.active ≠ .ok then (server.active, server)
  else
    let full := decide (server.slots.length / 4 * 3 < server.count + 1)
    if full ∧ ¬ opening.widens then (.internalError, server)
    else
      let slots := if full then server.slots.widen (keys hash) else server.slots
      let at' := slots.probe (keys hash) uri
      if sourceCapacity < text.length ∨ ¬ opening.makes then
        (.internalError, { server with slots })
      else
        let made : Record := ⟨uri, version, Session.open text server.unit opening.decide⟩
        (.ok, { server with
          slots := slots.set at' (some made)
          count := if (slots.slot at').isSome then server.count else server.count + 1 })

/-- Close the document in a slot. -/
def drop (hash : Uri → ℕ) (server : Server) (at' : ℕ) : Server :=
  { server with slots := server.slots.vacate (keys hash) at', count := server.count - 1 }

/-- `markdown_core_lsp_update`. -/
def update (hash : Uri → ℕ) (server : Server) (uri : Uri) (version : ℤ)
    (edits : List (Edit × Turn)) : Answer × Server :=
  if server.active ≠ .ok then (server.active, server)
  else
    let at' := server.slots.probe (keys hash) uri
    match server.slots.slot at' with
    | none => (.invalidParams, server)
    | some held =>
      -- Every scope's order is checked before the first edit applies.
      if edits.any fun edit => after edit.1.start edit.1.stop then (.invalidParams, server)
      else
        match applyEdits server.unit edits held.session with
        | none => (.internalError, server.drop hash at')
        | some session =>
          (.ok, { server with
            slots := server.slots.set at' (some { held with version, session }) })

/-- `markdown_core_lsp_close`. -/
def close (hash : Uri → ℕ) (server : Server) (uri : Uri) : Answer × Server :=
  if server.active ≠ .ok then (server.active, server)
  else
    let at' := server.slots.probe (keys hash) uri
    match server.slots.slot at' with
    | none => (.invalidParams, server)
    | some _ => (.ok, server.drop hash at')

end Server

/-! ### Runs -/

/-- A call of the store, with what storage allows it and what the block parse decides in it. -/
inductive Call where
  | «open» (opening : Opening) (uri : Uri) (version : ℤ) (text : List UInt8)
  | update (uri : Uri) (version : ℤ) (edits : List (Edit × Turn))
  | close (uri : Uri)

/-- A call and its answer. -/
abbrev Event := Call × Answer

namespace Server

def step (hash : Uri → ℕ) (server : Server) : Call → Answer × Server
  | .open opening uri version text => server.open hash opening uri version text
  | .update uri version edits => server.update hash uri version edits
  | .close uri => server.close hash uri

/-- The calls one after another: what was answered, and the server left. -/
def run (hash : Uri → ℕ) : Server → List Call → List Event × Server
  | server, [] => ([], server)
  | server, call :: calls =>
    let step := server.step hash call
    let rest := run hash step.2 calls
    ((call, step.1) :: rest.1, rest.2)

/-- A server initialized with the units a client offers. -/
def start (units : List TextUnit) : Server := (new.lspInitialize units).2

end Server

/-! ### What a call keeps -/

/-- The table is a table, no more than three quarters full, and the count is the number of records
in it. -/
structure Server.Good (hash : Uri → ℕ) (server : Server) : Prop where
  active : server.active = .ok
  ok : Table.Ok (keys hash) server.slots
  count_eq : server.count = server.slots.held
  least : 8 ≤ server.slots.length
  load : server.count ≤ server.slots.length / 4 * 3

namespace Server.Good

variable {hash : Uri → ℕ} {server : Server}

lemma room (h : server.Good hash) : server.slots.Room := by
  have := h.least
  have := h.load
  have := h.count_eq
  exact Table.room_of_held_lt (by omega)

/-- The record found is one of the slots, and of its URI. -/
lemma find_eq_some_iff (h : server.Good hash) {uri : Uri} {record : Record} :
    server.find hash uri = some record ↔ server.slots.Holds record ∧ record.uri = uri :=
  h.ok.find_eq_some_iff h.room

lemma find_eq_none_iff (h : server.Good hash) {uri : Uri} :
    server.find hash uri = none ↔ ∀ record, server.slots.Holds record → record.uri ≠ uri :=
  h.ok.find_eq_none_iff h.room

/-- What a lookup finds is what the slots hold. -/
lemma find_congr {server' : Server} (h : server.Good hash) (h' : server'.Good hash) {uri : Uri}
    (hholds : ∀ record, record.uri = uri →
      (server'.slots.Holds record ↔ server.slots.Holds record)) :
    server'.find hash uri = server.find hash uri := by
  refine Option.ext fun record => ?_
  rw [h'.find_eq_some_iff, h.find_eq_some_iff]
  constructor
  · rintro ⟨hr, huri⟩
    exact ⟨(hholds record huri).mp hr, huri⟩
  · rintro ⟨hr, huri⟩
    exact ⟨(hholds record huri).mpr hr, huri⟩

end Server.Good

lemma Server.start_good (hash : Uri → ℕ) (units : List TextUnit) :
    (Server.start units).Good hash := by
  refine ⟨rfl, ?_, ?_, ?_, ?_⟩
  · exact Table.ok_replicate 3
  · exact (Table.held_replicate 8).symm
  · exact le_of_eq List.length_replicate.symm
  · exact Nat.zero_le _

lemma Server.find_start (hash : Uri → ℕ) (units : List TextUnit) (uri : Uri) :
    (Server.start units).find hash uri = none := by
  rw [(Server.start_good hash units).find_eq_none_iff]
  rintro record ⟨i, hi⟩
  have hnone : (Server.start units).slots.slot i = none := Table.slot_replicate 8 i
  exact absurd (hnone.symm.trans hi) (by simp)

end MarkdownCore.Lsp
