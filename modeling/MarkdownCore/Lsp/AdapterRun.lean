import MarkdownCore.Lsp.AdapterAnswer

/-!
# Every message is answered

A message is a notification or a response, and nothing is written, or it is answered with one
text: a reply in the shape JSON-RPC asks for, under the message's own id. Only an initialize and a
shutdown that succeed move the phase, and what is refused changes nothing.
-/

namespace MarkdownCore.Lsp

open Json Text

/-! ### What JSON-RPC asks -/

/-- A request, of a method. -/
def IsRequest (v : Datum) (method : List UInt8) : Prop :=
  v.kind = .object ∧ v.member (bytes "jsonrpc") = some (.string (bytes "2.0")) ∧
    v.member (bytes "method") = some (.string method) ∧
    ∃ id, v.member (bytes "id") = some id ∧ (id.kind = .number ∨ id.kind = .string)

/-- A notification: a method and no id. -/
def IsNotification (v : Datum) : Prop :=
  v.kind = .object ∧ v.member (bytes "jsonrpc") = some (.string (bytes "2.0")) ∧
    (∃ method, v.member (bytes "method") = some (.string method)) ∧ v.member (bytes "id") = none

/-- A response: an id, no method, and a result or an error. -/
def IsResponse (v : Datum) : Prop :=
  v.kind = .object ∧ v.member (bytes "id") ≠ none ∧ v.member (bytes "method") = none ∧
    (v.member (bytes "result") ≠ none ∨ v.member (bytes "error") ≠ none)

/-- A text that reads as a reply under an id, with exactly one of a result and an error. -/
def IsReply (id : Datum) (text : List UInt8) : Prop :=
  ∃ v, IsText text v ∧ jsonRead (fun _ => true) text = .ok v.tree ∧ v.kind = .object ∧
    v.member (bytes "jsonrpc") = some (.string (bytes "2.0")) ∧
    v.member (bytes "id") = some id ∧
    Xor (v.member (bytes "result") ≠ none) (v.member (bytes "error") ≠ none)

/-- A body and what is written for it. -/
structure Answered (body out : List UInt8) : Prop where
  silent : out = [] ↔ ∃ v, IsText body v ∧ (IsNotification v ∨ IsResponse v)
  read : ∀ v, IsText body v → ¬ (IsNotification v ∨ IsResponse v) →
    IsReply (ownId (v.member (bytes "id"))) out
  unread : (¬ ∃ v, IsText body v) → IsReply .null out

/-! ### Replies -/

/-- What is written is a text, unless it says it failed. -/
def Writes (out : Out) (text : List UInt8) : Prop := out.failed = true ∨ out = ⟨text, false⟩

lemma Writes.of_follows {out : Out} {text : List UInt8} (h : out.Follows ⟨text, false⟩) :
    Writes out text := h.2

section Follows

variable {storage : ℕ → Bool} {tree : Tree} {out other : Out}

lemma follows_answer (h : out.Follows other) (id : Option ℕ) :
    (answer storage tree out id).Follows (answer full tree other id) := by
  cases id with
  | none =>
    simp only [answer]
    exact (h.put _).put _
  | some id =>
    simp only [answer]
    exact Out.Follows.putValue tree _ id (h.put _)

lemma follows_answerError (h : out.Follows other) (id : Option ℕ) (code : ℤ) :
    (answerError storage tree out id code).Follows (answerError full tree other id code) :=
  ((((((follows_answer h id).put _).put _).put _).putString _).put _)

lemma follows_putCues (cues : List UInt8) : ∀ (first : Bool) {out other : Out},
    out.Follows other → (putCues storage cues first out).Follows (putCues full cues first other) := by
  induction cues with
  | nil => exact fun first out other h => h
  | cons cue cues ih =>
    intro first out other h
    simp only [putCues]
    cases first with
    | true =>
      simp only [if_true]
      exact ih false (h.putString _)
    | false =>
      simp only [Bool.false_eq_true, if_false]
      exact ih false ((h.put _).putString _)

end Follows

lemma Answer.code_of_ne {status : Answer} (h : status ≠ .ok) :
    status.code ≠ Answer.ok.code ∧ status.code ∈ codes := by
  cases status with
  | ok => exact absurd rfl h
  | _ => exact ⟨by decide, by decide⟩

lemma fits_ownId {n : ℕ} {v : Option Datum} (h : ∀ w, v = some w → w.Fits n) :
    (ownId v).Fits n := by
  cases v with
  | none => cases n <;> trivial
  | some w =>
    have hw := h w rfl
    cases w with
    | number u => cases n <;> exact hw
    | string s => cases n <;> trivial
    | _ => cases n <;> trivial

/-- A reply's spelling reads as the reply. -/
lemma isText_reply {id w : Datum} (member : String)
    (hid : ∃ n, n + 1 = maxDepth ∧ id.Fits n ∧ w.Fits n) :
    IsText (reply id member w).spell (reply id member w) := by
  obtain ⟨n, hn, hid, hw⟩ := hid
  have hfits : (reply id member w).Fits maxDepth := by
    rw [← hn]
    intro m hm
    simp only [List.mem_cons, List.not_mem_nil, or_false] at hm
    rcases hm with rfl | rfl | rfl
    · cases n <;> trivial
    · exact hid
    · exact hw
  exact hfits.isText

/-- And is one. -/
lemma isReply_reply {id w : Datum} {member : String}
    (hmember : member = "result" ∨ member = "error")
    (hid : ∃ n, n + 1 = maxDepth ∧ id.Fits n ∧ w.Fits n) : IsReply id (reply id member w).spell := by
  have htext := isText_reply member hid
  refine ⟨_, htext, jsonRead_complete (fun _ => rfl) htext, rfl, ?_, ?_, ?_⟩
  · simp [reply, Datum.member]
  · have h : bytes "jsonrpc" ≠ bytes "id" := by decide
    simp [reply, Datum.member, h]
  · have h1 : bytes "jsonrpc" ≠ bytes "result" := by decide
    have h2 : bytes "id" ≠ bytes "result" := by decide
    have h3 : bytes "jsonrpc" ≠ bytes "error" := by decide
    have h4 : bytes "id" ≠ bytes "error" := by decide
    have h5 : bytes "result" ≠ bytes "error" := by decide
    rcases hmember with rfl | rfl
    · exact Or.inl ⟨by simp [reply, Datum.member, h1, h2],
        by simp [reply, Datum.member, h3, h4, h5]⟩
    · exact Or.inr ⟨by simp [reply, Datum.member, h3, h4],
        by simp [reply, Datum.member, h1, h2, h5.symm]⟩

/-- Nothing is no reply. -/
lemma IsReply.ne_nil {id : Datum} {text : List UInt8} (h : IsReply id text) : text ≠ [] := by
  obtain ⟨v, _, hread, _⟩ := h
  rintro rfl
  have hempty : jsonRead (fun _ => true) [] = .error .malformed := rfl
  rw [hempty] at hread
  cases hread

/-! ### Requests -/

section Request

variable {storage : ℕ → Bool} {tree : Tree} {hash : Uri → ℕ} {server : Server} {completes : Bool}
  {id method params : Option ℕ} {v : Option Datum}

/-- What taking a request comes to: a code other than OK, with nothing done and nothing written, or
a result written, by an initialize or a shutdown that moves the phase or with the server as it
was. -/
inductive Taken (tree : Tree) (server : Server) (method : Option ℕ) (id : Datum) :
    ℤ × Server × Out → Prop
  | refused {code : ℤ} (hcode : code ≠ Answer.ok.code) (hmem : code ∈ codes) :
    Taken tree server method id (code, server, ⟨[], false⟩)
  | initialized {server' : Server} {out : Out} {w : Datum} (hw : w.Fits 10)
    (hout : Writes out (reply id "result" w).spell) (hphase : server.phase = .fresh)
    (hphase' : server'.phase = .active) (hmethod : isText tree method "initialize" = true) :
    Taken tree server method id (Answer.ok.code, server', out)
  | shut {server' : Server} {out : Out} {w : Datum} (hw : w.Fits 10)
    (hout : Writes out (reply id "result" w).spell) (hphase : server.phase = .active)
    (hphase' : server'.phase = .halted) (hmethod : isText tree method "shutdown" = true) :
    Taken tree server method id (Answer.ok.code, server', out)
  | served {out : Out} {w : Datum} (hw : w.Fits 10)
    (hout : Writes out (reply id "result" w).spell) :
    Taken tree server method id (Answer.ok.code, server, out)

lemma fits_capabilities (unit : TextUnit) : (capabilitiesDatum unit).Fits 10 := by
  have htwo : Number (bytes "2") := by
    have hbytes : bytes "2" = [50] := by decide
    have hwhole : Whole [50] := Whole.digits ⟨by simp, by simp [Json.isDigit]⟩ (by simp)
    rw [hbytes]
    exact Number.mk (Or.inl rfl) hwhole Frac.none Exponent.none
  have hcues : (Datum.array (slotCues.map fun cue => .string [cue])).Fits 7 := by
    intro item hitem
    obtain ⟨cue, _, rfl⟩ := List.mem_map.mp hitem
    trivial
  simp only [capabilitiesDatum, Datum.Fits, List.mem_cons, List.not_mem_nil, or_false,
    forall_eq_or_imp, forall_eq]
  exact ⟨⟨trivial, ⟨trivial, htwo⟩, hcues⟩, trivial⟩

lemma writes_capabilities (h : tree.Points id v) (unit : TextUnit) :
    Writes
      (let out := answer storage tree ⟨[], false⟩ id
        let out := out.put storage
          (bytes ",\"result\":\x7b\"capabilities\":\x7b\"positionEncoding\":")
        let out := out.putString storage (bytes (if unit = .utf8 then "utf-8" else "utf-16"))
        let out := out.put storage
          (bytes ",\"textDocumentSync\":\x7b\"openClose\":true,\"change\":2\x7d")
        let out := out.put storage
          (bytes ",\"completionProvider\":\x7b\"triggerCharacters\":[")
        let out := putCues storage slotCues true out
        out.put storage
          (bytes "]\x7d\x7d,\"serverInfo\":\x7b\"name\":\"markdown-core\"\x7d\x7d\x7d"))
      (reply (v.getD .null) "result" (capabilitiesDatum unit)).spell := by
  apply Writes.of_follows
  rw [← capabilities_full h]
  have hhead : (answer storage tree ⟨[], false⟩ id).Follows (answer full tree ⟨[], false⟩ id) :=
    follows_answer (Out.Follows.refl []) id
  exact (follows_putCues _ _ ((((hhead.put _).putString _).put _).put _)).put _

lemma taken_initialize (h : tree.Points id v)
    (hmethod : isText tree method "initialize" = true) :
    Taken tree server method (v.getD .null)
      (answerInitialize storage tree server ⟨[], false⟩ id params) := by
  unfold answerInitialize
  split
  · exact .refused (by decide) (by decide)
  · dsimp only [Server.lspInitialize]
    split
    · have hne := Answer.code_of_ne (show Answer.invalidRequest ≠ .ok by decide)
      exact .refused hne.1 hne.2
    · rename_i hfresh
      rw [not_not] at hfresh
      exact .initialized (fits_capabilities _) (writes_capabilities h _) hfresh rfl hmethod

lemma taken_complete (h : tree.Points id v) :
    Taken tree server method (v.getD .null)
      ((answerComplete storage tree hash server completes ⟨[], false⟩ id params).1, server,
        (answerComplete storage tree hash server completes ⟨[], false⟩ id params).2) := by
  unfold answerComplete
  split
  · dsimp only
    split
    · rename_i hstatus
      exact .refused (Answer.code_of_ne hstatus).1 (Answer.code_of_ne hstatus).2
    · refine .served (w := completionDatum) ?_ (Writes.of_follows ?_)
      · simp [completionDatum, Datum.Fits]
      · rw [← completion_full h]
        exact (follows_answer (Out.Follows.refl []) id).put _
  · exact .refused (by decide) (by decide)

/-- What a request comes to. -/
lemma taken_request (h : tree.Points id v) :
    Taken tree server method (v.getD .null)
      (takeRequest storage tree hash server completes ⟨[], false⟩ id method params) := by
  unfold takeRequest
  split
  · rename_i hmethod
    exact taken_initialize h hmethod
  · split
    · rename_i hmethod
      dsimp only [Server.shutdown]
      split
      · rename_i hactive
        rw [hactive]
        have hphase : server.phase = .active := by
          cases hp : server.phase <;> simp [Server.active, hp] at hactive
          rfl
        refine .shut (w := .null) trivial (Writes.of_follows ?_) hphase rfl hmethod
        rw [← shutdown_full h]
        exact (follows_answer (Out.Follows.refl []) id).put _
      · rename_i hactive
        exact .refused (Answer.code_of_ne hactive).1 (Answer.code_of_ne hactive).2
    · split
      · exact taken_complete h
      · cases server.phase with
        | fresh => exact .refused (by decide) (by decide)
        | active => exact .refused (by decide) (by decide)
        | halted => exact .refused (by decide) (by decide)

/-- A request answered: a reply, the phase where it was or moved by an initialize or a shutdown
with a result, and the server as it was where the reply is an error. -/
inductive Replied (tree : Tree) (server : Server) (method : Option ℕ) (id : Datum) :
    Server × Out → Prop
  | error {out : Out} {w : Datum} (hw : w.Fits 10)
    (hout : Writes out (reply id "error" w).spell) : Replied tree server method id (server, out)
  | result {server' : Server} {out : Out} {w : Datum} (hw : w.Fits 10)
    (hout : Writes out (reply id "result" w).spell)
    (hmove : server' = server ∨
      (server.phase = .fresh ∧ server'.phase = .active ∧
        isText tree method "initialize" = true) ∨
      (server.phase = .active ∧ server'.phase = .halted ∧
        isText tree method "shutdown" = true)) : Replied tree server method id (server', out)

lemma fits_error {code : ℤ} (h : code ∈ codes) : (errorDatum code).Fits 10 := by
  simp only [errorDatum, Datum.Fits, List.mem_cons, List.not_mem_nil, or_false,
    forall_eq_or_imp, forall_eq]
  exact ⟨number_code h, trivial⟩

lemma writes_error (storage : ℕ → Bool) (h : tree.Points id v) (code : ℤ) :
    Writes (answerError storage tree ⟨[], false⟩ id code)
      (reply (v.getD .null) "error" (errorDatum code)).spell := by
  apply Writes.of_follows
  rw [← answerError_full h]
  exact follows_answerError (Out.Follows.refl []) id code

lemma replied_request (h : tree.Points id v) :
    Replied tree server method (v.getD .null)
      (request storage tree hash server completes ⟨[], false⟩ id method params) := by
  have htaken := @taken_request storage tree hash server completes id method params v h
  unfold request
  generalize takeRequest storage tree hash server completes ⟨[], false⟩ id method params = r
    at htaken
  cases htaken with
  | refused hcode hmem =>
    simp only [ne_eq, hcode, not_false_eq_true, if_true]
    exact .error (fits_error hmem) (writes_error storage h _)
  | initialized hw hout hphase hphase' hmethod =>
    simp only [ne_eq, not_true_eq_false, if_false]
    exact .result hw hout (Or.inr (Or.inl ⟨hphase, hphase', hmethod⟩))
  | shut hw hout hphase hphase' hmethod =>
    simp only [ne_eq, not_true_eq_false, if_false]
    exact .result hw hout (Or.inr (Or.inr ⟨hphase, hphase', hmethod⟩))
  | served hw hout =>
    simp only [ne_eq, not_true_eq_false, if_false]
    exact .result hw hout (Or.inl rfl)

end Request

/-! ### Notifications -/

/-- A status that refuses a call for its phase or its params. -/
def Answer.Refuses (status : Answer) : Prop :=
  status = .serverNotInitialized ∨ status = .invalidRequest ∨ status = .invalidParams

/-- A call that may change the documents, and nothing when it refuses. -/
def Keeps (server : Server) (r : Answer × Server) : Prop :=
  r.2.phase = server.phase ∧ (r.1.Refuses → r.2 = server)

lemma keeps_refl (server : Server) (status : Answer) : Keeps server (status, server) :=
  ⟨rfl, fun _ => rfl⟩

lemma not_refuses_ok : ¬ Answer.ok.Refuses := by
  rintro (h | h | h) <;> exact absurd h (by decide)

lemma not_refuses_internalError : ¬ Answer.internalError.Refuses := by
  rintro (h | h | h) <;> exact absurd h (by decide)

section Notify

variable {hash : Uri → ℕ} {server : Server}

lemma keeps_open (opening : Opening) (uri : Uri) (version : ℤ) (text : List UInt8) :
    Keeps server (server.open hash opening uri version text) := by
  unfold Server.open
  split
  · exact keeps_refl server _
  · dsimp only
    split
    · exact keeps_refl server _
    · split
      · exact ⟨rfl, fun h => absurd h not_refuses_internalError⟩
      · exact ⟨rfl, fun h => absurd h not_refuses_ok⟩

lemma keeps_update (uri : Uri) (version : ℤ) (edits : List (Edit × Turn)) :
    Keeps server (server.update hash uri version edits) := by
  unfold Server.update
  split
  · exact keeps_refl server _
  · dsimp only
    split
    · exact keeps_refl server _
    · split
      · exact keeps_refl server _
      · split
        · exact ⟨rfl, fun h => absurd h not_refuses_internalError⟩
        · exact ⟨rfl, fun h => absurd h not_refuses_ok⟩

lemma keeps_close (uri : Uri) : Keeps server (server.close hash uri) := by
  unfold Server.close
  split
  · exact keeps_refl server _
  · dsimp only
    split
    · exact keeps_refl server _
    · exact ⟨rfl, fun h => absurd h not_refuses_ok⟩

lemma keeps_openDocument (tree : Tree) (allow : Allowance) (params : Option ℕ) :
    Keeps server (openDocument tree hash server allow params) := by
  unfold openDocument
  dsimp only
  split
  · split
    · exact keeps_open ..
    · exact keeps_refl server _
  · exact keeps_refl server _

lemma keeps_updateDocument (tree : Tree) (allow : Allowance) (params : Option ℕ) :
    Keeps server (updateDocument tree hash server allow params) := by
  unfold updateDocument
  dsimp only
  split
  · split
    · split
      · exact keeps_update ..
      · exact keeps_refl server _
    · exact keeps_refl server _
  · exact keeps_refl server _

lemma keeps_notify (tree : Tree) (allow : Allowance) (method params : Option ℕ) :
    Keeps server ((notify tree hash server allow method params).1,
      (notify tree hash server allow method params).2.1) := by
  unfold notify
  split
  · exact keeps_refl server _
  · split
    · exact keeps_openDocument tree allow params
    · split
      · exact keeps_updateDocument tree allow params
      · split
        · split
          · exact keeps_close _
          · exact keeps_refl server _
        · exact keeps_refl server _

end Notify

/-! ### A message -/

/-- A request of a method, answered with a result. -/
def Succeeds (body : List UInt8) (method : String) (out : Out) : Prop :=
  ∃ v, IsText body v ∧ IsRequest v (bytes method) ∧
    (out.failed = false → ∃ w, IsText out.data w ∧ w.member (bytes "result") ≠ none)

/-- What handling a message comes to. Where storage cannot be had for the message it is answered
as an internal error, under no id. -/
structure Handled.Right (server : Server) (allow : Allowance) (body : List UInt8)
    (handled : Handled) : Prop where
  answered : jsonRead allow.read body ≠ .error .failed → handled.out.failed = false →
    Answered body handled.out.data
  starved : jsonRead allow.read body = .error .failed → handled.out.failed = false →
    IsReply .null handled.out.data
  phase : handled.server.phase = server.phase ∨
    (server.phase = .fresh ∧ handled.server.phase = .active ∧
      Succeeds body "initialize" handled.out) ∨
    (server.phase = .active ∧ handled.server.phase = .halted ∧
      Succeeds body "shutdown" handled.out)
  refused : handled.out.failed = false →
    (∃ w, IsText handled.out.data w ∧ w.member (bytes "error") ≠ none) → handled.server = server
  dropped : ∀ status, handled.dropped = some status → status.Refuses → handled.server = server

lemma jsonRead_full {t : List UInt8} {v : Datum} (h : IsText t v) :
    jsonRead (fun _ => true) t = .ok v.tree := jsonRead_complete (fun _ => rfl) h

/-- Two readings of a text have the same members. -/
lemma member_eq_none_iff {t : List UInt8} {v w : Datum} (hv : IsText t v) (hw : IsText t w)
    (key : List UInt8) : v.member key = none ↔ w.member key = none := by
  have hread := jsonRead_full hv
  rw [jsonRead_complete (fun _ => rfl) hw] at hread
  have htree : w.tree = v.tree := Except.ok.inj hread
  have hpv := (Tree.Points.root v).member key
  have hpw := (Tree.Points.root w).member key
  rw [htree] at hpw
  exact (hpv.eq_none_iff).symm.trans hpw.eq_none_iff

lemma not_isText_nil (v : Datum) : ¬ IsText [] v := by
  intro h
  have hread := jsonRead_full h
  have hempty : jsonRead (fun _ => true) [] = .error .malformed := rfl
  rw [hempty] at hread
  cases hread

/-- A reply has no error where it has a result. -/
lemma reply_member {id w : Datum} : (reply id "result" w).member (bytes "error") = none ∧
    (reply id "result" w).member (bytes "result") ≠ none := by
  have h1 : bytes "jsonrpc" ≠ bytes "result" := by decide
  have h2 : bytes "id" ≠ bytes "result" := by decide
  have h3 : bytes "jsonrpc" ≠ bytes "error" := by decide
  have h4 : bytes "id" ≠ bytes "error" := by decide
  have h5 : bytes "result" ≠ bytes "error" := by decide
  exact ⟨by simp [reply, Datum.member, h3, h4, h5], by simp [reply, Datum.member, h1, h2]⟩

/-- What the handling of a message that has been read comes to, by what it means. -/
inductive Outcome (v : Datum) (server : Server) (handled : Handled) : Prop
  | silent (hv : IsNotification v ∨ IsResponse v) (hout : handled.out = ⟨[], false⟩)
    (hphase : handled.server.phase = server.phase)
    (hdropped : ∀ status, handled.dropped = some status → status.Refuses →
      handled.server = server)
  | error {w : Datum} (hv : ¬ (IsNotification v ∨ IsResponse v)) (hw : w.Fits 10)
    (hout : Writes handled.out (reply (ownId (v.member (bytes "id"))) "error" w).spell)
    (hserver : handled.server = server) (hdropped : handled.dropped = none)
  | result {w : Datum} (hv : ¬ (IsNotification v ∨ IsResponse v)) (hw : w.Fits 10)
    (hout : Writes handled.out (reply (ownId (v.member (bytes "id"))) "result" w).spell)
    (hmove : handled.server = server ∨
      (server.phase = .fresh ∧ handled.server.phase = .active ∧
        IsRequest v (bytes "initialize")) ∨
      (server.phase = .active ∧ handled.server.phase = .halted ∧
        IsRequest v (bytes "shutdown"))) (hdropped : handled.dropped = none)

/-- An id that is a number or a string is the own id, and any other gives none. -/
lemma ownId_of_kind {id : Datum} (h : id.kind = .number ∨ id.kind = .string) :
    ownId (some id) = id := by
  cases id with
  | number u => rfl
  | string s => rfl
  | _ => rcases h with h | h <;> exact absurd h (by simp [Datum.kind])

lemma ownId_of_not_kind {id : Option Datum}
    (h : ¬ ∃ w, id = some w ∧ (w.kind = .number ∨ w.kind = .string)) : ownId id = .null := by
  cases id with
  | none => rfl
  | some w =>
    cases w with
    | number u => exact absurd ⟨_, rfl, Or.inl rfl⟩ h
    | string s => exact absurd ⟨_, rfl, Or.inr rfl⟩ h
    | _ => rfl

lemma outcome_of_read {hash : Uri → ℕ} {server : Server} {allow : Allowance}
    {body : List UInt8} {tree : Tree} {v : Datum} (hread : jsonRead allow.read body = .ok tree)
    (hroot : tree.Points (some 0) (some v)) :
    Outcome v server (handle hash server allow body) := by
  have hid : tree.Points (memberOf tree (some 0) "id") (v.member (bytes "id")) := hroot.member _
  have hmethod : tree.Points (memberOf tree (some 0) "method") (v.member (bytes "method")) :=
    hroot.member _
  have hresult : tree.Points (memberOf tree (some 0) "result") (v.member (bytes "result")) :=
    hroot.member _
  have herror : tree.Points (memberOf tree (some 0) "error") (v.member (bytes "error")) :=
    hroot.member _
  have hversion : tree.Points (memberOf tree (some 0) "jsonrpc") (v.member (bytes "jsonrpc")) :=
    hroot.member _
  have hobject : hasKind tree (some 0) .object = true ↔ v.kind = .object := by
    rw [hasKind, hroot.isKind]
    simp
  have hvalid : (hasKind tree (memberOf tree (some 0) "id") .number ||
      hasKind tree (memberOf tree (some 0) "id") .string) = true ↔
        ∃ w, v.member (bytes "id") = some w ∧ (w.kind = .number ∨ w.kind = .string) := by
    rw [Bool.or_eq_true, hasKind, hasKind, hid.isKind, hid.isKind]
    constructor
    · rintro (⟨w, hw, hk⟩ | ⟨w, hw, hk⟩)
      · exact ⟨w, hw, Or.inl hk⟩
      · exact ⟨w, hw, Or.inr hk⟩
    · rintro ⟨w, hw, hk | hk⟩
      · exact Or.inl ⟨w, hw, hk⟩
      · exact Or.inr ⟨w, hw, hk⟩
  have hstring : hasKind tree (memberOf tree (some 0) "method") .string = true ↔
      ∃ method, v.member (bytes "method") = some (.string method) := by
    rw [hasKind, hmethod.isKind]
    constructor
    · rintro ⟨w, hw, hk⟩
      cases w with
      | string s => exact ⟨s, hw⟩
      | _ => exact absurd hk (by simp [Datum.kind])
    · rintro ⟨s, hs⟩
      exact ⟨_, hs, rfl⟩
  have htwo : isText tree (memberOf tree (some 0) "jsonrpc") "2.0" = true ↔
      v.member (bytes "jsonrpc") = some (.string (bytes "2.0")) := hversion.isString _
  unfold handle
  rw [hread]
  dsimp only
  split
  · -- a response
    rename_i hresponse
    rw [hobject, hmethod.eq_none_iff, ne_eq, hid.eq_none_iff, ne_eq, hresult.eq_none_iff, ne_eq,
      herror.eq_none_iff] at hresponse
    refine .silent (Or.inr ⟨hresponse.1, hresponse.2.2.1, hresponse.2.1, hresponse.2.2.2⟩) rfl
      rfl ?_
    intro status hstatus
    simp at hstatus
  · rename_i hresponse
    rw [hobject, hmethod.eq_none_iff, ne_eq, hid.eq_none_iff, ne_eq, hresult.eq_none_iff, ne_eq,
      herror.eq_none_iff] at hresponse
    have hnoResponse : ¬ IsResponse v := fun h => hresponse ⟨h.1, h.2.2.1, h.2.1, h.2.2.2⟩
    split
    · -- no request the server takes
      rename_i hinvalid
      rw [hobject, htwo, hstring, ne_eq, hid.eq_none_iff, hvalid] at hinvalid
      have hnot : ¬ (IsNotification v ∨ IsResponse v) := by
        rintro (⟨h1, h2, h3, h4⟩ | h)
        · rcases hinvalid with h | h | h | h
          · exact h h1
          · exact h h2
          · exact h h3
          · exact h.1 h4
        · exact hnoResponse h
      have hcode : rpcInvalidRequest ∈ codes := by decide
      refine .error hnot (fits_error hcode) ?_ rfl rfl
      by_cases hv : ∃ w, v.member (bytes "id") = some w ∧ (w.kind = .number ∨ w.kind = .string)
      · rw [if_pos (hvalid.mpr hv)]
        obtain ⟨w, hw, hk⟩ := hv
        have hwrites := writes_error allow.write hid rpcInvalidRequest
        rw [hw] at hwrites ⊢
        rw [ownId_of_kind hk]
        exact hwrites
      · rw [if_neg (fun h => hv (hvalid.mp h)), ownId_of_not_kind hv]
        have hnone : tree.Points none none := Option.Rel.none
        exact writes_error allow.write hnone rpcInvalidRequest
    · rename_i hvalidMessage
      rw [hobject, htwo, hstring, ne_eq, hid.eq_none_iff, hvalid] at hvalidMessage
      simp only [not_or, not_and, not_not] at hvalidMessage
      obtain ⟨h1, h2, h3, h4⟩ := hvalidMessage
      split
      · -- a request
        rename_i hsome
        rw [ne_eq, hid.eq_none_iff] at hsome
        obtain ⟨w, hw, hk⟩ := h4 hsome
        have hnot : ¬ (IsNotification v ∨ IsResponse v) := by
          rintro (h | h)
          · exact hsome h.2.2.2
          · exact hnoResponse h
        have hreplied := @replied_request allow.write tree hash server allow.completes
          (memberOf tree (some 0) "id") (memberOf tree (some 0) "method")
          (memberOf tree (some 0) "params") _ hid
        have hrequest : ∀ name, isText tree (memberOf tree (some 0) "method") name = true →
            IsRequest v (bytes name) := fun name hname =>
          ⟨h1, h2, (hmethod.isString _).mp hname, w, hw, hk⟩
        have hown : (v.member (bytes "id")).getD .null = ownId (v.member (bytes "id")) := by
          rw [hw, ownId_of_kind hk]
          rfl
        rw [hown] at hreplied
        generalize request allow.write tree hash server allow.completes ⟨[], false⟩
          (memberOf tree (some 0) "id") (memberOf tree (some 0) "method")
          (memberOf tree (some 0) "params") = r at hreplied
        cases hreplied with
        | error hfits hout => exact .error hnot hfits hout rfl rfl
        | result hfits hout hmove =>
          refine .result hnot hfits hout ?_ rfl
          rcases hmove with h | ⟨hf, ha, hm⟩ | ⟨hf, ha, hm⟩
          · exact Or.inl h
          · exact Or.inr (Or.inl ⟨hf, ha, hrequest _ hm⟩)
          · exact Or.inr (Or.inr ⟨hf, ha, hrequest _ hm⟩)
      · -- a notification
        rename_i hnone
        rw [ne_eq, not_not, hid.eq_none_iff] at hnone
        have hkeeps := @keeps_notify hash server tree allow
          (memberOf tree (some 0) "method") (memberOf tree (some 0) "params")
        refine .silent (Or.inl ⟨h1, h2, h3, hnone⟩) rfl hkeeps.1 ?_
        intro status hstatus hrefuses
        simp only [Option.some.injEq] at hstatus
        exact hkeeps.2 (hstatus ▸ hrefuses)

/-- What is written for an outcome, where nothing is refused. -/
lemma Writes.eq {out : Out} {text : List UInt8} (h : Writes out text) (hfailed : out.failed = false) :
    out.data = text := by
  rcases h with h | h
  · rw [hfailed] at h
    cases h
  · rw [h]

/-- The id and the result or the error of a reply as the outcomes have it. -/
lemma fits_of_outcome {body : List UInt8} {v w : Datum} (hv : IsText body v) (hw : w.Fits 10) :
    ∃ n, n + 1 = maxDepth ∧ (ownId (v.member (bytes "id"))).Fits n ∧ w.Fits n := by
  refine ⟨511, rfl, fits_ownId fun d hd => ?_, hw.mono (by omega)⟩
  have hfits : v.Fits (511 + 1) := hv.fits
  exact hfits.member hd

/-- What has been read is what any reading of the body means. -/
lemma points_of_isText {storage : ℕ → Bool} {body : List UInt8} {tree : Tree} {v : Datum}
    (hread : jsonRead storage body = .ok tree) (hv : IsText body v) :
    tree.Points (some 0) (some v) := by
  have hfull : jsonRead (fun _ => true) body = .ok tree := by
    rcases follows_jsonRead storage body with h | h
    · rw [hread] at h
      cases h
    · rw [← h, hread]
  rw [jsonRead_full hv] at hfull
  rw [← Except.ok.inj hfull]
  exact Tree.Points.root v

/-- A silent or a written outcome answers the body. -/
lemma Outcome.answered {body : List UInt8} {server : Server} {handled : Handled}
    (houtcome : ∀ v, IsText body v → Outcome v server handled) (hread : ∃ v, IsText body v)
    (hfailed : handled.out.failed = false) : Answered body handled.out.data := by
  have hwritten : ∀ v, IsText body v → ¬ (IsNotification v ∨ IsResponse v) →
      IsReply (ownId (v.member (bytes "id"))) handled.out.data := by
    intro v hv hnot
    cases houtcome v hv with
    | silent hsilent => exact absurd hsilent hnot
    | error _ hw hout =>
      rw [hout.eq hfailed]
      exact isReply_reply (Or.inr rfl) (fits_of_outcome hv hw)
    | result _ hw hout =>
      rw [hout.eq hfailed]
      exact isReply_reply (Or.inl rfl) (fits_of_outcome hv hw)
  refine ⟨?_, hwritten, fun hno => absurd hread hno⟩
  constructor
  · intro hnil
    obtain ⟨v, hv⟩ := hread
    refine ⟨v, hv, ?_⟩
    by_contra hnot
    exact (hwritten v hv hnot).ne_nil hnil
  · rintro ⟨v, hv, hsilent⟩
    cases houtcome v hv with
    | silent _ hout => rw [hout]
    | error hnot => exact absurd hsilent hnot
    | result hnot => exact absurd hsilent hnot

/-- Every message is handled right, in any state of the server. -/
lemma handled_right (hash : Uri → ℕ) (server : Server) (allow : Allowance) (body : List UInt8) :
    (handle hash server allow body).Right server allow body := by
  cases hread : jsonRead allow.read body with
  | error status =>
    -- nothing is read, and an error is written under no id
    obtain ⟨code, hcode, hhandle⟩ : ∃ code ∈ codes, handle hash server allow body =
        ⟨server, answerError allow.write ⟨[], []⟩ ⟨[], false⟩ none code, false, none⟩ := by
      unfold handle
      rw [hread]
      cases status with
      | malformed => exact ⟨rpcParseError, by decide, rfl⟩
      | failed => exact ⟨rpcInternalError, by decide, rfl⟩
    have hnone : Tree.Points ⟨[], []⟩ none none := Option.Rel.none
    have hwrites := writes_error allow.write hnone code
    have hreply : (handle hash server allow body).out.failed = false →
        IsReply .null (handle hash server allow body).out.data := by
      intro hfailed
      rw [hhandle] at hfailed ⊢
      rw [hwrites.eq hfailed]
      exact isReply_reply (Or.inr rfl) ⟨511, rfl, trivial, (fits_error hcode).mono (by omega)⟩
    refine ⟨?_, fun _ => hreply, ?_, ?_, ?_⟩
    · intro hstorage hfailed
      have hno : ¬ ∃ v, IsText body v := by
        rintro ⟨v, hv⟩
        rcases follows_jsonRead allow.read body with h | h
        · exact hstorage h
        · rw [hread, jsonRead_full hv] at h
          cases h
      refine ⟨?_, fun v hv => absurd ⟨v, hv⟩ hno, fun _ => hreply hfailed⟩
      refine iff_of_false (hreply hfailed).ne_nil ?_
      rintro ⟨v, hv, _⟩
      exact hno ⟨v, hv⟩
    · rw [hhandle]
      exact Or.inl rfl
    · rw [hhandle]
      exact fun _ _ => rfl
    · intro status' hstatus'
      rw [hhandle] at hstatus'
      cases hstatus'
  | ok tree =>
    have houtcome : ∀ v, IsText body v → Outcome v server (handle hash server allow body) :=
      fun v hv => outcome_of_read hread (points_of_isText hread hv)
    have hread' : ∃ v, IsText body v := by
      obtain ⟨v, hv, _⟩ := jsonRead_sound hread
      exact ⟨v, hv⟩
    obtain ⟨v, hv⟩ := hread'
    refine ⟨fun _ hfailed => Outcome.answered houtcome ⟨v, hv⟩ hfailed, ?_, ?_, ?_, ?_⟩
    · intro hstarved
      rw [hread] at hstarved
      cases hstarved
    · cases houtcome v hv with
      | silent _ _ hphase => exact Or.inl hphase
      | error _ _ _ hserver => exact Or.inl (by rw [hserver])
      | result _ hw hout hmove =>
        have hsucceeds : ∀ name, IsRequest v (bytes name) →
            Succeeds body name (handle hash server allow body).out := by
          intro name hrequest
          refine ⟨v, hv, hrequest, fun hfailed => ?_⟩
          rw [hout.eq hfailed]
          exact ⟨_, isText_reply "result" (fits_of_outcome hv hw), reply_member.2⟩
        rcases hmove with h | ⟨hf, ha, hm⟩ | ⟨hf, ha, hm⟩
        · exact Or.inl (by rw [h])
        · exact Or.inr (Or.inl ⟨hf, ha, hsucceeds _ hm⟩)
        · exact Or.inr (Or.inr ⟨hf, ha, hsucceeds _ hm⟩)
    · rintro hfailed ⟨d, hd, herror⟩
      cases houtcome v hv with
      | silent _ hout =>
        rw [hout] at hd
        exact absurd hd (not_isText_nil d)
      | error _ _ _ hserver => exact hserver
      | result _ hw hout =>
        rw [hout.eq hfailed] at hd
        have htext := isText_reply "result" (fits_of_outcome hv hw)
        exact absurd ((member_eq_none_iff htext hd _).mp reply_member.1) herror
    · intro status hstatus hrefuses
      cases houtcome v hv with
      | silent _ _ _ hdropped => exact hdropped status hstatus hrefuses
      | error _ _ _ _ hdropped =>
        rw [hdropped] at hstatus
        cases hstatus
      | result _ _ _ _ hdropped =>
        rw [hdropped] at hstatus
        cases hstatus

/-! ### Runs -/

/-- A message, with what storage allows it and what the block parse decides in it. -/
structure Message where
  allow : Allowance
  body : List UInt8

/-- The messages one after another: the server each one met, and its handling. -/
def handledRun (hash : Uri → ℕ) : Server → List Message → List (Server × Message × Handled)
  | _, [] => []
  | server, message :: messages =>
    let handled := handle hash server message.allow message.body
    (server, message, handled) :: handledRun hash handled.server messages

lemma handledRun_right (hash : Uri → ℕ) (messages : List Message) :
    ∀ server, ∀ entry ∈ handledRun hash server messages,
      entry.2.2.Right entry.1 entry.2.1.allow entry.2.1.body := by
  induction messages with
  | nil => exact fun server entry hentry => absurd hentry List.not_mem_nil
  | cons message messages ih =>
    intro server entry hentry
    rcases List.mem_cons.mp hentry with rfl | hentry
    · exact handled_right hash server message.allow message.body
    · exact ih _ entry hentry

/-- In every run of messages from a new server: for a notification and a response nothing is
written and for any other body one reply, which reads as JSON, with the body's own id and one of a
result and an error; the phase moves by an initialize and a shutdown with a result only; and where
an error is answered, or a notification refused, the server is the one before. -/
theorem messages_of_run (hash : Uri → ℕ) (messages : List Message) :
    ∀ entry ∈ handledRun hash Server.new messages,
      entry.2.2.Right entry.1 entry.2.1.allow entry.2.1.body :=
  handledRun_right hash messages Server.new

/-- A shutdown before the initialize, with all the storage it needs. -/
def earlyShutdown : Message where
  allow := ⟨fun _ => true, fun _ => true, ⟨true, true, ⟨fun line => line, fun _ => false⟩⟩,
    fun _ => true, fun _ => ⟨true, true, 0, ⟨fun line => line, fun _ => false⟩, true, [], true⟩,
    true⟩
  body := bytes "\x7b\"jsonrpc\":\"2.0\",\"id\":1,\"method\":\"shutdown\"\x7d"

theorem messages_of_shutdown :
    (handle (fun _ => 0) Server.new earlyShutdown.allow earlyShutdown.body).Right Server.new
      earlyShutdown.allow earlyShutdown.body := by
  generalize hhandled : handle (fun _ => 0) Server.new earlyShutdown.allow earlyShutdown.body =
    handled
  have hmem : (Server.new, earlyShutdown, handled) ∈
      handledRun (fun _ => 0) Server.new [earlyShutdown] := by
    rw [handledRun, hhandled]
    exact List.mem_cons_self
  exact messages_of_run (fun _ => 0) [earlyShutdown] (Server.new, earlyShutdown, handled) hmem

end MarkdownCore.Lsp
