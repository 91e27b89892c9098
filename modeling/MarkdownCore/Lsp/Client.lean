import MarkdownCore.Lsp.Store

/-!
# The client's text

A client holds the text of each document it has open and applies its own edits to it. The server
holds the same texts: a position is a place between two characters of the text as it stands when
the edit is applied, and no other account of lines, columns and bytes has a part in what a text
becomes (`Server.texts_of_run`).
-/

namespace MarkdownCore.Lsp

open Text Probe

/-- An edit as the client makes it, its text in characters. -/
structure TextEdit where
  start : Position
  stop : Position
  text : List Char

namespace TextEdit

/-- The edit as it is sent. -/
def sent (edit : TextEdit) : Edit := ⟨edit.start, edit.stop, encode edit.text⟩

/-- The text after an edit. -/
def apply (unit : TextUnit) (text : List Char) (edit : TextEdit) : List Char :=
  text.take (place text unit edit.start) ++ edit.text ++ text.drop (place text unit edit.stop)

end TextEdit

/-- A call as the client makes it, its texts in characters. -/
inductive Request where
  | «open» (opening : Opening) (uri : Uri) (version : ℤ) (text : List Char)
  | update (uri : Uri) (version : ℤ) (edits : List (TextEdit × Turn))
  | close (uri : Uri)

namespace Request

def sent : Request → Call
  | .open opening uri version text => .open opening uri version (encode text)
  | .update uri version edits => .update uri version (edits.map fun edit => (edit.1.sent, edit.2))
  | .close uri => .close uri

end Request

/-- A document as the client holds it: its version and its text. -/
abbrev Book := ℤ × List Char

/-- What the client holds at a URI after a request and its answer. An update that failed within
the server closes the document. -/
def bookNext (unit : TextUnit) (uri : Uri) (held : Option Book) : Request × Answer → Option Book
  | (.open _ opened version text, .ok) => if opened = uri then some (version, text) else held
  | (.close closed, .ok) => if closed = uri then none else held
  | (.update updated version edits, .ok) =>
    if updated = uri then
      held.map fun book => (version, (edits.map Prod.fst).foldl (TextEdit.apply unit) book.2)
    else held
  | (.update updated _ _, .internalError) => if updated = uri then none else held
  | _ => held

/-- The client's books after a run of requests, each with its answer. -/
def booksAfter (unit : TextUnit) (events : List (Request × Answer)) (uri : Uri) : Option Book :=
  events.foldl (bookNext unit uri) none

/-! ### The text of a session -/

/-- The bytes of a text with a stretch of it replaced. -/
lemma replace_encode (text inserted : List Char) (m n : ℕ) :
    replace (encode text) (encode (text.take m)).length (encode (text.take n)).length
        (encode inserted) =
      encode (text.take m ++ inserted ++ text.drop n) := by
  have htake : (encode text).take (encode (text.take m)).length = encode (text.take m) := by
    have h := congrArg encode (List.take_append_drop m text)
    rw [encode_append] at h
    rw [← h, List.take_left]
  have hdrop : (encode text).drop (encode (text.take n)).length = encode (text.drop n) := by
    have h := congrArg encode (List.take_append_drop n text)
    rw [encode_append] at h
    rw [← h, List.drop_left]
  rw [replace, htake, hdrop, encode_append, encode_append]

lemma length_encode_take_mono (text : List Char) {m n : ℕ} (h : m ≤ n) :
    (encode (text.take m)).length ≤ (encode (text.take n)).length := by
  rw [← Nat.min_eq_left h, ← List.take_take]
  exact length_encode_take_le _ m

/-- The session holds a text: its bytes are the text's. -/
structure Session.Holds (unit : TextUnit) (session : Session) (text : List Char) : Prop where
  good : session.Good
  unit_eq : session.unit = unit
  text_eq : session.text = encode text

namespace Session.Holds

variable {unit : TextUnit} {session : Session} {text : List Char}

/-- The server's cursor is one the session takes, with the server's own offset: the byte before
the character the position denotes. Neither number of the cursor exceeds `INT32_MAX`. -/
theorem locate_spec (h : session.Holds unit text) (position : Position) :
    (session.input.locate unit position).1 = (encode (text.take (place text unit position))).length ∧
      session.input.offset session.unit (session.input.locate unit position).2 =
        some (session.input.locate unit position).1 ∧
      (session.input.locate unit position).2.line ≤ 2 ^ 31 - 1 ∧
      (session.input.locate unit position).2.column ≤ 2 ^ 31 - 1 := by
  obtain ⟨hplace, hoffset⟩ := h.good.whole.locate_spec h.text_eq unit position
  obtain ⟨hline, hcolumn⟩ := h.good.whole.cursor_le hoffset
  have hbounded := h.good.bounded
  rw [sourceCapacity] at hbounded
  rw [h.unit_eq]
  exact ⟨hplace, hoffset, by omega, by omega⟩

/-- An edit whose scope is in order is never out of the session's bounds. -/
theorem edit_in_bounds (h : session.Holds unit text) {start stop : Position}
    (hordered : after start stop = false) (turn : Turn) (inserted : List UInt8) :
    (session.edit turn (session.input.locate unit start).2 (session.input.locate unit stop).2
      inserted).1 ≠ .outOfBounds := by
  obtain ⟨hfirst, hstart, -⟩ := h.locate_spec start
  obtain ⟨hlast, hstop, -⟩ := h.locate_spec stop
  refine Session.edit_in_bounds h.good.hasRoot hstart hstop ?_
  rw [hfirst, hlast]
  exact length_encode_take_mono text (place_mono text unit hordered)

/-- An edit that is taken makes the session hold the text after it. -/
lemma edit (h : session.Holds unit text) {edit : TextEdit} {turn : Turn} {session' : Session}
    (hedit : session.edit turn (session.input.locate unit edit.start).2
      (session.input.locate unit edit.stop).2 (encode edit.text) = (.ok, session')) :
    session'.Holds unit (edit.apply unit text) := by
  obtain ⟨hfirst, hstart, -⟩ := h.locate_spec edit.start
  obtain ⟨hlast, hstop, -⟩ := h.locate_spec edit.stop
  obtain ⟨hgood, hunit, htext⟩ := Session.edit_spec h.good hstart hstop hedit
  refine ⟨hgood, hunit.trans h.unit_eq, ?_⟩
  rw [htext, h.text_eq, hfirst, hlast]
  exact replace_encode text edit.text _ _

/-- A batch of edits that are all taken makes the session hold the text after them. -/
theorem applyEdits (h : session.Holds unit text) {edits : List (TextEdit × Turn)}
    {session' : Session}
    (hedits : Lsp.applyEdits unit (edits.map fun edit => (edit.1.sent, edit.2)) session =
      some session') :
    session'.Holds unit ((edits.map Prod.fst).foldl (TextEdit.apply unit) text) := by
  induction edits generalizing session text with
  | nil =>
    cases hedits
    exact h
  | cons edit edits ih =>
    rw [List.map_cons, Lsp.applyEdits] at hedits
    split at hedits
    next session₁ hedit => exact ih (h.edit hedit) hedits
    next => exact absurd hedits (by simp)

end Session.Holds

/-! ### The store and the books -/

/-- What the server finds at a URI is what the client holds there. -/
inductive Mirrors (unit : TextUnit) : Option Record → Option Book → Prop
  | absent : Mirrors unit none none
  | held {record : Record} {text : List Char} (h : record.session.Holds unit text) :
    Mirrors unit (some record) (some (record.version, text))

namespace Server.Good

variable {hash : Uri → ℕ} {server : Server}

/-- A request keeps the server's documents the client's. -/
theorem mirrors_step (h : server.Good hash) {books : Uri → Option Book}
    (hbooks : ∀ uri, Mirrors server.unit (server.find hash uri) (books uri)) (request : Request)
    (uri : Uri) :
    Mirrors server.unit ((server.step hash request.sent).2.find hash uri)
      (bookNext server.unit uri (books uri) (request, (server.step hash request.sent).1)) := by
  cases request with
  | «open» opening opened version text =>
    rw [Request.sent, Server.step]
    rcases h.open opening opened version (encode text) with ⟨hlength, after, heq, -, -, hfind⟩ |
      ⟨-, after, heq, -, -, hfind⟩
    · rw [heq, hfind, bookNext]
      split
      · obtain ⟨hgood, htext⟩ := Session.open_spec hlength server.unit opening.decide
        exact Mirrors.held ⟨hgood, rfl, htext⟩
      · exact hbooks uri
    · rw [heq, hfind]
      exact hbooks uri
  | close closed =>
    rw [Request.sent, Server.step]
    rcases h.close closed with ⟨-, heq⟩ | ⟨record, after, -, heq, -, -, hfind⟩
    · rw [heq]
      exact hbooks uri
    · rw [heq, hfind, bookNext]
      split
      · exact Mirrors.absent
      · exact hbooks uri
  | update updated version edits =>
    rw [Request.sent, Server.step]
    rcases h.update updated version (edits.map fun edit => (edit.1.sent, edit.2)) with ⟨-, heq⟩ |
      ⟨record, hheld, ⟨-, heq⟩ | ⟨-, ⟨session, after, hedits, heq, -, -, hfind⟩ |
        ⟨after, -, heq, -, -, hfind⟩⟩⟩
    · rw [heq]
      exact hbooks uri
    · rw [heq]
      exact hbooks uri
    · rw [heq, hfind, bookNext]
      split
      next huri =>
        subst huri
        have hbook := hbooks updated
        rw [hheld] at hbook
        generalize books updated = book at hbook
        cases hbook with
        | held hholds => exact Mirrors.held (hholds.applyEdits hedits)
      next => exact hbooks uri
    · rw [heq, hfind, bookNext]
      split
      · exact Mirrors.absent
      · exact hbooks uri

/-- A run of requests keeps the server's documents the client's. -/
theorem mirrors_run (h : server.Good hash) (books : Uri → Option Book)
    (hbooks : ∀ uri, Mirrors server.unit (server.find hash uri) (books uri))
    (requests : List Request) (uri : Uri) :
    Mirrors server.unit ((server.run hash (requests.map Request.sent)).2.find hash uri)
      ((requests.zip ((server.run hash (requests.map Request.sent)).1.map Prod.snd)).foldl
        (bookNext server.unit uri) (books uri)) := by
  induction requests generalizing server books with
  | nil => exact hbooks uri
  | cons request requests ih =>
    obtain ⟨hgood, hunit, -⟩ := h.step request.sent
    have hstep := h.mirrors_step hbooks request
    rw [← hunit] at hstep
    have hrest := ih hgood _ hstep
    rw [hunit] at hrest
    exact hrest

/-- A batch with a scope whose start stands after its end changes nothing. -/
lemma update_inverted (h : server.Good hash) (uri : Uri) (version : ℤ)
    {edits : List (Edit × Turn)}
    (hinverted : edits.any (fun edit => after edit.1.start edit.1.stop) = true) :
    server.update hash uri version edits = (.invalidParams, server) := by
  rcases h.update uri version edits with ⟨-, heq⟩ | ⟨record, -, ⟨-, heq⟩ | ⟨hordered, -⟩⟩
  · exact heq
  · exact heq
  · rw [hinverted] at hordered
    exact absurd hordered (by simp)

/-- A batch with an edit that fails leaves no document at its URI, and the others as they were. -/
lemma update_fails (h : server.Good hash) {uri : Uri} {version : ℤ}
    {edits : List (Edit × Turn)} {record : Record} (hfind : server.find hash uri = some record)
    (hordered : edits.any (fun edit => after edit.1.start edit.1.stop) = false)
    (hfails : Lsp.applyEdits server.unit edits record.session = none) :
    (server.update hash uri version edits).1 = .internalError ∧
      ∀ other, (server.update hash uri version edits).2.find hash other =
        if uri = other then none else server.find hash other := by
  rcases h.update uri version edits with ⟨hnone, -⟩ | ⟨held, hheld, hcases⟩
  · rw [hfind] at hnone
    exact absurd hnone (by simp)
  · rw [hfind, Option.some.injEq] at hheld
    subst hheld
    rcases hcases with ⟨hinverted, -⟩ | ⟨-, ⟨session, after, hedits, -⟩ |
      ⟨after, -, heq, -, -, hothers⟩⟩
    · rw [hordered] at hinverted
      exact absurd hinverted (by simp)
    · rw [hfails] at hedits
      exact absurd hedits (by simp)
    · rw [heq]
      exact ⟨rfl, hothers⟩

end Server.Good

/-- The server's text is the client's. After every run of requests of an initialized server:

* what the server finds at a URI is a document of the version and with the bytes of the text that
  the client holds there, having applied its own edits one after another;
* every cursor the server makes of a position of a document is one its session takes, and the
  offset the session gives it is the server's: that of the character the position denotes;
* an edit between two such cursors in order is never out of the session's bounds;
* a batch with a scope whose start stands after its end is refused, and nothing changes;
* a batch with an edit that fails leaves no document at its URI, and the others as they were. -/
theorem Server.texts_of_run (hash : Uri → ℕ) (units : List TextUnit) (requests : List Request) :
    let run := (Server.start units).run hash (requests.map Request.sent)
    let server := run.2
    let books := booksAfter server.unit (requests.zip (run.1.map Prod.snd))
    (∀ uri, (server.find hash uri).map (fun record => (record.version, record.session.text)) =
      (books uri).map fun book => (book.1, encode book.2)) ∧
    (∀ uri record book, server.find hash uri = some record → books uri = some book →
      (∀ position,
        let located := record.session.input.locate server.unit position
        record.session.input.offset record.session.unit located.2 = some located.1 ∧
          located.1 = (encode (book.2.take (place book.2 server.unit position))).length ∧
          located.2.line ≤ 2 ^ 31 - 1 ∧ located.2.column ≤ 2 ^ 31 - 1) ∧
      ∀ start stop turn text, after start stop = false →
        (record.session.edit turn (record.session.input.locate server.unit start).2
          (record.session.input.locate server.unit stop).2 text).1 ≠ .outOfBounds) ∧
    (∀ uri version edits, edits.any (fun edit => after edit.1.start edit.1.stop) = true →
      server.update hash uri version edits = (.invalidParams, server)) ∧
    ∀ uri version edits record, server.find hash uri = some record →
      edits.any (fun edit => after edit.1.start edit.1.stop) = false →
      applyEdits server.unit edits record.session = none →
      (server.update hash uri version edits).1 = .internalError ∧
        ∀ other, (server.update hash uri version edits).2.find hash other =
          if uri = other then none else server.find hash other := by
  intro run server books
  have hstart := Server.start_good hash units
  obtain ⟨hgood, hunit, -⟩ := hstart.run (requests.map Request.sent)
  have hmirrors : ∀ uri, Mirrors server.unit (server.find hash uri) (books uri) := by
    intro uri
    have h := hstart.mirrors_run (fun _ => none)
      (fun uri => by rw [Server.find_start]; exact Mirrors.absent) requests uri
    rw [← hunit] at h
    exact h
  refine ⟨fun uri => ?_, ?_, ?_, ?_⟩
  · have h := hmirrors uri
    generalize server.find hash uri = held at h
    generalize books uri = book at h
    cases h with
    | absent => rfl
    | held hholds => rw [Option.map_some, Option.map_some, hholds.text_eq]
  · intro uri record book hfind hbook
    have h := hmirrors uri
    rw [hfind, hbook] at h
    cases h with
    | held hholds =>
      refine ⟨fun position => ?_, fun start stop turn text hordered => ?_⟩
      · obtain ⟨hplace, hoffset, hline, hcolumn⟩ := hholds.locate_spec position
        exact ⟨hoffset, hplace, hline, hcolumn⟩
      · exact hholds.edit_in_bounds hordered turn text
  · exact fun uri version edits hinverted => hgood.update_inverted uri version hinverted
  · exact fun uri version edits record hfind hordered hfails =>
      hgood.update_fails hfind hordered hfails

end MarkdownCore.Lsp
