import Mathlib.Data.Finset.Card
import MarkdownCore.Library.History
import MarkdownCore.Lsp.Server

/-!
# The document store

What the store holds after a run is read off the calls and their answers alone: a URI has a record
when a call opened it and none after that closed or dropped it, and the record is the one that call
made, as the updates since left it (`Server.store_of_run`). Neither the hash nor the slots have a
part in it.
-/

namespace MarkdownCore.Lsp

open Text Probe

/-! ### What an event does to a URI -/

/-- The URI a call is about. -/
def Call.uri : Call → Uri
  | .open _ uri _ _ => uri
  | .update uri _ _ => uri
  | .close uri => uri

/-- The event opened the URI. -/
def Event.Opens (uri : Uri) : Event → Prop
  | (.open _ opened _ _, .ok) => opened = uri
  | _ => False

/-- The event closed the URI, or dropped it after an update that failed. -/
def Event.Ends (uri : Uri) : Event → Prop
  | (.close closed, .ok) => closed = uri
  | (.update updated _ _, .internalError) => updated = uri
  | _ => False

/-- A record as an event leaves it that neither opens nor ends its URI. -/
def Event.revise (unit : TextUnit) (record : Record) : Event → Record
  | (.update uri version edits, .ok) =>
    if uri = record.uri then
      { record with version, session := (applyEdits unit edits record.session).getD record.session }
    else record
  | _ => record

/-- The record of a URI after an event. -/
def Event.next (unit : TextUnit) (uri : Uri) (held : Option Record) : Event → Option Record
  | (.open opening opened version text, .ok) =>
    if opened = uri then some ⟨opened, version, Session.open text unit opening.decide⟩ else held
  | (.close closed, .ok) => if closed = uri then none else held
  | (.update updated _ _, .internalError) => if updated = uri then none else held
  | event => held.map fun record => event.revise unit record

/-- The record of a URI after a run: the events read one after another. -/
def recordAfter (unit : TextUnit) (uri : Uri) (events : List Event) (held : Option Record) :
    Option Record := events.foldl (Event.next unit uri) held

/-! ### One call -/

namespace Server.Good

variable {hash : Uri → ℕ} {server : Server}

/-- The slots a record is opened in: wider when the table would be more than three quarters full. -/
lemma widened (h : server.Good hash) {slots : Table Record}
    (hslots : slots = if server.slots.length / 4 * 3 < server.count + 1 then
      server.slots.widen (keys hash) else server.slots) :
    Table.Ok (keys hash) slots ∧ slots.held = server.count ∧ 8 ≤ slots.length ∧
      server.count + 1 ≤ slots.length / 4 * 3 ∧
      ∀ record, slots.Holds record ↔ server.slots.Holds record := by
  have hleast := h.least
  have hload := h.load
  split at hslots
  next hfull =>
    obtain ⟨hok, hlength, hheld, hholds⟩ := h.ok.widen
    rw [hslots]
    exact ⟨hok, hheld.trans h.count_eq.symm, by omega, by omega, hholds⟩
  next hroom =>
    rw [hslots]
    exact ⟨h.ok, h.count_eq.symm, hleast, not_lt.mp hroom, fun _ => Iff.rfl⟩

/-- The server with its records in other slots. -/
lemma of_holds (h : server.Good hash) {slots : Table Record} (hok : Table.Ok (keys hash) slots)
    (hheld : slots.held = server.count) (hleast : 8 ≤ slots.length)
    (hload : server.count + 1 ≤ slots.length / 4 * 3)
    (hholds : ∀ record, slots.Holds record ↔ server.slots.Holds record) :
    Good hash { server with slots } ∧
      ∀ uri, find hash { server with slots } uri = server.find hash uri := by
  have hgood : Good hash { server with slots } :=
    ⟨h.active, hok, hheld.symm, hleast, (Nat.le_succ _).trans hload⟩
  exact ⟨hgood, fun uri => h.find_congr hgood fun record _ => hholds record⟩

/-- A record put in the slot of its URI is the one found there, and no other URI's changes. -/
lemma put (h : server.Good hash) (slots : Table Record) (record : Record) (count : ℕ)
    (hslots : slots = server.slots.put (keys hash) record)
    (hcount : count = if (server.find hash record.uri).isSome then server.count
      else server.count + 1)
    (hload : count ≤ server.slots.length / 4 * 3) :
    Good hash { server with slots, count } ∧
      ∀ uri, find hash { server with slots, count } uri =
        if record.uri = uri then some record else server.find hash uri := by
  have hlength : slots.length = server.slots.length := hslots ▸ Table.length_put record
  have hheld : slots.held = count := by
    rw [hslots, Table.held_put h.ok h.room, hcount, ← h.count_eq]
    rfl
  have hgood : Good hash { server with slots, count } :=
    ⟨h.active, hslots ▸ h.ok.put h.room record, hheld.symm, hlength ▸ h.least,
      hlength ▸ hload⟩
  have hholds : ∀ other, slots.Holds other ↔
      other = record ∨ (server.slots.Holds other ∧ other.uri ≠ record.uri) := by
    intro other
    rw [hslots]
    exact Table.holds_put h.ok h.room
  refine ⟨hgood, fun uri => ?_⟩
  split
  next huri =>
    rw [hgood.find_eq_some_iff]
    exact ⟨(hholds record).mpr (Or.inl rfl), huri⟩
  next huri =>
    refine h.find_congr hgood fun other hother => (hholds other).trans ?_
    constructor
    · rintro (rfl | ⟨hheld, -⟩)
      · exact absurd hother huri
      · exact hheld
    · intro hheld
      refine Or.inr ⟨hheld, ?_⟩
      rw [hother]
      exact fun heq => huri heq.symm

/-- A document closed is no longer found, and every other is. -/
lemma drop (h : server.Good hash) {uri : Uri} {record : Record}
    (hfind : server.find hash uri = some record) :
    Good hash (server.drop hash (server.slots.probe (keys hash) uri)) ∧
      ∀ other, find hash (server.drop hash (server.slots.probe (keys hash) uri)) other =
        if uri = other then none else server.find hash other := by
  obtain ⟨hok, hlength, hheld, hholds⟩ := h.ok.vacate hfind h.room
  obtain ⟨-, huri⟩ := h.find_eq_some_iff.mp hfind
  have hcount := h.count_eq
  have hload := h.load
  have hgood : Good hash (server.drop hash (server.slots.probe (keys hash) uri)) := by
    refine ⟨h.active, hok, ?_, hlength ▸ h.least, ?_⟩
    · rw [Server.drop]
      dsimp only
      omega
    · rw [Server.drop, hlength]
      dsimp only
      omega
  refine ⟨hgood, fun other => ?_⟩
  split
  next heq =>
    rw [hgood.find_eq_none_iff]
    intro held hr hother
    exact ((hholds held).mp hr).2 (hother.trans (heq ▸ huri.symm))
  next hne =>
    refine h.find_congr hgood fun held hother => (hholds held).trans ?_
    constructor
    · exact fun hand => hand.1
    · intro hheld
      refine ⟨hheld, fun heq => hne ?_⟩
      have hkey : held.uri = record.uri := heq
      rw [← huri, ← hkey, hother]

/-- An open with storage for it succeeds, and its record takes the place of the URI's last. -/
lemma «open» (h : server.Good hash) (opening : Opening) (uri : Uri) (version : ℤ)
    (text : List UInt8) :
    (text.length ≤ sourceCapacity ∧
      ∃ after, server.open hash opening uri version text = (.ok, after) ∧ after.Good hash ∧
      after.unit = server.unit ∧ ∀ other, after.find hash other =
        if uri = other then some ⟨uri, version, Session.open text server.unit opening.decide⟩
        else server.find hash other) ∨
    ((opening.widens = false ∨ opening.makes = false ∨ sourceCapacity < text.length) ∧
      ∃ after, server.open hash opening uri version text = (.internalError, after) ∧
        after.Good hash ∧ after.unit = server.unit ∧
        ∀ other, after.find hash other = server.find hash other) := by
  rw [Server.open, if_neg (not_not.mpr h.active)]
  dsimp only
  split
  next hnarrow => exact Or.inr ⟨Or.inl (by simpa using hnarrow.2), server, rfl, h, rfl, fun _ => rfl⟩
  next =>
  obtain ⟨hok, hheld, hleast, hload, hholds⟩ := h.widened rfl
  simp only [decide_eq_true_eq]
  set slots : Table Record := if server.slots.length / 4 * 3 < server.count + 1 then
    server.slots.widen (keys hash) else server.slots
  obtain ⟨hgood, hkept⟩ := h.of_holds hok hheld hleast hload hholds
  split
  next hfails =>
    refine Or.inr ⟨?_, _, rfl, hgood, rfl, hkept⟩
    rcases hfails with hlong | hmakes
    · exact Or.inr (Or.inr hlong)
    · exact Or.inr (Or.inl (by simpa using hmakes))
  next hfits =>
    rw [not_or, not_lt] at hfits
    set made : Record := ⟨uri, version, Session.open text server.unit opening.decide⟩
    have hput := hgood.put (slots.put (keys hash) made) made
      (if (slots.slot (slots.probe (keys hash) uri)).isSome then server.count
        else server.count + 1) rfl rfl (by
          dsimp only
          split <;> omega)
    refine Or.inl ⟨hfits.1, _, rfl, hput.1, rfl, fun other => (hput.2 other).trans ?_⟩
    rw [hkept]

/-- An update of a document that is open: refused for a scope whose ends stand in the other order,
and otherwise its edits are applied, or the document dropped. -/
lemma update (h : server.Good hash) (uri : Uri) (version : ℤ) (edits : List (Edit × Turn)) :
    (server.find hash uri = none ∧
      server.update hash uri version edits = (.invalidParams, server)) ∨
    ∃ record, server.find hash uri = some record ∧
      ((edits.any (fun edit => after edit.1.start edit.1.stop) = true ∧
        server.update hash uri version edits = (.invalidParams, server)) ∨
      edits.any (fun edit => after edit.1.start edit.1.stop) = false ∧
        ((∃ session after, applyEdits server.unit edits record.session = some session ∧
          server.update hash uri version edits = (.ok, after) ∧ after.Good hash ∧
          after.unit = server.unit ∧ ∀ other, after.find hash other =
            if uri = other then some { record with version, session }
            else server.find hash other) ∨
        ∃ after, applyEdits server.unit edits record.session = none ∧
          server.update hash uri version edits = (.internalError, after) ∧ after.Good hash ∧
          after.unit = server.unit ∧ ∀ other, after.find hash other =
            if uri = other then none else server.find hash other)) := by
  rw [Server.update, if_neg (not_not.mpr h.active)]
  dsimp only
  cases hfind : server.slots.slot (server.slots.probe (keys hash) uri) with
  | none => exact Or.inl ⟨hfind, rfl⟩
  | some record =>
    have hfound : server.find hash uri = some record := hfind
    refine Or.inr ⟨record, hfound, ?_⟩
    dsimp only
    split
    next hrefused => exact Or.inl ⟨hrefused, rfl⟩
    next htaken =>
      refine Or.inr ⟨by simpa using htaken, ?_⟩
      cases hedits : applyEdits server.unit edits record.session with
      | none =>
        obtain ⟨hgood, hothers⟩ := h.drop hfound
        exact Or.inr ⟨_, rfl, rfl, hgood, rfl, hothers⟩
      | some session =>
        obtain ⟨-, rfl⟩ := h.find_eq_some_iff.mp hfound
        have hput := h.put (server.slots.put (keys hash) { record with version, session })
          { record with version, session } server.count rfl
          (by
            dsimp only
            rw [hfound]
            rfl)
          h.load
        exact Or.inl ⟨session, _, rfl, rfl, hput.1, rfl, hput.2⟩

/-- A close of a document that is open. -/
lemma close (h : server.Good hash) (uri : Uri) :
    (server.find hash uri = none ∧ server.close hash uri = (.invalidParams, server)) ∨
    ∃ record after, server.find hash uri = some record ∧ server.close hash uri = (.ok, after) ∧
      after.Good hash ∧ after.unit = server.unit ∧
      ∀ other, after.find hash other = if uri = other then none else server.find hash other := by
  rw [Server.close, if_neg (not_not.mpr h.active)]
  dsimp only
  cases hfind : server.slots.slot (server.slots.probe (keys hash) uri) with
  | none => exact Or.inl ⟨hfind, rfl⟩
  | some record =>
    have hfound : server.find hash uri = some record := hfind
    obtain ⟨hgood, hothers⟩ := h.drop hfound
    exact Or.inr ⟨record, _, hfound, rfl, hgood, rfl, hothers⟩

end Server.Good

/-! ### What a run leaves of a URI -/

namespace Event

variable {unit : TextUnit} {uri : Uri} {event : Event}

lemma next_of_opens (unit : TextUnit) (h : event.Opens uri) (held : Option Record) :
    ∃ opening version text, event = (.open opening uri version text, .ok) ∧
      event.next unit uri held =
        some ⟨uri, version, Session.open text unit opening.decide⟩ := by
  rcases event with ⟨⟨opening, opened, version, text⟩ | _ | _, _ | _ | _ | _ | _⟩
  case «open».ok =>
    cases h
    exact ⟨opening, version, text, rfl, if_pos rfl⟩
  all_goals exact False.elim h

lemma next_of_ends (h : event.Ends uri) (held : Option Record) :
    event.next unit uri held = none := by
  rcases event with ⟨_ | _ | _, _ | _ | _ | _ | _⟩
  case close.ok => exact if_pos h
  case update.internalError => exact if_pos h
  all_goals exact False.elim h

lemma next_of_neither (hopens : ¬ event.Opens uri) (hends : ¬ event.Ends uri)
    (held : Option Record) :
    event.next unit uri held = held.map fun record => event.revise unit record := by
  rcases event with ⟨_ | _ | _, _ | _ | _ | _ | _⟩
  case «open».ok => exact (if_neg hopens).trans (by simp [revise])
  case close.ok => exact (if_neg hends).trans (by simp [revise])
  case update.internalError => exact (if_neg hends).trans (by simp [revise])
  all_goals rfl

/-- An event leaves the records of the URIs it is not about. -/
lemma next_of_other (hne : event.1.uri ≠ uri) {held : Option Record}
    (hheld : ∀ record, held = some record → record.uri = uri) :
    event.next unit uri held = held := by
  have hopens : ¬ event.Opens uri := by
    intro h
    obtain ⟨_, _, _, heq, -⟩ := next_of_opens unit h none
    exact hne (by rw [heq]; rfl)
  have hends : ¬ event.Ends uri := by
    intro h
    rcases event with ⟨_ | _ | _, _ | _ | _ | _ | _⟩
    case close.ok => exact hne h
    case update.internalError => exact hne h
    all_goals exact False.elim h
  rw [next_of_neither hopens hends]
  cases held with
  | none => rfl
  | some record =>
    have huri := hheld record rfl
    rw [Option.map_some]
    rcases event with ⟨_ | _ | _, _ | _ | _ | _ | _⟩
    case update.ok =>
      dsimp only [revise]
      rw [if_neg]
      rw [huri]
      exact hne
    all_goals rfl

end Event

/-- How the events of a run read as a history of one URI. -/
lemma reads_next (unit : TextUnit) (uri : Uri) :
    History.Reads (Event.next unit uri)
      (fun event record => ∃ opening version text,
        event = (.open opening uri version text, .ok) ∧
          record = ⟨uri, version, Session.open text unit opening.decide⟩)
      (Event.Ends uri) (Event.revise unit) where
  made held hmade := by
    obtain ⟨opening, version, text, rfl, rfl⟩ := hmade
    exact if_pos rfl
  ended held _ hends := Event.next_of_ends hends held
  revised held hnot hends := by
    refine Event.next_of_neither (fun hopens => ?_) hends held
    obtain ⟨opening, version, text, heq, -⟩ := Event.next_of_opens unit hopens none
    exact hnot _ ⟨opening, version, text, heq, rfl⟩

/-- A run leaves a record of a URI when an event opened it and none since then ended it: the record
the last such event made, as the events since then left it. -/
theorem recordAfter_eq_some_iff {unit : TextUnit} {uri : Uri} {events : List Event}
    {record : Record} :
    recordAfter unit uri events none = some record ↔
      ∃ before opening version text after,
        events = before ++ ((.open opening uri version text, .ok) : Event) :: after ∧
        (∀ event ∈ after, ¬ Event.Opens uri event ∧ ¬ Event.Ends uri event) ∧
        record = after.foldl (Event.revise unit)
          ⟨uri, version, Session.open text unit opening.decide⟩ := by
  rw [recordAfter, (reads_next unit uri).foldl_eq_some_iff]
  constructor
  · rintro ⟨before, event, made, after, heq, ⟨opening, version, text, rfl, rfl⟩, hquiet, hrecord⟩
    refine ⟨before, opening, version, text, after, heq, fun event hevent => ?_, hrecord⟩
    obtain ⟨hnot, hends⟩ := hquiet event hevent
    refine ⟨fun hopens => ?_, hends⟩
    obtain ⟨opening, version, text, heq, -⟩ := Event.next_of_opens unit hopens none
    exact hnot _ ⟨opening, version, text, heq, rfl⟩
  · rintro ⟨before, opening, version, text, after, heq, hquiet, hrecord⟩
    refine ⟨before, _, _, after, heq, ⟨opening, version, text, rfl, rfl⟩, fun event hevent => ?_,
      hrecord⟩
    obtain ⟨hopens, hends⟩ := hquiet event hevent
    refine ⟨?_, hends⟩
    rintro _ ⟨opening, version, text, rfl, -⟩
    exact hopens rfl

/-! ### A run -/

namespace Server.Good

variable {hash : Uri → ℕ} {server : Server}

lemma uri_eq (h : server.Good hash) {uri : Uri} {record : Record}
    (hfind : server.find hash uri = some record) : record.uri = uri :=
  (h.find_eq_some_iff.mp hfind).2

/-- A call keeps the store, and what it finds of a URI after is what the call and its answer make
of what it found before. -/
theorem step (h : server.Good hash) (call : Call) :
    (server.step hash call).2.Good hash ∧ (server.step hash call).2.unit = server.unit ∧
      ∀ uri, (server.step hash call).2.find hash uri =
        Event.next server.unit uri (server.find hash uri) (call, (server.step hash call).1) := by
  cases call with
  | «open» opening opened version text =>
    rcases h.open opening opened version text with ⟨-, after, heq, hgood, hunit, hfind⟩ |
      ⟨-, after, heq, hgood, hunit, hfind⟩
    · rw [Server.step, heq]
      exact ⟨hgood, hunit, hfind⟩
    · rw [Server.step, heq]
      refine ⟨hgood, hunit, fun uri => ?_⟩
      rw [hfind]
      exact ((Event.next_of_neither id id _).trans Option.map_id').symm
  | close closed =>
    rcases h.close closed with ⟨-, heq⟩ | ⟨record, after, -, heq, hgood, hunit, hfind⟩
    · rw [Server.step, heq]
      exact ⟨h, rfl, fun uri => ((Event.next_of_neither id id _).trans Option.map_id').symm⟩
    · rw [Server.step, heq]
      exact ⟨hgood, hunit, hfind⟩
  | update updated version edits =>
    rcases h.update updated version edits with ⟨-, heq⟩ | ⟨record, hheld, hcases⟩
    · rw [Server.step, heq]
      exact ⟨h, rfl, fun uri => ((Event.next_of_neither id id _).trans Option.map_id').symm⟩
    · rcases hcases with ⟨-, heq⟩ | ⟨-, ⟨session, after, hedits, heq, hgood, hunit, hfind⟩ |
        ⟨after, -, heq, hgood, hunit, hfind⟩⟩
      · rw [Server.step, heq]
        exact ⟨h, rfl, fun uri => ((Event.next_of_neither id id _).trans Option.map_id').symm⟩
      · rw [Server.step, heq]
        refine ⟨hgood, hunit, fun uri => (hfind uri).trans ?_⟩
        split
        next huri =>
          subst huri
          rw [hheld, Event.next_of_neither id id, Option.map_some]
          dsimp only [Event.revise]
          rw [if_pos (h.uri_eq hheld).symm, hedits, Option.getD_some]
        next huri =>
          have hne : (Call.update updated version edits).uri ≠ uri := huri
          exact (Event.next_of_other hne fun _ hother => h.uri_eq hother).symm
      · rw [Server.step, heq]
        exact ⟨hgood, hunit, hfind⟩

/-- A run keeps the store, and what it leaves of a URI is what its events make of it. -/
theorem run (h : server.Good hash) (calls : List Call) :
    (server.run hash calls).2.Good hash ∧ (server.run hash calls).2.unit = server.unit ∧
      ∀ uri, (server.run hash calls).2.find hash uri =
        recordAfter server.unit uri (server.run hash calls).1 (server.find hash uri) := by
  induction calls generalizing server with
  | nil => exact ⟨h, rfl, fun _ => rfl⟩
  | cons call calls ih =>
    obtain ⟨hgood, hunit, hfind⟩ := h.step call
    obtain ⟨hgood', hunit', hfind'⟩ := ih hgood
    refine ⟨hgood', hunit'.trans hunit, fun uri => (hfind' uri).trans ?_⟩
    rw [hfind, hunit]
    rfl

/-- The URIs with a record, each once, are as many as the server counts. -/
lemma opened (h : server.Good hash) :
    ∃ opened : Finset Uri, (∀ uri, uri ∈ opened ↔ (server.find hash uri).isSome = true) ∧
      server.count = opened.card := by
  refine ⟨(server.slots.records.map Record.uri).toFinset, fun uri => ?_, ?_⟩
  · rw [List.mem_toFinset, List.mem_map, Option.isSome_iff_exists]
    constructor
    · rintro ⟨record, hrecord, huri⟩
      exact ⟨record, h.find_eq_some_iff.mpr ⟨Table.mem_records.mp hrecord, huri⟩⟩
    · rintro ⟨record, hfind⟩
      obtain ⟨hheld, huri⟩ := h.find_eq_some_iff.mp hfind
      exact ⟨record, Table.mem_records.mpr hheld, huri⟩
  · have hnodup : (server.slots.records.map Record.uri).Nodup := h.ok.nodup_keys
    rw [List.toFinset_card_of_nodup hnodup, List.length_map, Table.length_records, h.count_eq]

end Server.Good

/-- The store is a finite map. After every run of an initialized server, for every hash:

* a lookup of a URI finds a record when an event opened the URI and none since then ended it, and
  the record is the one the last such event made, as the updates since then left it;
* the count is the number of URIs with a record;
* a slot is empty, and every record stands in one slot, where its URI's lookup finds it;
* another call leaves what every other URI finds; an open with storage for it succeeds; a close
  succeeds, and an update is taken up, when the URI has a record, and only then. -/
theorem Server.store_of_run (hash : Uri → ℕ) (units : List TextUnit) (calls : List Call) :
    let run := (Server.start units).run hash calls
    let server := run.2
    (∀ uri record, server.find hash uri = some record ↔
      ∃ before opening version text after,
        run.1 = before ++ ((.open opening uri version text, .ok) : Event) :: after ∧
        (∀ event ∈ after, ¬ Event.Opens uri event ∧ ¬ Event.Ends uri event) ∧
        record = after.foldl (Event.revise server.unit)
          ⟨uri, version, Session.open text server.unit opening.decide⟩) ∧
    (∃ opened : Finset Uri, (∀ uri, uri ∈ opened ↔ (server.find hash uri).isSome = true) ∧
      server.count = opened.card) ∧
    (∃ i < server.slots.length, server.slots.slot i = none) ∧
    (∀ i record, server.slots.slot i = some record → server.find hash record.uri = some record ∧
      ∀ j other, server.slots.slot j = some other → other.uri = record.uri → j = i) ∧
    (∀ call uri, call.uri ≠ uri →
      (server.step hash call).2.find hash uri = server.find hash uri) ∧
    (∀ opening uri version text, opening.widens = true → opening.makes = true →
      text.length ≤ sourceCapacity →
      (server.open hash opening uri version text).1 = .ok) ∧
    (∀ uri, (server.close hash uri).1 =
      if (server.find hash uri).isSome then .ok else .invalidParams) ∧
    ∀ uri version edits, server.find hash uri = none →
      server.update hash uri version edits = (.invalidParams, server) := by
  intro run server
  obtain ⟨hgood, hunit, hfind⟩ := (Server.start_good hash units).run calls
  refine ⟨fun uri record => ?_, hgood.opened, hgood.room, ?_, ?_, ?_, ?_, ?_⟩
  · have heq := hfind uri
    rw [Server.find_start] at heq
    rw [heq, hunit]
    exact recordAfter_eq_some_iff
  · intro i record hi
    refine ⟨hgood.find_eq_some_iff.mpr ⟨⟨i, hi⟩, rfl⟩, fun j other hj huri => ?_⟩
    exact hgood.ok.distinct j i other record hj hi huri
  · intro call uri huri
    rw [(hgood.step call).2.2 uri]
    exact Event.next_of_other huri fun record hrecord => hgood.uri_eq hrecord
  · intro opening uri version text hwidens hmakes hlength
    rcases hgood.open opening uri version text with ⟨-, after, heq, -⟩ | ⟨hfails, -⟩
    · exact congrArg Prod.fst heq
    · rw [hwidens, hmakes] at hfails
      rcases hfails with h | h | h
      · exact absurd h (by simp)
      · exact absurd h (by simp)
      · exact absurd hlength (not_le.mpr h)
  · intro uri
    rcases hgood.close uri with ⟨hnone, heq⟩ | ⟨record, after, hsome, heq, -⟩
    · rw [heq, hnone]
      rfl
    · rw [heq, hsome]
      rfl
  · intro uri version edits hnone
    rcases hgood.update uri version edits with ⟨-, heq⟩ | ⟨record, hsome, -⟩
    · exact heq
    · rw [hnone] at hsome
      exact absurd hsome (by simp)

end MarkdownCore.Lsp
