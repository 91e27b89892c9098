import MarkdownCore.Lsp.Json.Scan

/-!
# What the reader reads

A read answers OK on the texts that mean something, and on no others. What it appends to the tree
then is what the text means, a container before its members, with the index after its last
descendant (`Datum.values`), and the bytes of its strings and numbers in order (`Datum.content`).
-/

namespace MarkdownCore.Json

/-! ### A meaning, laid out -/

mutual

/-- The bytes of a meaning's strings and numbers. -/
def Datum.content : Datum → List UInt8
  | .null | .no | .yes => []
  | .number spelling => spelling
  | .string bytes => bytes
  | .array items => contentItems items
  | .object members => contentMembers members

def contentItems : List Datum → List UInt8
  | [] => []
  | v :: items => v.content ++ contentItems items

def contentMembers : List (List UInt8 × Datum) → List UInt8
  | [] => []
  | (name, v) :: members => name ++ v.content ++ contentMembers members

end

mutual

/-- The values of a meaning, from an index on, their bytes from a start on. -/
def Datum.values : Datum → ℕ → ℕ → List Value
  | .null, index, start => [⟨.null, index + 1, start, 0⟩]
  | .no, index, start => [⟨.no, index + 1, start, 0⟩]
  | .yes, index, start => [⟨.yes, index + 1, start, 0⟩]
  | .number spelling, index, start => [⟨.number, index + 1, start, spelling.length⟩]
  | .string bytes, index, start => [⟨.string, index + 1, start, bytes.length⟩]
  | .array items, index, start =>
    let values := valuesItems items (index + 1) start
    ⟨.array, index + 1 + values.length, start, 0⟩ :: values
  | .object members, index, start =>
    let values := valuesMembers members (index + 1) start
    ⟨.object, index + 1 + values.length, start, 0⟩ :: values

def valuesItems : List Datum → ℕ → ℕ → List Value
  | [], _, _ => []
  | v :: items, index, start =>
    let values := v.values index start
    values ++ valuesItems items (index + values.length) (start + v.content.length)

def valuesMembers : List (List UInt8 × Datum) → ℕ → ℕ → List Value
  | [], _, _ => []
  | (name, v) :: members, index, start =>
    let values := v.values (index + 1) (start + name.length)
    ⟨.string, index + 1, start, name.length⟩ :: values ++
      valuesMembers members (index + 1 + values.length)
        (start + (name ++ v.content).length)

end

lemma Quoted.head {s d : List UInt8} (h : Quoted s d) : ∃ t, s = 34 :: t := by
  obtain ⟨hchars⟩ := h
  exact ⟨_, rfl⟩

/-! ### Readers of a grammar -/

namespace Reader

section

variable {ι : Type} {storage : ℕ → Bool}

/-- A reader of what a grammar derives, from a text that something of it starts, up to where it
ends: it appends what that means. -/
structure Reads (storage : ℕ → Bool) (read : Reader → Except Status Reader)
    (At : List UInt8 → Prop) (P : List UInt8 → ι → Prop) (Ends : List UInt8 → Prop)
    (values : ι → ℕ → ℕ → List Value) (content : ι → List UInt8) : Prop where
  sound : ∀ {r r'}, At r.text → read r = .ok r' → ∃ u x, P u x ∧ r.text = u ++ r'.text ∧
    r'.values = r.values ++ values x r.values.length r.bytes.length ∧
    r'.bytes = r.bytes ++ content x
  complete : (∀ n, storage n = true) → ∀ {u x}, P u x → ∀ {rest}, Ends rest → ∀ vs bs,
    read ⟨vs, bs, u ++ rest⟩ =
      .ok ⟨vs ++ values x vs.length bs.length, bs ++ content x, rest⟩

/-- Something with spaces before it. -/
inductive Led (P : List UInt8 → ι → Prop) : List UInt8 → ι → Prop
  | mk {w u : List UInt8} {x : ι} (hw : Spaces w) (h : P u x) : Led P (w ++ u) x

lemma modify_pushed (vs : List Value) (value : Value) (more : List Value)
    (f : Value → Value) :
    (vs ++ value :: more).modify vs.length f = vs ++ f value :: more := by
  induction vs with
  | nil => rfl
  | cons v vs ih => exact congrArg (v :: ·) ih

/-! ### Strings and numbers -/

def stringValues (bytes : List UInt8) (index start : ℕ) : List Value :=
  [⟨.string, index + 1, start, bytes.length⟩]

/-- A number means its spelling. -/
def Spelled (u spelling : List UInt8) : Prop := Number u ∧ spelling = u

def numberValues (spelling : List UInt8) (index start : ℕ) : List Value :=
  [⟨.number, index + 1, start, spelling.length⟩]

lemma reads_string : Reads storage (readString storage) (fun t => t.head? = some 34) Quoted
    (fun _ => True) stringValues id := by
  constructor
  · intro r r' hat h
    rw [readString] at h
    cases hpush : r.push storage .string with
    | error status =>
      rw [hpush] at h
      cases h
    | ok pushed =>
      rw [hpush, ok_bind] at h
      cases hread : readChars storage r.text.length { pushed with text := r.text.tail } with
      | error status =>
        rw [hread] at h
        cases h
      | ok read =>
        rw [hread, ok_bind] at h
        obtain ⟨u, d, hchars, htext, hvalues, hbytes⟩ := readChars_sound hread
        have hr := push_sound hpush
        cases ht : r.text with
        | nil =>
          rw [ht] at hat
          cases hat
        | cons b t =>
          rw [ht] at hat htext
          cases hat
          rw [hr] at hvalues hbytes
          rw [← Except.ok.inj h]
          refine ⟨34 :: (u ++ [34]), d, Quoted.mk hchars, ?_, ?_, hbytes⟩
          · simpa [setBytes] using htext
          · simp only [setBytes, hvalues, hbytes, List.length_append]
            rw [modify_pushed, Nat.add_sub_cancel_left, stringValues]
  · intro hstorage u d h rest _ vs bs
    obtain ⟨hchars⟩ := h
    rename_i u
    have hfuel : u.length < (34 :: (u ++ [34]) ++ rest).length := by
      rw [List.length_append, List.length_cons, List.length_append]
      omega
    have hread := readChars_complete hstorage hchars hfuel
      (vs ++ [⟨.string, vs.length + 1, bs.length, 0⟩]) bs rest
    rw [readString, push_eq hstorage, ok_bind]
    simp only [List.cons_append, List.append_assoc, List.nil_append, List.tail_cons] at hread ⊢
    rw [hread, ok_bind]
    simp only [setBytes, List.length_append, Nat.add_sub_cancel_left]
    rw [modify_pushed]
    rfl

lemma reads_number : Reads storage (readNumber storage) (fun _ => True) Spelled
    (Past goesOn) numberValues id := by
  constructor
  · intro r r' _ h
    rw [readNumber] at h
    cases hend : numberEnd r.text with
    | none =>
      rw [hend] at h
      cases h
    | some rest =>
      rw [hend] at h
      obtain ⟨u, hu, htext⟩ := numberEnd_sound hend
      have hspelling : r.text.take (r.text.length - rest.length) = u := by
        rw [htext, List.length_append, Nat.add_sub_cancel, List.take_left]
      simp only [hspelling] at h
      cases hpush : r.push storage .number with
      | error status =>
        rw [hpush] at h
        cases h
      | ok pushed =>
        rw [hpush, ok_bind] at h
        cases hput : { pushed with text := rest }.put storage u with
        | error status =>
          rw [hput] at h
          cases h
        | ok read =>
          rw [hput, ok_bind] at h
          rw [push_sound hpush] at hput
          have hread := put_sound hput
          rw [← Except.ok.inj h, hread]
          refine ⟨u, u, ⟨hu, rfl⟩, htext, ?_, rfl⟩
          exact modify_pushed r.values _ [] _
  · rintro hstorage u _ ⟨h, rfl⟩ rest hrest vs bs
    rename_i u
    have hspelling : (u ++ rest).take ((u ++ rest).length - rest.length) = u := by
      rw [List.length_append, Nat.add_sub_cancel, List.take_left]
    have hend := numberEnd_complete h hrest
    rw [readNumber]
    simp only [hend, hspelling, push_eq hstorage, put_eq hstorage, ok_bind]
    rw [modify_pushed]
    rfl

/-! ### Members' names -/

/-- A name, with spaces about it, and a colon. -/
inductive Named : List UInt8 → List UInt8 → Prop
  | mk {w s w' name : List UInt8} (hw : Spaces w) (h : Quoted s name) (hw' : Spaces w') :
    Named (w ++ (s ++ (w' ++ [58]))) name

lemma past_space {b : UInt8} {t : List UInt8} (h : isSpace b = false) : Past isSpace (b :: t) :=
  past_cons.mpr h

lemma skip_eq {vs : List Value} {bs w t : List UInt8} (hw : Spaces w) (ht : Past isSpace t) :
    skipSpace ⟨vs, bs, w ++ t⟩ = ⟨vs, bs, t⟩ := by
  rw [skipSpace]
  simp only
  rw [(takeWhile_append_past hw ht).2]

lemma skip_split (r : Reader) : ∃ w, Spaces w ∧ r.text = w ++ r.skipSpace.text ∧
    Past isSpace r.skipSpace.text :=
  ⟨r.text.takeWhile isSpace, fun _ => mem_takeWhile, List.takeWhile_append_dropWhile.symm,
    past_dropWhile isSpace r.text⟩

lemma reads_name : Reads storage (readName storage) (fun _ => True) Named (fun _ => True)
    stringValues id := by
  constructor
  · intro r r' _ h
    rw [readName] at h
    split at h
    next => cases h
    next hquote =>
      have hquote := not_not.mp hquote
      obtain ⟨w, hw, htext, -⟩ := skip_split r
      cases hread : r.skipSpace.readString storage with
      | error status =>
        rw [hread] at h
        cases h
      | ok name =>
        rw [hread, ok_bind] at h
        obtain ⟨s, d, hs, htext', hvalues, hbytes⟩ := reads_string.sound hquote hread
        obtain ⟨w', hw', htext'', -⟩ := skip_split name
        split at h
        next => cases h
        next hcolon =>
          have hcolon := not_not.mp hcolon
          cases hskip : name.skipSpace.text with
          | nil =>
            rw [hskip] at hcolon
            cases hcolon
          | cons b t =>
            rw [hskip] at hcolon htext''
            cases hcolon
            rw [← Except.ok.inj h, hskip]
            refine ⟨_, d, Named.mk hw hs hw', ?_, hvalues, hbytes⟩
            rw [htext, htext', htext'']
            simp only [List.append_assoc, List.cons_append, List.nil_append, List.tail_cons]
  · intro hstorage u d h rest _ vs bs
    obtain ⟨hw, h, hw'⟩ := h
    rename_i w s w'
    obtain ⟨t, rfl⟩ := Quoted.head h
    have hskip : skipSpace ⟨vs, bs, w ++ (34 :: t ++ (w' ++ [58])) ++ rest⟩ =
        ⟨vs, bs, 34 :: t ++ (w' ++ 58 :: rest)⟩ := by
      have heq : w ++ (34 :: t ++ (w' ++ [58])) ++ rest = w ++ (34 :: t ++ (w' ++ 58 :: rest)) := by
        simp only [List.append_assoc, List.cons_append, List.nil_append]
      rw [heq]
      exact skip_eq hw (past_space rfl)
    have hcolon : ∀ vs bs, skipSpace ⟨vs, bs, w' ++ 58 :: rest⟩ = ⟨vs, bs, 58 :: rest⟩ :=
      fun vs bs => skip_eq hw' (past_space rfl)
    rw [readName, hskip, if_neg (by simp), reads_string.complete hstorage h trivial, ok_bind, hcolon]
    rfl

end

end Reader

end MarkdownCore.Json
