import Mathlib.Data.List.GetD
import MarkdownCore.Uses.Index

/-!
# The index holds the uses

Putting a use in the index keeps every use's name and place, and the links of the notes: a new note
is the first of its name. So the index, once made, answers with where each use of the altered labels
starts that starts in a span.
-/

namespace MarkdownCore.Uses

open Declarations (Kind Label Key)

variable {normalize : Label → Label} {e : UseIndex}

/-! ### Links -/

lemma Linked.congr {notes notes' : ℕ → UseNote} {ids : List ℕ}
    (hnext : ∀ id ∈ ids, (notes' id).next = (notes id).next) {first : Option ℕ}
    (h : Linked notes first ids) : Linked notes' first ids := by
  induction ids generalizing first with
  | nil => exact h
  | cons id ids ih =>
    obtain ⟨hfirst, hids⟩ := h
    refine ⟨hfirst, ?_⟩
    rw [hnext id List.mem_cons_self]
    exact ih (fun j hj => hnext j (List.mem_cons_of_mem id hj)) hids

lemma Linked.first_mem {notes : ℕ → UseNote} {ids : List ℕ} {id : ℕ}
    (h : Linked notes (some id) ids) : id ∈ ids := by
  cases ids with
  | nil => cases h
  | cons j ids =>
    obtain ⟨hfirst, -⟩ := h
    rw [Option.some.inj hfirst]
    exact List.mem_cons_self

/-- The way along the links of notes whose numbers are all below the bound. -/
lemma noteIds_of_linked {ids : List ℕ} (hnodup : ids.Nodup) {bound : ℕ}
    (hbound : ∀ id ∈ ids, id < bound) {first : Option ℕ} (h : Linked e.notes first ids) :
    e.noteIds bound first = ids := by
  have hlength : ids.length ≤ bound := by
    have hsub : ids.Subperm (List.range bound) :=
      List.subperm_of_subset hnodup fun id hid => List.mem_range.mpr (hbound id hid)
    simpa using hsub.length_le
  clear hbound hnodup
  induction ids generalizing first bound with
  | nil =>
    obtain rfl : first = none := h
    cases bound <;> rfl
  | cons id ids ih =>
    obtain ⟨rfl, hids⟩ := h
    cases bound with
    | zero => simp at hlength
    | succ bound =>
      rw [UseIndex.noteIds, ih hids (by simpa using hlength)]

/-! ### Parts -/

section

variable (e : UseIndex) (back : Bool) (uses : List Use)

@[simp] lemma part_setPart : (e.setPart back uses).part back = uses := by
  cases back <;> rfl

lemma part_setPart_ne {back' : Bool} (h : back' ≠ back) :
    (e.setPart back uses).part back' = e.part back' := by
  cases back <;> cases back'
  · exact absurd rfl h
  · rfl
  · rfl
  · exact absurd rfl h

@[simp] lemma notes_setPart : (e.setPart back uses).notes = e.notes := rfl

@[simp] lemma names_setPart : (e.setPart back uses).names = e.names := rfl

@[simp] lemma noteCount_setPart : (e.setPart back uses).noteCount = e.noteCount := rfl

@[simp] lemma spare_setPart : (e.setPart back uses).spare = e.spare := rfl

@[simp] lemma labels_setPart : (e.setPart back uses).labels = e.labels := rfl

@[simp] lemma indexed_setPart : (e.setPart back uses).indexed = e.indexed := rfl

@[simp] lemma size_setPart : (e.setPart back uses).uses.size = e.uses.size := by
  cases back <;> rfl

end

/-! ### A use noted -/

lemma empty_ok (size : ℕ) : (empty size).Ok where
  linked _ := ⟨[], rfl, List.nodup_nil, by simp [empty]⟩
  spared := ⟨[], rfl, List.nodup_nil, by simp⟩
  noted back use h := by cases back <;> cases h
  owned id h := absurd h (Nat.not_lt_zero id)
  written back use h := by cases back <;> cases h
  usesFrom_le := le_rfl
  held h := by cases h

lemma mem_part_use {start : ℕ} {kind : Kind} {label : Label} {back : Bool} {use : Use}
    (h : use ∈ (e.use start kind label).part back) :
    use ∈ e.part back ∨
      back = false ∧ use = ⟨start, .written e.labels.length label.length, kind⟩ := by
  cases back with
  | false =>
    rcases List.mem_append.mp (show use ∈ e.uses.front ++ [_] from h) with h | h
    · exact Or.inl h
    · exact Or.inr ⟨rfl, List.mem_singleton.mp h⟩
  | true => exact Or.inl h

lemma mem_use_part (start : ℕ) (kind : Kind) (label : Label) {back : Bool} {use : Use}
    (h : use ∈ e.part back) : use ∈ (e.use start kind label).part back := by
  cases back with
  | false => exact List.mem_append_left _ h
  | true => exact h

lemma use_ok (h : e.Ok) (start : ℕ) (kind : Kind) (label : Label) :
    (e.use start kind label).Ok := by
  constructor
  · exact h.linked
  · exact h.spared
  · intro back use hin id hlabel
    rcases mem_part_use hin with hin | ⟨-, rfl⟩
    · exact h.noted back use hin id hlabel
    · cases hlabel
  · intro id hlt hsome
    obtain ⟨use, hin, hlabel⟩ := h.owned id hlt hsome
    exact ⟨use, mem_use_part start kind label hin, hlabel⟩
  · intro back use hin at' size hlabel
    show at' + size ≤ (e.labels ++ label).length
    rw [List.length_append]
    rcases mem_part_use hin with hin | ⟨-, rfl⟩
    · exact (h.written back use hin at' size hlabel).trans (Nat.le_add_right _ _)
    · cases hlabel
      exact le_rfl
  · show e.usesFrom ≤ (e.uses.front ++
      [(⟨start, .written e.labels.length label.length, kind⟩ : Use)]).length
    rw [List.length_append]
    exact h.usesFrom_le.trans (Nat.le_add_right _ _)
  · intro hindexed back i use hi hfrom
    cases back with
    | true => exact h.held hindexed true i use hi hfrom
    | false =>
      have hlt : i < e.uses.front.length := by
        rcases hfrom with hfrom | hfrom
        · cases hfrom
        · exact lt_of_lt_of_le hfrom h.usesFrom_le
      have hi' : (e.uses.front ++ [_])[i]? = some use := hi
      rw [List.getElem?_append_left hlt] at hi'
      exact h.held hindexed false i use hi' hfrom

/-! ### A note -/

/-- What a note changes: a new note is the first of its name, and every other stands but for the one
before it. -/
structure Noted (e e' : UseIndex) (id : ℕ) (name : Key) (start : ℕ) (back : Bool) : Prop where
  fresh : id < e.noteCount → (e.notes id).name = none
  lt : id < e'.noteCount
  noteCount : ∀ j, j < e'.noteCount ↔ j = id ∨ j < e.noteCount
  name_eq : (e'.notes id).name = some name
  start_eq : (e'.notes id).start = start
  back_eq : (e'.notes id).back = back
  next_eq : (e'.notes id).next = (e.names name).bind UseName.first
  other : ∀ j ≠ id, (e'.notes j).name = (e.notes j).name ∧ (e'.notes j).start = (e.notes j).start ∧
    (e'.notes j).back = (e.notes j).back ∧ (e'.notes j).next = (e.notes j).next
  first : (e'.names name).bind UseName.first = some id
  names : ∀ name' ≠ name, e'.names name' = e.names name'
  spared : ∃ ids, Linked e'.notes e'.spare ids ∧ ids.Nodup ∧
    ∀ j ∈ ids, j < e'.noteCount ∧ (e'.notes j).name = none
  labels : e'.labels = e.labels
  uses : e'.uses = e.uses
  indexed : e'.indexed = e.indexed

/-- The number a note takes: the first let go, or a new one. -/
lemma note_fresh (h : e.Ok) :
    (e.spare.getD e.noteCount < e.noteCount → (e.notes (e.spare.getD e.noteCount)).name = none) ∧
      ∀ j, j < (if e.spare.isNone then e.noteCount + 1 else e.noteCount) ↔
        j = e.spare.getD e.noteCount ∨ j < e.noteCount := by
  obtain ⟨ids, hlinked, -, hids⟩ := h.spared
  cases hspare : e.spare with
  | none =>
    constructor
    · intro hlt
      exact absurd hlt (lt_irrefl _)
    · intro j
      simp only [Option.isNone_none, if_true, Option.getD_none]
      exact ⟨fun hj => (Nat.lt_succ_iff_lt_or_eq.mp hj).symm,
        fun hj => Nat.lt_succ_iff_lt_or_eq.mpr hj.symm⟩
  | some spare =>
    rw [hspare] at hlinked
    obtain ⟨hlt, hname⟩ := hids spare hlinked.first_mem
    constructor
    · intro _
      exact hname
    · intro j
      simp only [Option.isNone_some, Bool.false_eq_true, if_false, Option.getD_some]
      exact ⟨Or.inr, fun hj => hj.elim (fun heq => heq ▸ hlt) id⟩

lemma note_noted (h : e.Ok) (name : Key) (start size : ℕ) (back : Bool) :
    Noted e (e.note name start size back).1 (e.note name start size back).2 name start back := by
  obtain ⟨hfresh, hcount⟩ := note_fresh h
  set id := e.spare.getD e.noteCount with hid
  set first := ((e.names name).getD ⟨none, 0⟩).first with hfirst
  have hfirst' : first = (e.names name).bind UseName.first := by
    rw [hfirst]
    cases e.names name <;> rfl
  set new : UseNote := ⟨some name, start, first, none, back⟩ with hnew
  -- the note before is another: it has a name, and the new number has none
  have hne : ∀ j, first = some j → j ≠ id := by
    intro j hj heq
    obtain ⟨ids, hlinked, -, hids⟩ := h.linked name
    rw [← hfirst', hj] at hlinked
    obtain ⟨hlt, hname⟩ := (hids j).mp hlinked.first_mem
    rw [heq] at hlt hname
    rw [hfresh hlt] at hname
    cases hname
  have hnotes : ∀ j, ((e.note name start size back).1.notes j) =
      if first = some j then { Function.update e.notes id new j with prior := some id }
      else Function.update e.notes id new j := by
    intro j
    show setPrior (Function.update e.notes id new) id first j = _
    cases first with
    | none =>
      rw [if_neg (by simp)]
      rfl
    | some k =>
      by_cases hk : k = j
      · subst hk
        rw [if_pos rfl]
        exact Function.update_self ..
      · rw [if_neg fun heq => hk (Option.some.inj heq)]
        exact Function.update_of_ne (Ne.symm hk) ..
  have hself : (e.note name start size back).1.notes id = new := by
    rw [hnotes, if_neg fun heq => hne id heq rfl, Function.update_self]
  have hother : ∀ j ≠ id, ((e.note name start size back).1.notes j).name = (e.notes j).name ∧
      ((e.note name start size back).1.notes j).start = (e.notes j).start ∧
      ((e.note name start size back).1.notes j).back = (e.notes j).back ∧
      ((e.note name start size back).1.notes j).next = (e.notes j).next := by
    intro j hj
    rw [hnotes, Function.update_of_ne hj]
    split
    · exact ⟨rfl, rfl, rfl, rfl⟩
    · exact ⟨rfl, rfl, rfl, rfl⟩
  refine ⟨hfresh, (hcount id).mpr (Or.inl rfl), hcount, congrArg UseNote.name hself,
    congrArg UseNote.start hself, congrArg UseNote.back hself,
    (congrArg UseNote.next hself).trans hfirst', hother, ?_, ?_, ?_, rfl, rfl, rfl⟩
  · show (Function.update e.names name _ name).bind UseName.first = some id
    rw [Function.update_self]
    rfl
  · intro name' hname'
    exact Function.update_of_ne hname' ..
  · obtain ⟨ids, hlinked, hnodup, hids⟩ := h.spared
    -- the first of those let go, if any, is the one taken
    have hspare : ∃ rest, Linked e.notes (e.spare.bind fun spare => (e.notes spare).next) rest ∧
        rest.Nodup ∧ ∀ j ∈ rest, j ≠ id ∧ j ∈ ids := by
      cases ids with
      | nil =>
        have hnone : e.spare = none := hlinked
        exact ⟨[], by rw [hnone]; rfl, List.nodup_nil, by simp⟩
      | cons k ids =>
        obtain ⟨hk, hrest⟩ := hlinked
        obtain ⟨hnotMem, hnodup⟩ := List.nodup_cons.mp hnodup
        have hid' : id = k := by rw [hid, hk]; rfl
        refine ⟨ids, by rw [hk]; exact hrest, hnodup, fun j hj => ⟨?_, List.mem_cons_of_mem k hj⟩⟩
        rintro rfl
        exact hnotMem (hid' ▸ hj)
    obtain ⟨rest, hrest, hrestNodup, hmem⟩ := hspare
    refine ⟨rest, hrest.congr fun j hj => (hother j (hmem j hj).1).2.2.2, hrestNodup, ?_⟩
    intro j hj
    obtain ⟨hj', hjids⟩ := hmem j hj
    obtain ⟨hlt, hname⟩ := hids j hjids
    exact ⟨(hcount j).mpr (Or.inr hlt), by rw [(hother j hj').1, hname]⟩

/-! ### A use put in the index -/

/-- A note's index has the links of each name, the new note first of its own. -/
lemma Noted.linked {e' : UseIndex} {id start : ℕ} {name : Key} {back : Bool} (h : e.Ok)
    (hnoted : Noted e e' id name start back) (name' : Key) :
    ∃ ids, Linked e'.notes ((e'.names name').bind UseName.first) ids ∧ ids.Nodup ∧
      ∀ j, j ∈ ids ↔ j < e'.noteCount ∧ (e'.notes j).name = some name' := by
  obtain ⟨ids, hlinked, hnodup, hids⟩ := h.linked name'
  have hnotMem : id ∉ ids := by
    intro hin
    obtain ⟨hlt, hname⟩ := (hids id).mp hin
    rw [hnoted.fresh hlt] at hname
    cases hname
  have hne : ∀ j ∈ ids, j ≠ id := by
    rintro j hj rfl
    exact hnotMem hj
  have hlinked' : Linked e'.notes ((e.names name').bind UseName.first) ids :=
    hlinked.congr fun j hj => (hnoted.other j (hne j hj)).2.2.2
  have hold : ∀ j, j ≠ id →
      (j ∈ ids ↔ j < e'.noteCount ∧ (e'.notes j).name = some name') := by
    intro j hj
    rw [hids, hnoted.noteCount, (hnoted.other j hj).1, or_iff_right hj]
  by_cases hname : name' = name
  · subst hname
    refine ⟨id :: ids, ⟨hnoted.first, by rwa [hnoted.next_eq]⟩,
      List.nodup_cons.mpr ⟨hnotMem, hnodup⟩, ?_⟩
    intro j
    by_cases hj : j = id
    · subst hj
      exact ⟨fun _ => ⟨hnoted.lt, hnoted.name_eq⟩, fun _ => List.mem_cons_self⟩
    · rw [List.mem_cons, or_iff_right hj, hold j hj]
  · refine ⟨ids, by rwa [hnoted.names name' hname], hnodup, ?_⟩
    intro j
    by_cases hj : j = id
    · subst hj
      constructor
      · intro hin
        exact absurd hin hnotMem
      · rintro ⟨-, heq⟩
        rw [hnoted.name_eq] at heq
        exact absurd (Option.some.inj heq).symm hname
    · exact hold j hj

/-- What putting the use at an index of a part in the index does. -/
lemma noteAt_cases (normalize : Label → Label) (back : Bool) (e : UseIndex) (i : ℕ) :
    (∃ start label size kind, (e.part back)[i]? = some ⟨start, .written label size, kind⟩ ∧
      e.noteAt normalize back i =
        (e.note (e.useName normalize kind label size) start size back).1.setPart back
          ((e.part back).set i ⟨start,
            .noted (e.note (e.useName normalize kind label size) start size back).2, kind⟩)) ∨
    ((∀ use : Use, (e.part back)[i]? = some use → ∃ id, use.label = .noted id) ∧
      e.noteAt normalize back i = e) := by
  cases huse : (e.part back)[i]? with
  | none =>
    refine Or.inr ⟨fun use h => absurd h (by simp), ?_⟩
    rw [UseIndex.noteAt, huse]
  | some use =>
    obtain ⟨start, label, kind⟩ := use
    cases label with
    | written label size =>
      refine Or.inl ⟨start, label, size, kind, rfl, ?_⟩
      rw [UseIndex.noteAt, huse]
    | noted id =>
      refine Or.inr ⟨fun use h => ⟨id, ?_⟩, ?_⟩
      · rw [← Option.some.inj h]
      · rw [UseIndex.noteAt, huse]

/-- The uses of a part, by name. -/
def UseIndex.named (normalize : Label → Label) (e : UseIndex) (back : Bool) :
    List (Option Key × ℕ) :=
  (e.part back).map fun use => (e.nameOf normalize use, use.start)

lemma entries_eq_named : e.entries normalize =
    e.named normalize false ++
      (e.named normalize true).map fun entry => (entry.1, e.uses.size - entry.2) := by
  rw [UseIndex.entries, UseIndex.named, UseIndex.named, List.map_map]
  rfl

/-- Putting a use in the index keeps the index, each use's name and place, the uses it held and the
length of each part. -/
structure Kept (normalize : Label → Label) (e e' : UseIndex) : Prop where
  ok : e'.Ok
  entries : e'.entries normalize = e.entries normalize
  length : ∀ back, (e'.part back).length = (e.part back).length
  noted : ∀ (back : Bool) (i : ℕ) (use : Use) (id : ℕ), (e.part back)[i]? = some use →
    use.label = .noted id → ∃ use', (e'.part back)[i]? = some use' ∧ use'.label = .noted id
  indexed : e'.indexed = e.indexed

lemma Kept.refl (h : e.Ok) : Kept normalize e e where
  ok := h
  entries := rfl
  length _ := rfl
  noted _ _ use _ huse hlabel := ⟨use, huse, hlabel⟩
  indexed := rfl

lemma Kept.trans {e' e'' : UseIndex} (h : Kept normalize e e') (h' : Kept normalize e' e'') :
    Kept normalize e e'' where
  ok := h'.ok
  entries := h'.entries.trans h.entries
  length back := (h'.length back).trans (h.length back)
  noted back i use id huse hlabel := by
    obtain ⟨use', huse', hlabel'⟩ := h.noted back i use id huse hlabel
    exact h'.noted back i use' id huse' hlabel'
  indexed := h'.indexed.trans h.indexed

/-- A note changes the name of no use the index holds. -/
lemma Noted.nameOf_eq {e' : UseIndex} {id start : ℕ} {name : Key} {back : Bool} (h : e.Ok)
    (hnoted : Noted e e' id name start back) {back' : Bool} {use : Use} (huse : use ∈ e.part back') :
    e'.nameOf normalize use = e.nameOf normalize use := by
  cases hlabel : use.label with
  | written label size =>
    simp only [UseIndex.nameOf, hlabel, UseIndex.useName, hnoted.labels]
  | noted j =>
    obtain ⟨hlt, hname, -, -⟩ := h.noted back' use huse j hlabel
    have hne : j ≠ id := by
      rintro rfl
      rw [hnoted.fresh hlt] at hname
      cases hname
    simp only [UseIndex.nameOf, hlabel, (hnoted.other j hne).1]

lemma noteAt_kept (h : e.Ok) (back : Bool) (i : ℕ) :
    Kept normalize e (e.noteAt normalize back i) := by
  rcases noteAt_cases normalize back e i with
    ⟨start, label, size, kind, huse, heq⟩ | ⟨-, heq⟩
  · rw [heq]
    set name := e.useName normalize kind label size with hname
    have hnoted := note_noted h name start size back
    set e' := (e.note name start size back).1 with he'
    set id := (e.note name start size back).2 with hid
    have hpart : ∀ back', e'.part back' = e.part back' := by
      intro back'
      cases back'
      · exact congrArg Zipper.front hnoted.uses
      · exact congrArg Zipper.back hnoted.uses
    have hmem : (⟨start, .written label size, kind⟩ : Use) ∈ e.part back :=
      List.mem_of_getElem? huse
    have hi : i < (e.part back).length := (List.getElem?_eq_some_iff.mp huse).1
    -- a use of the new parts is an old one or the one put in the index
    have hcases : ∀ back', ∀ use ∈ (e'.setPart back ((e.part back).set i
        ⟨start, .noted id, kind⟩)).part back', use ∈ e.part back' ∨
          back' = back ∧ use = ⟨start, .noted id, kind⟩ := by
      intro back' use hin
      by_cases hback : back' = back
      · subst hback
        rw [part_setPart] at hin
        rcases List.mem_or_eq_of_mem_set hin with hin | heq
        · exact Or.inl hin
        · exact Or.inr ⟨rfl, heq⟩
      · rw [part_setPart_ne _ _ _ hback, hpart] at hin
        exact Or.inl hin
    -- a use the index held stands where it stood
    have hstands : ∀ (back' : Bool) (k : ℕ) (use : Use) (j : ℕ), (e.part back')[k]? = some use →
        use.label = .noted j → ((e'.setPart back ((e.part back).set i
          ⟨start, .noted id, kind⟩)).part back')[k]? = some use := by
      intro back' k use j hk hlabel
      by_cases hback : back' = back
      · subst hback
        have hne : i ≠ k := by
          rintro rfl
          rw [huse] at hk
          rw [← Option.some.inj hk] at hlabel
          cases hlabel
        rw [part_setPart, List.getElem?_set_ne hne, hk]
      · rw [part_setPart_ne _ _ _ hback, hpart, hk]
    have hold : ∀ back', ∀ use ∈ e.part back', ∀ j, use.label = .noted j → j ≠ id := by
      rintro back' use hin j hlabel rfl
      obtain ⟨hlt, hsome, -, -⟩ := h.noted back' use hin _ hlabel
      rw [hnoted.fresh hlt] at hsome
      cases hsome
    have hnamed : ∀ back', (e'.setPart back ((e.part back).set i
        ⟨start, .noted id, kind⟩)).named normalize back' = e.named normalize back' := by
      intro back'
      have hsame : ∀ use ∈ e.part back', (e'.nameOf normalize use, use.start) =
          (e.nameOf normalize use, use.start) := by
        intro use hin
        rw [hnoted.nameOf_eq h hin]
      by_cases hback : back' = back
      · subst hback
        show ((e'.setPart back' _).part back').map (fun use => (e'.nameOf normalize use, use.start)) =
          (e.part back').map _
        rw [part_setPart, List.map_set, List.map_congr_left hsame]
        have hi' : i < ((e.part back').map fun use => (e.nameOf normalize use, use.start)).length := by
          rwa [List.length_map]
        have hget : ((e.part back').map fun use => (e.nameOf normalize use, use.start))[i] =
            (some name, start) := by
          rw [List.getElem_map, (List.getElem?_eq_some_iff.mp huse).2]
          rfl
        have hnew : e'.nameOf normalize ⟨start, .noted id, kind⟩ = some name := hnoted.name_eq
        rw [hnew, ← hget]
        exact List.set_getElem_self hi'
      · show ((e'.setPart back _).part back').map (fun use => (e'.nameOf normalize use, use.start)) =
          (e.part back').map _
        rw [part_setPart_ne _ _ _ hback, hpart, List.map_congr_left hsame]
    have hlengths : ∀ back', ((e'.setPart back ((e.part back).set i
        ⟨start, .noted id, kind⟩)).part back').length = (e.part back').length := by
      intro back'
      by_cases hback : back' = back
      · subst hback
        rw [part_setPart, List.length_set]
      · rw [part_setPart_ne _ _ _ hback, hpart]
    constructor
    · constructor
      · intro name'
        exact hnoted.linked h name'
      · exact hnoted.spared
      · intro back' use hin j hlabel
        rcases hcases back' use hin with hin | ⟨rfl, rfl⟩
        · have hne := hold back' use hin j hlabel
          obtain ⟨hlt, hsome, hstart, hback⟩ := h.noted back' use hin j hlabel
          obtain ⟨hname', hstart', hback', -⟩ := hnoted.other j hne
          exact ⟨(hnoted.noteCount j).mpr (Or.inr hlt), hname' ▸ hsome, hstart'.trans hstart,
            hback'.trans hback⟩
        · obtain rfl : id = j := UseLabel.noted.inj hlabel
          exact ⟨hnoted.lt, Option.isSome_iff_exists.mpr ⟨_, hnoted.name_eq⟩, hnoted.start_eq,
            hnoted.back_eq⟩
      · intro j hlt hsome
        by_cases hj : j = id
        · refine ⟨⟨start, .noted id, kind⟩, ?_, congrArg UseLabel.noted hj.symm⟩
          have hback : (e'.notes j).back = back := hj ▸ hnoted.back_eq
          show _ ∈ (e'.setPart back _).part (e'.notes j).back
          rw [hback, part_setPart]
          exact List.mem_set hi _
        · obtain ⟨hname', -, hback', -⟩ := hnoted.other j hj
          have hlt' : j < e.noteCount := ((hnoted.noteCount j).mp hlt).resolve_left hj
          obtain ⟨use, hin, hlabel⟩ := h.owned j hlt' (hname' ▸ hsome)
          obtain ⟨k, hk⟩ := List.getElem?_of_mem hin
          refine ⟨use, ?_, hlabel⟩
          show use ∈ (e'.setPart back _).part (e'.notes j).back
          rw [hback']
          exact List.mem_of_getElem? (hstands _ k use j hk hlabel)
      · intro back' use hin at' bytes hlabel
        rcases hcases back' use hin with hin | ⟨-, rfl⟩
        · rw [labels_setPart, hnoted.labels]
          exact h.written back' use hin at' bytes hlabel
        · cases hlabel
      · have hlength : ((e'.setPart back _).part false).length = (e.part false).length :=
          hlengths false
        calc e.usesFrom ≤ (e.part false).length := h.usesFrom_le
          _ = _ := hlength.symm
      · intro hindexed back' k use hk hfrom
        have hheld := h.held (hnoted.indexed.symm.trans hindexed)
        by_cases hback : back' = back
        · subst hback
          rw [part_setPart] at hk
          by_cases hik : i = k
          · subst hik
            rw [List.getElem?_set_self hi] at hk
            exact ⟨id, by rw [← Option.some.inj hk]⟩
          · rw [List.getElem?_set_ne hik] at hk
            exact hheld back' k use hk hfrom
        · rw [part_setPart_ne _ _ _ hback, hpart] at hk
          exact hheld back' k use hk hfrom
    · rw [entries_eq_named, entries_eq_named, hnamed, hnamed, size_setPart, hnoted.uses]
    · exact hlengths
    · intro back' k use j hk hlabel
      exact ⟨use, hstands back' k use j hk hlabel, hlabel⟩
    · exact hnoted.indexed
  · rw [heq]
    exact .refl h

/-! ### The index made -/

lemma foldl_noteAt_kept (h : e.Ok) (back : Bool) (l : List ℕ) :
    Kept normalize e (l.foldl (UseIndex.noteAt normalize back) e) ∧
      ∀ i ∈ l, ∀ use, ((l.foldl (UseIndex.noteAt normalize back) e).part back)[i]? = some use →
        ∃ id, use.label = .noted id := by
  induction l generalizing e with
  | nil => exact ⟨.refl h, by simp⟩
  | cons i l ih =>
    have hkept := @noteAt_kept normalize e h back i
    obtain ⟨hkept', hnoted⟩ := ih hkept.ok
    refine ⟨hkept.trans hkept', ?_⟩
    intro j hj use huse
    rcases List.mem_cons.mp hj with rfl | hj
    · -- the use put in the index first stays there
      have hfirst : ∀ use, ((e.noteAt normalize back j).part back)[j]? = some use →
          ∃ id, use.label = .noted id := by
        intro use huse
        rcases noteAt_cases normalize back e j with
          ⟨start, label, size, kind, hwas, heq⟩ | ⟨hwas, heq⟩
        · rw [heq, part_setPart,
            List.getElem?_set_self (List.getElem?_eq_some_iff.mp hwas).1] at huse
          exact ⟨_, by rw [← Option.some.inj huse]⟩
        · rw [heq] at huse
          exact hwas use huse
      have hlt : j < ((e.noteAt normalize back j).part back).length := by
        have hlt' := (List.getElem?_eq_some_iff.mp huse).1
        have hlength := hkept'.length back
        rw [List.foldl_cons] at hlt'
        rwa [hlength] at hlt'
      obtain ⟨id, hid⟩ := hfirst _ (List.getElem?_eq_getElem hlt)
      obtain ⟨use', huse', hlabel⟩ := hkept'.noted back j _ id (List.getElem?_eq_getElem hlt) hid
      rw [List.foldl_cons] at huse
      rw [huse] at huse'
      exact ⟨id, by rw [Option.some.inj huse', hlabel]⟩
    · exact hnoted j hj use huse

/-- The index, made, holds every use, each under its name and where it stood. -/
lemma makeIndex_spec (h : e.Ok) :
    (e.makeIndex normalize).Ok ∧
      (e.makeIndex normalize).entries normalize = e.entries normalize ∧
      ∀ back, ∀ use ∈ (e.makeIndex normalize).part back, ∃ id, use.label = .noted id := by
  set front := (List.range e.uses.front.length).foldl (UseIndex.noteAt normalize false) e
    with hfront
  set both := (List.range front.uses.back.length).foldl (UseIndex.noteAt normalize true) front
    with hboth
  obtain ⟨hkept, hnoted⟩ := @foldl_noteAt_kept normalize e h false (List.range e.uses.front.length)
  obtain ⟨hkept', hnoted'⟩ :=
    @foldl_noteAt_kept normalize front hkept.ok true (List.range front.uses.back.length)
  have hall : ∀ back, ∀ use ∈ both.part back, ∃ id, use.label = .noted id := by
    intro back use hin
    obtain ⟨i, hi⟩ := List.getElem?_of_mem hin
    have hlt := (List.getElem?_eq_some_iff.mp hi).1
    cases back with
    | false =>
      have hlt' : i < (front.part false).length := by rwa [hkept'.length] at hlt
      have hrange : i ∈ List.range e.uses.front.length := by
        rw [hkept.length] at hlt'
        exact List.mem_range.mpr hlt'
      obtain ⟨id, hid⟩ := hnoted i hrange _ (List.getElem?_eq_getElem hlt')
      obtain ⟨use', huse', hlabel⟩ :=
        hkept'.noted false i _ id (List.getElem?_eq_getElem hlt') hid
      rw [hi] at huse'
      exact ⟨id, by rw [Option.some.inj huse', hlabel]⟩
    | true =>
      have hrange : i ∈ List.range front.uses.back.length := by
        rw [hkept'.length] at hlt
        exact List.mem_range.mpr hlt
      exact hnoted' i hrange use hi
  refine ⟨?_, ?_, hall⟩
  · obtain ⟨hlinked, hspared, hnoted, howned, hwritten, hfrom, -⟩ := hkept'.ok
    refine ⟨hlinked, hspared, hnoted, howned, hwritten, hfrom, ?_⟩
    intro _ back i use hi _
    exact hall back use (List.mem_of_getElem? hi)
  · exact hkept'.entries.trans hkept.entries

/-! ### What the index answers -/

/-- The uses' index holds every use: no reading noted one since. -/
def UseIndex.Flushed (e : UseIndex) : Prop :=
  e.indexed = true → e.usesFrom = e.uses.front.length

/-- The starts of a name's notes are those of the uses of the name. -/
lemma mem_startsOf (h : e.Ok)
    (hall : ∀ back, ∀ use ∈ e.part back, ∃ id, use.label = .noted id) (name : Key) (start : ℕ) :
    start ∈ e.startsOf name ↔ (some name, start) ∈ e.entries normalize := by
  obtain ⟨ids, hlinked, hnodup, hids⟩ := h.linked name
  have hstarts : e.startsOf name = ids.map e.noteStart := by
    rw [UseIndex.startsOf]
    cases hheld : e.names name with
    | none =>
      rw [hheld] at hlinked
      cases ids with
      | nil => rfl
      | cons id ids => exact absurd hlinked.1 (by simp)
    | some held =>
      rw [hheld] at hlinked
      exact congrArg _ (noteIds_of_linked hnodup (fun id hid => ((hids id).mp hid).1) hlinked)
  have hpart : ∀ back, ∀ use ∈ e.part back, ∀ id, use.label = .noted id →
      e.nameOf normalize use = some name → id ∈ ids ∧
        e.noteStart id = if back then e.uses.size - use.start else use.start := by
    intro back use hin id hlabel hname
    obtain ⟨hlt, -, hstart, hback⟩ := h.noted back use hin id hlabel
    simp only [UseIndex.nameOf, hlabel] at hname
    refine ⟨(hids id).mpr ⟨hlt, hname⟩, ?_⟩
    rw [UseIndex.noteStart, hback, hstart]
  rw [hstarts, List.mem_map]
  constructor
  · rintro ⟨id, hid, rfl⟩
    obtain ⟨hlt, hname⟩ := (hids id).mp hid
    obtain ⟨use, hin, hlabel⟩ := h.owned id hlt (Option.isSome_iff_exists.mpr ⟨_, hname⟩)
    have hname' : e.nameOf normalize use = some name := by
      simp only [UseIndex.nameOf, hlabel, hname]
    obtain ⟨-, hstart⟩ := hpart _ use hin id hlabel hname'
    rw [hstart, UseIndex.entries, List.mem_append]
    cases hback : (e.notes id).back with
    | false =>
      rw [hback] at hin
      exact Or.inl (List.mem_map.mpr ⟨use, hin, by rw [hname']; rfl⟩)
    | true =>
      rw [hback] at hin
      exact Or.inr (List.mem_map.mpr ⟨use, hin, by rw [hname']; rfl⟩)
  · rw [UseIndex.entries, List.mem_append]
    rintro (hin | hin)
    · obtain ⟨use, huse, heq⟩ := List.mem_map.mp hin
      obtain ⟨hname, rfl⟩ := Prod.mk.inj heq
      obtain ⟨id, hlabel⟩ := hall false use huse
      obtain ⟨hid, hstart⟩ := hpart false use huse id hlabel hname
      exact ⟨id, hid, hstart⟩
    · obtain ⟨use, huse, heq⟩ := List.mem_map.mp hin
      obtain ⟨hname, rfl⟩ := Prod.mk.inj heq
      obtain ⟨id, hlabel⟩ := hall true use huse
      obtain ⟨hid, hstart⟩ := hpart true use huse id hlabel hname
      exact ⟨id, hid, hstart⟩

/-- A place in spans in order is held where it is in one of them. -/
lemma spansHold_iff {spans : List (ℕ × ℕ)} (h : OrderedSpans spans) (place : ℕ) :
    spansHold spans place = true ↔ ∃ span ∈ spans, span.1 ≤ place ∧ place < span.2 := by
  obtain ⟨hle, hpairwise⟩ := h
  have hlt : ∀ {i j : ℕ}, i < j → j < spans.length →
      (spans.getD i default).2 ≤ (spans.getD j default).1 := by
    intro i j hij hj
    rw [List.getD_eq_getElem _ _ hj, List.getD_eq_getElem _ _ (hij.trans hj)]
    exact List.pairwise_iff_getElem.mp hpairwise i j (hij.trans hj) hj hij
  have hself : ∀ {i : ℕ}, i < spans.length →
      (spans.getD i default).1 ≤ (spans.getD i default).2 := by
    intro i hi
    rw [List.getD_eq_getElem _ _ hi]
    exact hle _ (List.getElem_mem hi)
  set below : ℕ → Bool := fun i => decide ((spans.getD i default).2 ≤ place) with hbelow
  have hcongr : Bisect.bisect below spans.length 0 spans.length =
      Bisect.bisect (fun i => decide (i < spans.length) && below i) spans.length 0
        spans.length := by
    apply Bisect.bisect_congr
    intro k hk
    rw [decide_eq_true hk, Bool.true_and]
  have hfalls : Bisect.Falls fun i => decide (i < spans.length) && below i := by
    intro i j hij hj
    obtain ⟨hj', hplace⟩ := Bool.and_eq_true_iff.mp hj
    have hj' := of_decide_eq_true hj'
    have hplace : (spans.getD j default).2 ≤ place := of_decide_eq_true hplace
    apply Bool.and_eq_true_iff.mpr
    refine ⟨decide_eq_true (lt_of_le_of_lt hij hj'), decide_eq_true ?_⟩
    rcases Nat.lt_or_eq_of_le hij with hlt' | rfl
    · exact ((hlt hlt' hj').trans (hself hj')).trans hplace
    · exact hplace
  rw [spansHold]
  show (decide (Bisect.bisect below spans.length 0 spans.length < spans.length) &&
    decide ((spans.getD (Bisect.bisect below spans.length 0 spans.length) default).1 ≤ place)) =
      true ↔ _
  rw [hcongr]
  set low := Bisect.bisect (fun i => decide (i < spans.length) && below i) spans.length 0
    spans.length with hlow
  constructor
  · intro hheld
    obtain ⟨hin, hstart⟩ := Bool.and_eq_true_iff.mp hheld
    have hin := of_decide_eq_true hin
    have hpast := Bisect.bisect_not_below (Nat.le_of_eq (Nat.sub_zero _)) hin
    rw [← hlow] at hpast
    refine ⟨spans.getD low default, ?_, of_decide_eq_true hstart, ?_⟩
    · rw [List.getD_eq_getElem _ _ hin]
      exact List.getElem_mem hin
    · rw [decide_eq_true hin, Bool.true_and] at hpast
      exact not_le.mp (of_decide_eq_false hpast)
  · rintro ⟨span, hmem, hstart, hstop⟩
    obtain ⟨i, hi, rfl⟩ := List.getElem_of_mem hmem
    have hget : spans.getD i default = spans[i] := List.getD_eq_getElem _ _ hi
    -- the spans before the one found end by the place, and those after it start past it
    have hle : low ≤ i := by
      by_contra hgt
      have hbefore := Bisect.bisect_below hfalls (Nat.zero_le i) (not_le.mp hgt)
      have hplace := of_decide_eq_true (Bool.and_eq_true_iff.mp hbefore).2
      rw [hget] at hplace
      omega
    have hlow' : low < spans.length := lt_of_le_of_lt hle hi
    have hpast := Bisect.bisect_not_below (Nat.le_of_eq (Nat.sub_zero _)) hlow'
    rw [← hlow, decide_eq_true hlow', Bool.true_and] at hpast
    have hpast : place < (spans.getD low default).2 := not_le.mp (of_decide_eq_false hpast)
    have heq : low = i := by
      by_contra hne
      have hnext := hlt (Nat.lt_of_le_of_ne hle hne) hi
      rw [hget] at hnext
      omega
    apply Bool.and_eq_true_iff.mpr
    exact ⟨decide_eq_true hlow', decide_eq_true (by rwa [heq, hget])⟩

/-- A list in order without its repeats is strictly in order and holds the same. -/
lemma destutter_spec {l : List ℕ} (hl : l.Pairwise (· ≤ ·)) :
    (l.destutter (· ≠ ·)).Pairwise (· < ·) ∧ ∀ x, x ∈ l.destutter (· ≠ ·) ↔ x ∈ l := by
  have hmem : ∀ (l : List ℕ) (a x : ℕ), x ∈ l.destutter' (· ≠ ·) a ↔ x = a ∨ x ∈ l := by
    intro l
    induction l with
    | nil => simp
    | cons b l ih =>
      intro a x
      by_cases h : a = b
      · subst h
        rw [List.destutter'_cons_neg _ (not_not.mpr rfl), ih]
        simp
      · rw [List.destutter'_cons_pos _ h, List.mem_cons, ih, List.mem_cons]
  have hlt : ∀ (l : List ℕ) (a : ℕ), (a :: l).Pairwise (· ≤ ·) →
      (l.destutter' (· ≠ ·) a).Pairwise (· < ·) := by
    intro l
    induction l with
    | nil => exact fun a _ => List.pairwise_singleton _ a
    | cons b l ih =>
      intro a hall
      obtain ⟨ha, hb⟩ := List.pairwise_cons.mp hall
      by_cases h : a = b
      · subst h
        rw [List.destutter'_cons_neg _ (not_not.mpr rfl)]
        exact ih a hb
      · rw [List.destutter'_cons_pos _ h, List.pairwise_cons]
        refine ⟨?_, ih b hb⟩
        intro x hx
        have hab : a < b := Nat.lt_of_le_of_ne (ha b List.mem_cons_self) h
        rcases (hmem l b x).mp hx with rfl | hx
        · exact hab
        · exact lt_of_lt_of_le hab ((List.pairwise_cons.mp hb).1 x hx)
  cases l with
  | nil => simp
  | cons a l =>
    rw [List.destutter_cons']
    refine ⟨hlt l a hl, ?_⟩
    intro x
    rw [hmem, List.mem_cons]

/-- Where the uses of altered labels start that start in a span, in order and each once. -/
theorem usesOf_spec (h : e.Ok) (hflushed : e.Flushed) (altered : List Key) {spans : List (ℕ × ℕ)}
    (hspans : OrderedSpans spans) :
    (usesOf normalize e altered spans).2.Pairwise (· < ·) ∧
      ∀ place, place ∈ (usesOf normalize e altered spans).2 ↔
        ∃ name ∈ altered, ∃ start, (some name, start) ∈ e.entries normalize ∧
          (∃ span ∈ spans, span.1 ≤ start ∧ start < span.2) ∧ place = start + 1 := by
  rw [usesOf]
  split
  next hnil =>
    subst hnil
    simp
  next =>
    obtain ⟨hok, hentries, hall⟩ : (if e.indexed then e else e.makeIndex normalize).Ok ∧
        (if e.indexed then e else e.makeIndex normalize).entries normalize =
          e.entries normalize ∧
        ∀ back, ∀ use ∈ (if e.indexed then e else e.makeIndex normalize).part back,
          ∃ id, use.label = .noted id := by
      split
      next hindexed =>
        refine ⟨h, rfl, ?_⟩
        intro back use hin
        obtain ⟨i, hi⟩ := List.getElem?_of_mem hin
        apply h.held hindexed back i use hi
        cases back with
        | true => exact Or.inl rfl
        | false =>
          rw [hflushed hindexed]
          exact Or.inr (List.getElem?_eq_some_iff.mp hi).1
      next => exact makeIndex_spec h
    set e' := if e.indexed then e else e.makeIndex normalize with he'
    set found := altered.flatMap fun name => (e'.startsOf name).filter (spansHold spans) with hfound
    obtain ⟨hpairwise, hmem⟩ :=
      destutter_spec (List.pairwise_insertionSort (· ≤ ·) (found.map (· + 1)))
    refine ⟨hpairwise, ?_⟩
    intro place
    show place ∈ ((found.map (· + 1)).insertionSort (· ≤ ·)).destutter (· ≠ ·) ↔ _
    rw [hmem, List.mem_insertionSort, List.mem_map]
    constructor
    · rintro ⟨start, hin, rfl⟩
      obtain ⟨name, hname, hin⟩ := List.mem_flatMap.mp hin
      obtain ⟨hin, hheld⟩ := List.mem_filter.mp hin
      refine ⟨name, hname, start, ?_, (spansHold_iff hspans start).mp hheld, rfl⟩
      rw [← hentries]
      exact (mem_startsOf hok hall name start).mp hin
    · rintro ⟨name, hname, start, hin, hspan, rfl⟩
      refine ⟨start, List.mem_flatMap.mpr ⟨name, hname, List.mem_filter.mpr ⟨?_, ?_⟩⟩, rfl⟩
      · rw [← hentries] at hin
        exact (mem_startsOf hok hall name start).mpr hin
      · exact (spansHold_iff hspans start).mpr hspan

end MarkdownCore.Uses
