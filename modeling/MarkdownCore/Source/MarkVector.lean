import MarkdownCore.Source.ContentMapRun

/-!
# The parser's marks

One vector holds the marks of all maps, and a map names a run of them. A map grows at the end of
the vector; where other maps have grown since, it moves its marks there first and leaves those it
had, which other maps may share (`Grows`). Pushing a mark so is `ContentMap.appendMark` of the
map's own marks.
-/

namespace MarkdownCore.Source

/-- `markdown_core_content_map`: the marks it names, and where its text begins among them. -/
structure MapView where
  first : ℕ
  count : ℕ
  offset : ℕ
deriving DecidableEq, Inhabited

namespace MapView

/-- The map with its marks. -/
def contentMap (marks : List Mark) (map : MapView) : ContentMap :=
  ⟨(marks.drop map.first).take map.count, map.offset⟩

/-- `markdown_core_block_content_mark_at`: the index among the parser's marks. -/
def markIndex (marks : List Mark) (map : MapView) (offset : ℕ) : ℕ :=
  map.first + markAt (map.contentMap marks).marks offset

/-- `S_content_place`. -/
def contentPlace (marks : List Mark) (map : MapView) (offset : ℕ) (stop : Bool) :
    Option (ℕ × ℤ) :=
  if map.count = 0 then none
  else
    let mark := marks.getD (map.markIndex marks (offset + map.offset)) default
    some (mark.line, mark.place (offset + map.offset) stop)

/-- `S_move_content_marks`, with storage for them. -/
def moveMarks (marks : List Mark) (map : MapView) : List Mark × MapView :=
  (marks ++ (map.contentMap marks).marks, { map with first := marks.length })

/-- The rest of `S_append_content_mark`, once the parser's marks end where the map's do. -/
def pushMark (marks : List Mark) (map : MapView) (mark : Mark) : List Mark × MapView :=
  let last := marks.length - 1
  if map.count ≠ 0 ∧ (marks.getD last default).offset = mark.offset then
    (marks.set last mark, map)
  else
    (marks ++ [mark], { map with
      first := if map.count = 0 then marks.length else map.first
      count := map.count + 1 })

/-- `S_append_content_mark`, with storage for the mark. -/
def appendMark (marks : List Mark) (map : MapView) (mark : Mark) : List Mark × MapView :=
  let mark := { mark with offset := mark.offset + map.offset }
  let moved :=
    if map.count ≠ 0 ∧ map.first + map.count ≠ marks.length then map.moveMarks marks
    else (marks, map)
  moved.2.pushMark moved.1 mark

/-- `markdown_core_parser_adopt_content_marks`: the map that takes the slice. -/
def adoptMarks (marks : List Mark) (owner map : MapView) (first length : ℕ) : MapView :=
  if owner.count = 0 ∨ length = 0 then map
  else
    let start := first + owner.offset
    let head := owner.markIndex marks start
    let last := owner.markIndex marks (start + length - 1)
    ⟨head, last - head + 1, start⟩

/-- The loop of `markdown_core_parser_append_content_marks`: the owner's marks from `i` on, read
as they are then. The first argument bounds its turns. -/
def appendFrom (start offset : ℕ) : ℕ → ℕ → List Mark → MapView → List Mark × MapView
  | 0, _, marks, map => (marks, map)
  | turns + 1, i, marks, map =>
    let pushed := map.appendMark marks ((marks.getD i default).cut start offset)
    appendFrom start offset turns (i + 1) pushed.1 pushed.2

/-- `markdown_core_parser_append_content_marks`: `none` when the owner has no map. -/
def appendMarks (marks : List Mark) (owner map : MapView) (first length offset : ℕ) :
    Option (List Mark × MapView) :=
  if length = 0 then some (marks, map)
  else if owner.count = 0 then none
  else
    let start := first + owner.offset
    let head := owner.markIndex marks start
    let last := owner.markIndex marks (start + length - 1)
    some (appendFrom start offset (last + 1 - head) head marks map)

/-- `markdown_core_block_rebase_content_marks`. -/
def rebaseMarks (marks : List Mark) (map : MapView) (cut remaining : ℕ) : MapView :=
  if map.count = 0 ∨ cut = 0 then map
  else if remaining = 0 then { map with count := 0, offset := 0 }
  else map.adoptMarks marks map cut remaining

/-- The marks a map names are among the parser's. -/
def Within (marks : List Mark) (map : MapView) : Prop := map.first + map.count ≤ marks.length

/-- The index of one of a map's marks. -/
def Names (map : MapView) (i : ℕ) : Prop := map.first ≤ i ∧ i < map.first + map.count

end MapView

variable {marks marks' : List Mark} {mark : Mark} {map map' owner : MapView} {i : ℕ}

open MapView

@[simp] lemma length_contentMap (h : map.Within marks) :
    (map.contentMap marks).marks.length = map.count := by
  rw [Within] at h
  simp only [contentMap, List.length_take, List.length_drop]
  omega

lemma getElem?_contentMap {j : ℕ} (hj : j < map.count) :
    (map.contentMap marks).marks[j]? = marks[map.first + j]? := by
  simp [contentMap, hj]

lemma contentMap_nil (h : map.Within marks) : (map.contentMap marks).marks = [] ↔ map.count = 0 := by
  rw [← List.length_eq_zero_iff, length_contentMap h]

/-- A map's marks are as they were where the parser's are. -/
lemma contentMap_congr (h : ∀ i, map.Names i → marks'[i]? = marks[i]?) :
    map.contentMap marks' = map.contentMap marks := by
  have heq : (map.contentMap marks').marks = (map.contentMap marks).marks := by
    apply List.ext_getElem?
    intro j
    by_cases hj : j < map.count
    · rw [getElem?_contentMap hj, getElem?_contentMap hj]
      exact h _ ⟨Nat.le_add_right _ _, Nat.add_lt_add_left hj _⟩
    · simp only [contentMap, List.getElem?_take, hj, if_false]
  exact congrArg (ContentMap.mk · map.offset) heq

/-- The map grew at the end of the parser's marks: the marks there were stay but one of its own
that begins at `least` or past it, and it names no more of them than it did. -/
structure Grows (least : ℕ) (marks : List Mark) (map : MapView) (marks' : List Mark)
    (map' : MapView) : Prop where
  length_le : marks.length ≤ marks'.length
  kept : ∀ i < marks.length, marks'[i]? = marks[i]? ∨
    map.Names i ∧ ∃ mark, marks[i]? = some mark ∧ least ≤ mark.offset
  names : ∀ i, map'.Names i → marks.length ≤ i ∨ map.Names i
  offset_eq : map'.offset = map.offset
  within : map'.Within marks'

namespace Grows

variable {least : ℕ} {marks'' : List Mark} {map'' : MapView}

lemma refl (h : map.Within marks) : Grows least marks map marks map where
  length_le := le_refl _
  kept _ _ := Or.inl rfl
  names _ hi := Or.inr hi
  offset_eq := rfl
  within := h

lemma mono {least' : ℕ} (h : Grows least' marks map marks' map') (hle : least ≤ least') :
    Grows least marks map marks' map' where
  length_le := h.length_le
  kept := by
    intro i hi
    rcases h.kept i hi with hkept | ⟨hnames, mark, hmark, hle'⟩
    · exact Or.inl hkept
    · exact Or.inr ⟨hnames, mark, hmark, le_trans hle hle'⟩
  names := h.names
  offset_eq := h.offset_eq
  within := h.within

lemma trans (h : Grows least marks map marks' map') (h' : Grows least marks' map' marks'' map'') :
    Grows least marks map marks'' map'' where
  length_le := le_trans h.length_le h'.length_le
  kept := by
    intro i hi
    rcases h'.kept i (lt_of_lt_of_le hi h.length_le) with hkept | ⟨hnames, mark, hmark, hle⟩
    · rw [hkept]
      exact h.kept i hi
    · have hown := (h.names i hnames).resolve_left (Nat.not_le.mpr hi)
      rcases h.kept i hi with hkept | hchanged
      · exact Or.inr ⟨hown, mark, hkept ▸ hmark, hle⟩
      · exact Or.inr hchanged
  names := by
    intro i hi
    rcases h'.names i hi with hle | hnames
    · exact Or.inl (le_trans h.length_le hle)
    · exact h.names i hnames
  offset_eq := h'.offset_eq.trans h.offset_eq
  within := h'.within

end Grows

/-! ### Pushing a mark -/

lemma moveMarks_spec (h : map.Within marks) (least : ℕ) :
    (map.moveMarks marks).2.contentMap (map.moveMarks marks).1 = map.contentMap marks ∧
      Grows least marks map (map.moveMarks marks).1 (map.moveMarks marks).2 := by
  have hlength := length_contentMap h
  refine ⟨?_, ?_⟩
  · rw [moveMarks, contentMap]
    dsimp only
    rw [List.drop_left, List.take_of_length_le (le_of_eq hlength)]
    rfl
  · constructor
    · rw [moveMarks, List.length_append]
      exact Nat.le_add_right _ _
    · intro i hi
      exact Or.inl (List.getElem?_append_left hi)
    · intro i hi
      exact Or.inl hi.1
    · rfl
    · rw [Within, moveMarks, List.length_append, hlength]

/-- The map that names the last marks. -/
lemma contentMap_append {before own : List Mark} {count origin : ℕ} (h : own.length = count) :
    (MapView.mk before.length count origin).contentMap (before ++ own) = ⟨own, origin⟩ := by
  rw [contentMap, List.drop_left, List.take_of_length_le (le_of_eq h)]

lemma appendMark_nil (mark : Mark) (origin : ℕ) :
    (⟨[], origin⟩ : ContentMap).appendMark mark =
      ⟨[{ mark with offset := mark.offset + origin }], origin⟩ := rfl

lemma appendMark_concat (init : List Mark) (last mark : Mark) (origin : ℕ) :
    (⟨init ++ [last], origin⟩ : ContentMap).appendMark mark =
      ⟨(if last.offset = mark.offset + origin then init else init ++ [last]) ++
        [{ mark with offset := mark.offset + origin }], origin⟩ := by
  rw [ContentMap.appendMark]
  simp only [List.getLast?_append, List.getLast?_singleton, Option.some_or]
  split
  next => simp
  next => rfl

/-- A mark pushed at the end of the parser's marks, where those of the map end. -/
lemma pushMark_spec (h : map.Within marks)
    (hend : map.count ≠ 0 → map.first + map.count = marks.length) {pushed : Mark}
    (hpushed : { mark with offset := mark.offset + map.offset } = pushed) :
    (map.pushMark marks pushed).2.contentMap (map.pushMark marks pushed).1 =
        (map.contentMap marks).appendMark mark ∧
      Grows pushed.offset marks map (map.pushMark marks pushed).1 (map.pushMark marks pushed).2 := by
  have hoffset : mark.offset + map.offset = pushed.offset := by rw [← hpushed]
  obtain ⟨first, count, origin⟩ := map
  dsimp only at hpushed hoffset
  rw [pushMark]
  dsimp only
  by_cases hcount : count = 0
  · subst hcount
    rw [if_neg (by simp)]
    constructor
    · simp [contentMap, appendMark_nil, hpushed]
    · constructor
      · simp
      · intro i hi
        exact Or.inl (List.getElem?_append_left hi)
      · intro i hi
        exact Or.inl hi.1
      · rfl
      · simp [Within]
  · have hlength : first + count = marks.length := hend hcount
    obtain ⟨before, own, hbefore, rfl⟩ : ∃ before own, before.length = first ∧
        marks = before ++ own :=
      ⟨marks.take first, marks.drop first, by simp; omega, (List.take_append_drop _ _).symm⟩
    subst hbefore
    rw [List.length_append, Nat.add_left_cancel_iff] at hlength
    subst hlength
    obtain ⟨init, last, rfl⟩ : ∃ init last, own = init ++ [last] := by
      rcases List.eq_nil_or_concat own with rfl | ⟨init, last, rfl⟩
      · exact absurd rfl hcount
      · exact ⟨init, last, List.concat_eq_append⟩
    have hlast : (before ++ (init ++ [last])).length - 1 = (before ++ init).length := by simp
    have hget : (before ++ (init ++ [last])).getD (before ++ init).length default = last := by
      rw [← List.append_assoc]
      simp
    have hown : (MapView.mk before.length (init ++ [last]).length origin).contentMap
        (before ++ (init ++ [last])) = ⟨init ++ [last], origin⟩ := contentMap_append rfl
    rw [hlast, hget, hown, appendMark_concat, hpushed, hoffset]
    by_cases heq : last.offset = pushed.offset
    · rw [if_pos ⟨hcount, heq⟩, if_pos heq]
      have hset : (before ++ (init ++ [last])).set (before ++ init).length pushed =
          before ++ (init ++ [pushed]) := by
        rw [← List.append_assoc, List.set_append_right _ _ (le_refl _), Nat.sub_self]
        simp
      constructor
      · rw [hset]
        exact contentMap_append (by simp)
      · constructor
        · simp
        · intro i hi
          rw [List.getElem?_set]
          split
          next hlast =>
            -- the mark that is replaced is the map's last
            subst hlast
            refine Or.inr ⟨⟨?_, ?_⟩, last, ?_, le_of_eq heq.symm⟩
            · simp
            · simp
            · rw [← List.append_assoc]
              simp
          next => exact Or.inl rfl
        · intro i hi
          exact Or.inr hi
        · rfl
        · simp [Within]
    · rw [if_neg fun h => heq h.2, if_neg heq, if_neg hcount]
      constructor
      · rw [List.append_assoc]
        exact contentMap_append (by simp)
      · constructor
        · simp
        · intro i hi
          exact Or.inl (List.getElem?_append_left hi)
        · rintro i ⟨hle, hlt⟩
          simp only [Names, List.length_append] at hle hlt ⊢
          omega
        · rfl
        · simp [Within]

/-- A mark appended to a map is appended to its own, and the parser's others stay. -/
theorem appendMark_spec (h : map.Within marks) (mark : Mark) :
    (map.appendMark marks mark).2.contentMap (map.appendMark marks mark).1 =
        (map.contentMap marks).appendMark mark ∧
      Grows (mark.offset + map.offset) marks map (map.appendMark marks mark).1
        (map.appendMark marks mark).2 := by
  rw [MapView.appendMark]
  split
  next hmoved =>
    obtain ⟨hmap, hgrows⟩ := moveMarks_spec h (mark.offset + map.offset)
    have hend : (map.moveMarks marks).2.first + (map.moveMarks marks).2.count =
        (map.moveMarks marks).1.length := by
      simp [moveMarks, length_contentMap h]
    obtain ⟨hpushed, hgrows'⟩ := @pushMark_spec _ mark _ hgrows.within (fun _ => hend) _ rfl
    rw [hmap] at hpushed
    exact ⟨hpushed, hgrows.trans hgrows'⟩
  next hmoved =>
    refine pushMark_spec h (fun hcount => ?_) rfl
    by_contra hne
    exact hmoved ⟨hcount, hne⟩

/-! ### A run of another map -/

/-- Marks that stay as the map grows are pushed one after another as they were. -/
lemma appendFrom_spec {start offset : ℕ} {read : List Mark} (h : map.Within marks)
    (hread : ∀ j m, read[j]? = some m → marks[i + j]? = some m)
    (hstay : ∀ j m, read[j]? = some m → map.Names (i + j) → m.offset < offset + map.offset) :
    (appendFrom start offset read.length i marks map).2.contentMap
        (appendFrom start offset read.length i marks map).1 =
        read.foldl (fun map mark => map.appendMark (mark.cut start offset))
          (map.contentMap marks) ∧
      Grows (offset + map.offset) marks map (appendFrom start offset read.length i marks map).1
        (appendFrom start offset read.length i marks map).2 := by
  induction read generalizing i marks map with
  | nil => exact ⟨rfl, Grows.refl h⟩
  | cons m read ih =>
    have hm : marks.getD i default = m := by
      have hzero := hread 0 m rfl
      rw [Nat.add_zero] at hzero
      rw [List.getD_eq_getElem?_getD, hzero]
      rfl
    obtain ⟨hmap, hgrows⟩ := appendMark_spec h (m.cut start offset)
    have hcut : offset ≤ (m.cut start offset).offset := by
      simp only [Mark.cut]
      split <;> omega
    have hgrows := hgrows.mono (Nat.add_le_add_right hcut map.offset)
    rw [List.length_cons, appendFrom, hm]
    generalize map.appendMark marks (m.cut start offset) = pushed at hmap hgrows ⊢
    -- what is still to be read is as it was
    have hnext : ∀ j m', read[j]? = some m' →
        marks[i + 1 + j]? = some m' ∧ (map.Names (i + 1 + j) → m'.offset < offset + map.offset) := by
      intro j m' hj
      have hmark := hread (j + 1) m' hj
      have hbefore := hstay (j + 1) m' hj
      rw [← Nat.add_assoc, Nat.add_right_comm] at hmark hbefore
      exact ⟨hmark, hbefore⟩
    have hread' : ∀ j m', read[j]? = some m' → pushed.1[i + 1 + j]? = some m' := by
      intro j m' hj
      obtain ⟨hmark, hbefore⟩ := hnext j m' hj
      obtain ⟨hlt, -⟩ := List.getElem?_eq_some_iff.mp hmark
      rcases hgrows.kept _ hlt with hkept | ⟨hnames, mark, hmark', hle⟩
      · exact hkept.trans hmark
      · cases hmark.symm.trans hmark'
        exact absurd (hbefore hnames) (Nat.not_lt.mpr hle)
    have hstay' : ∀ j m', read[j]? = some m' → pushed.2.Names (i + 1 + j) →
        m'.offset < offset + pushed.2.offset := by
      intro j m' hj hnames
      obtain ⟨hmark, hbefore⟩ := hnext j m' hj
      obtain ⟨hlt, -⟩ := List.getElem?_eq_some_iff.mp hmark
      rw [hgrows.offset_eq]
      exact hbefore ((hgrows.names _ hnames).resolve_left (Nat.not_le.mpr hlt))
    obtain ⟨hmap', hgrows'⟩ := ih hgrows.within hread' hstay'
    rw [hmap] at hmap'
    rw [hgrows.offset_eq] at hgrows'
    exact ⟨hmap', hgrows.trans hgrows'⟩

section

variable {first length : ℕ}

/-- The owner's marks from that of a byte to that of a later one. -/
lemma slice_indices (h : owner.Within marks) (hok : (owner.contentMap marks).Ok) {start : ℕ}
    (hstart : owner.offset ≤ start) (hpos : 0 < length) :
    owner.markIndex marks start ≤ owner.markIndex marks (start + length - 1) ∧
      owner.markIndex marks (start + length - 1) < owner.first + owner.count ∧
      ((owner.contentMap marks).slice start length).length =
        owner.markIndex marks (start + length - 1) + 1 - owner.markIndex marks start := by
  have hfirst := hok.covers (show (owner.contentMap marks).origin ≤ start from hstart)
  have hlast := hok.covers
    (show (owner.contentMap marks).origin ≤ start + length - 1 from by
      exact le_trans hstart (by omega))
  have hle := hfirst.mono hlast (by omega)
  obtain ⟨hlt, -⟩ := List.getElem?_eq_some_iff.mp hlast.found
  rw [length_contentMap h] at hlt
  refine ⟨Nat.add_le_add_left hle _, Nat.add_lt_add_left hlt _, ?_⟩
  rw [ContentMap.slice, List.length_take, List.length_drop, length_contentMap h, markIndex,
    markIndex]
  omega

/-- A mark of a slice, among the parser's. -/
lemma getElem?_slice_markIndex {start j : ℕ} {m : Mark}
    (h : ((owner.contentMap marks).slice start length)[j]? = some m)
    (hlt : owner.markIndex marks start + j < owner.first + owner.count) :
    marks[owner.markIndex marks start + j]? = some m := by
  rw [markIndex, Nat.add_assoc] at hlt ⊢
  rw [← getElem?_contentMap (Nat.lt_of_add_lt_add_left hlt)]
  exact (getElem?_slice h).1

/-- The map of a slice has the owner's marks of it. -/
lemma adoptMarks_contentMap (h : owner.Within marks) (hok : (owner.contentMap marks).Ok)
    (hpos : 0 < length) :
    (owner.adoptMarks marks map first length).contentMap marks =
      ⟨(owner.contentMap marks).slice (first + owner.offset) length, first + owner.offset⟩ := by
  have hcount : owner.count ≠ 0 := fun hzero =>
    hok.marks_ne_nil ((contentMap_nil h).mpr hzero)
  obtain ⟨hle, hlt, hlength⟩ := slice_indices h hok (Nat.le_add_left owner.offset first) hpos
  have hnot : ¬ (owner.count = 0 ∨ length = 0) := not_or.mpr ⟨hcount, Nat.ne_of_gt hpos⟩
  have hmarks : ((owner.adoptMarks marks map first length).contentMap marks).marks =
      (owner.contentMap marks).slice (first + owner.offset) length := by
    apply List.ext_getElem?
    intro j
    rw [adoptMarks, if_neg hnot]
    dsimp only
    by_cases hj : j < ((owner.contentMap marks).slice (first + owner.offset) length).length
    · rw [getElem?_contentMap (by dsimp only; omega), List.getElem?_eq_getElem hj]
      exact getElem?_slice_markIndex (List.getElem?_eq_getElem hj) (by omega)
    · rw [List.getElem?_eq_none (Nat.le_of_not_lt hj), contentMap, List.getElem?_eq_none]
      rw [List.length_take]
      dsimp only
      omega
  rw [← hmarks, adoptMarks, if_neg hnot]
  rfl

/-- The marks of a slice are pushed as the owner has them. -/
lemma appendMarks_spec (h : owner.Within marks) (hok : (owner.contentMap marks).Ok)
    (hpos : 0 < length) (hmap : map.Within marks) {offset : ℕ}
    (hstay : ∀ i m, owner.Names i → map.Names i → marks[i]? = some m →
      m.offset ≤ first + owner.offset + length - 1 → m.offset < offset + map.offset) :
    ∃ pushed, owner.appendMarks marks map first length offset = some pushed ∧
      pushed.2.contentMap pushed.1 =
        ((owner.contentMap marks).slice (first + owner.offset) length).foldl
          (fun map mark => map.appendMark (mark.cut (first + owner.offset) offset))
          (map.contentMap marks) ∧
      Grows (offset + map.offset) marks map pushed.1 pushed.2 := by
  have hcount : owner.count ≠ 0 := fun hzero =>
    hok.marks_ne_nil ((contentMap_nil h).mpr hzero)
  have hstart := Nat.le_add_left owner.offset first
  obtain ⟨hle, hlt, hlength⟩ := slice_indices h hok hstart hpos
  rw [MapView.appendMarks, if_neg (Nat.ne_of_gt hpos), if_neg hcount]
  dsimp only
  rw [← hlength]
  refine ⟨_, rfl, appendFrom_spec hmap (fun j m hj => ?_) (fun j m hj hnames => ?_)⟩
  · obtain ⟨hj', -⟩ := List.getElem?_eq_some_iff.mp hj
    exact getElem?_slice_markIndex hj (by omega)
  · obtain ⟨hj', -⟩ := List.getElem?_eq_some_iff.mp hj
    have hlt' : owner.markIndex marks (first + owner.offset) + j < owner.first + owner.count := by
      omega
    have hle' := hok.slice_le (show (owner.contentMap marks).origin ≤ _ from hstart) hpos
      (List.mem_of_getElem? hj)
    refine hstay _ m ⟨?_, hlt'⟩ hnames (getElem?_slice_markIndex hj hlt') hle'
    rw [markIndex, Nat.add_assoc]
    exact Nat.le_add_right _ _

end

end MarkdownCore.Source
